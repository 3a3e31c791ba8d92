import AsyncPulse.Expiry
import AsyncPulse.Lockout
import AsyncPulse.SignOut
set_option autoImplicit false

namespace AsyncPulse
open Effect

variable {cfg : Config} {d : Database} {t₀ : Time} {h : List Act} {β : Type}
  {Q : Except Exc β → List Act → Prop}

def SessionModel.shut (u : String) (t : Time) (r : SessionModel) : SessionModel :=
  if r.userId = u ∧ r.revokedAt = none then { r with revokedAt := some t } else r

def shutdown (rows : List SessionModel) (t : Time) : List Write :=
  (rows.map fun r => (r, t)).map eviction

theorem get_shutdown (d : Database) (u : String) (rank : String → Nat) (t : Time) (s : String) :
    (d.applyAll (shutdown ((SessionQuery.unrevokedOf u).eval rank d.sessions) t)).sessions.get s =
      (d.sessions.get s).map (SessionModel.shut u t) := by
  generalize hrows : (SessionQuery.unrevokedOf u).eval rank d.sessions = rows
  have hmem : ∀ r, r ∈ rows ↔ r ∈ d.sessions.rows ∧ r.userId = u ∧ r.revokedAt = none := by
    intro r
    rw [← hrows, SessionQuery.mem_eval]
    simp [SessionQuery.selects]
  have hids : ((rows.map fun r => (r, t)).map fun x => x.1.id).Nodup := by
    rw [List.map_map, ← hrows]
    exact SessionQuery.nodup_eval _ _ _
  have hget : ∀ x ∈ rows.map fun r => (r, t), d.sessions.get x.1.id = some x.1 := by
    intro x hx
    obtain ⟨r, hr, rfl⟩ := List.mem_map.mp hx
    exact Keyed.get_of_mem ((hmem r).mp hr).1
  unfold shutdown
  by_cases hs : ∃ r ∈ rows, r.id = s
  · obtain ⟨r, hr, rfl⟩ := hs
    have hx : (r, t) ∈ rows.map fun r => (r, t) := List.mem_map_of_mem hr
    have hended := get_evictions hids hget hx
    have hrow := hget _ hx
    simp only at hended hrow
    rw [hended, hrow, Option.map_some, SessionModel.shut, if_pos ((hmem r).mp hr).2]
  · have hne : ∀ x ∈ rows.map fun r => (r, t), x.1.id ≠ s := by
      intro x hx he
      obtain ⟨r, hr, rfl⟩ := List.mem_map.mp hx
      exact hs ⟨r, hr, he⟩
    rw [get_evictions_of_ne hne]
    cases hrow : d.sessions.get s with
    | none => rfl
    | some r =>
      have hno : ¬ (r.userId = u ∧ r.revokedAt = none) := fun hr =>
        hs ⟨r, (hmem r).mpr ⟨Keyed.mem_of_get hrow, hr⟩, Keyed.key_of_get hrow⟩
      rw [Option.map_some, SessionModel.shut, if_neg hno]

theorem alone_revocations {rows : List SessionModel} {t : Time} {f : Unit → M β}
    (hf : Alone cfg d t₀ (f ()) Q (h ++ revocations rows t)) :
    Alone cfg d t₀ ((rows.forM fun m =>
      Prog.perform (.write (.updateSession m { m with revokedAt := some t }))) >>= f) Q h := by
  induction rows generalizing h with
  | nil =>
    rw [revocations, List.map_nil, List.append_nil] at hf
    exact hf
  | cons r rows ih =>
    change Alone cfg d t₀ ((Prog.perform (.write (.updateSession r { r with revokedAt := some t }))
      >>= fun _ => rows.forM _) >>= f) Q h
    rw [bind_assoc]
    apply alone_write
    · intro _ _
      apply ih
      rw [List.append_assoc]
      exact hf
    · intro x hx
      obtain ⟨-, hx⟩ | ⟨-, -, hx⟩ := hx <;> cases hx

theorem alone_purge {sessions : List UserSession} {f : Unit → M β}
    (hf : Alone cfg d t₀ (f ()) Q (h ++ purgeTrail sessions)) :
    Alone cfg d t₀ ((sessions.forM fun s => do
      Prog.suppress (cacheDelete (.session s.id))
      Prog.suppress (cacheDelete (.grace s.id))) >>= f) Q h := by
  induction sessions generalizing h with
  | nil =>
    rw [purgeTrail, List.flatMap_nil, List.append_nil] at hf
    exact hf
  | cons s sessions ih =>
    change Alone cfg d t₀ (((Prog.suppress (cacheDelete (.session s.id)) >>= fun _ =>
      Prog.suppress (cacheDelete (.grace s.id))) >>= fun _ => sessions.forM _) >>= f) Q h
    rw [bind_assoc, bind_assoc]
    apply alone_suppressDelete
    apply alone_suppressDelete
    apply ih
    rw [purgeTrail, List.flatMap_cons] at hf
    simp only [List.append_assoc, List.cons_append, List.nil_append] at hf ⊢
    exact hf

theorem alone_revokeAll {u : String} {f : List UserSession → M β}
    (hf : ∀ t rank rank' t', Alone cfg d t₀
      (f (((SessionQuery.activeOf u t).eval rank (seen d h).sessions).map SessionModel.toEntity)) Q
      (h ++ .clock t :: .readSessions (.activeOf u t)
        ((SessionQuery.activeOf u t).eval rank (seen d h).sessions) ::
        massTrail u ((SessionQuery.unrevokedOf u).eval rank' (seen d h).sessions) t')) :
    Alone cfg d t₀ (getActiveSessionsForUser u >>= fun active =>
      revokeAllSessions u >>= fun _ => f active) Q h := by
  unfold getActiveSessionsForUser revokeAllSessions
  rw [bind_assoc]
  apply alone_now
  intro t _
  rw [bind_assoc]
  apply alone_selectSessions
  intro rank
  rw [pure_bind, bind_assoc]
  apply alone_selectSessions
  intro rank'
  rw [bind_assoc]
  apply alone_now
  intro t' _
  apply alone_revocations
  have happ := hf t rank rank' t'
  simp only [massTrail, List.append_assoc, List.cons_append, List.nil_append] at happ ⊢
  rw [seen_still (by simp [Act.still]), seen_still (by simp [Act.still])]
  exact happ

theorem alone_logoutAll {u : String} {f : Unit → M β}
    (hf : ∀ t rank rank' t', Alone cfg d t₀ (f ()) Q (h ++ logoutAllTrail u t
      ((SessionQuery.activeOf u t).eval rank (seen d h).sessions)
      ((SessionQuery.unrevokedOf u).eval rank' (seen d h).sessions) t')) :
    Alone cfg d t₀ (logoutAll u >>= f) Q h := by
  simp only [logoutAll, bind_assoc]
  apply alone_revokeAll
  intro t rank rank' t'
  apply alone_commit
  apply alone_purge
  have happ := hf t rank rank' t'
  simp only [logoutAllTrail, List.append_assoc, List.cons_append, List.nil_append] at happ ⊢
  exact happ

theorem ledger_revocations (h : List Act) (rows : List SessionModel) (t : Time) :
    ledger (h ++ revocations rows t) = ((ledger h).1, (ledger h).2 ++ shutdown rows t) := by
  induction rows generalizing h with
  | nil => simp [revocations, shutdown]
  | cons r rows ih =>
    rw [revocations, List.map_cons, List.append_cons]
    change ledger (h ++ [Act.wrote (eviction (r, t))] ++ revocations rows t) = _
    rw [ih, ledger_wrote, List.append_assoc]
    rfl

theorem ledger_logoutAllTrail (h : List Act) (u : String) (t : Time)
    (active rows : List SessionModel) (t' : Time) :
    ledger (h ++ logoutAllTrail u t active rows t') =
      ((ledger h).1 ++ ((ledger h).2 ++ shutdown rows t'), []) := by
  have hsplit : h ++ logoutAllTrail u t active rows t' =
      h ++ [.clock t, .readSessions (.activeOf u t) active, .readSessions (.unrevokedOf u) rows,
        .clock t'] ++ revocations rows t' ++ [Act.committed] ++
        purgeTrail (active.map SessionModel.toEntity) := by
    simp [logoutAllTrail, massTrail]
  have hpurge : ∀ a ∈ purgeTrail (active.map SessionModel.toEntity), a.still = true := by
    intro a ha
    obtain ⟨s, -, rfl | rfl⟩ := mem_purgeTrail.mp ha <;> rfl
  rw [hsplit, ledger_still hpurge, ledger_committed, ledger_revocations,
    ledger_still (by simp [Act.still])]

/-- `token` is for the session `row`, as a refresh finds that has first read the clock as `t`. -/
structure Named (cfg : Config) (d : Database) (token : Token) (t : Time) (c : Claims)
    (row : SessionModel) : Prop where
  verified : cfg.jose.verify token = some c
  punctual : wholeSeconds t ≤ c.exp
  type : c.type = .refresh
  jti : c.jti = some row.id
  id : row.id ≠ ""
  sub : c.sub ≠ ""
  found : d.sessions.get row.id = some row

/-- Nothing speaks against the rotation of `row`, as a refresh finds that has then read the clock
as `t'`. -/
structure Renewable (cfg : Config) (d : Database) (token : Token) (t t' : Time) (c : Claims)
    (row : SessionModel) (x : UserModel) : Prop extends Named cfg d token t c row where
  live : row.revokedAt = none
  unexpired : t' ≤ row.expiresAt
  user : d.users.get c.sub = some x
  inService : x.InService

inductive Declined (cfg : Config) (d : Database) (token : Token) : Exc → List Act → Prop where
  | forged : cfg.jose.verify token = none →
      Declined cfg d token (.invalidToken "Invalid or expired refresh token") []
  | late (c : Claims) (t : Time) : cfg.jose.verify token = some c → c.exp < wholeSeconds t →
      Declined cfg d token (.invalidToken "Invalid or expired refresh token") [.clock t]
  | misused (c : Claims) (t : Time) : cfg.jose.verify token = some c → c.type ≠ .refresh →
      Declined cfg d token (.invalidToken "Token is not a refresh token") [.clock t]
  | blank (c : Claims) (t : Time) : cfg.jose.verify token = some c →
      c.jti.getD "" = "" ∨ c.sub = "" →
      Declined cfg d token (.invalidToken "Invalid token payload") [.clock t]
  | unknown (c : Claims) (s : String) (t : Time) : cfg.jose.verify token = some c →
      c.jti = some s → d.sessions.get s = none →
      Declined cfg d token (.invalidToken "Session not found")
        [.clock t, .readSessions (.byId s) []]
  | expired (c : Claims) (row : SessionModel) (t t' : Time) : Named cfg d token t c row →
      row.revokedAt = none → row.expiresAt < t' →
      Declined cfg d token (.invalidToken "Refresh token has expired")
        [.clock t, .readSessions (.byId row.id) [row], .clock t']
  | barred (c : Claims) (row : SessionModel) (t t' : Time) (rows : List UserModel) :
      Named cfg d token t c row → row.revokedAt = none →
      (∀ x, d.users.get c.sub = some x → ¬ x.InService) →
      Declined cfg d token (.invalidToken "User account is inactive or blocked")
        [.clock t, .readSessions (.byId row.id) [row], .clock t', .readUsers (.byId c.sub) rows]

def replay (v : Option Json) : Except Exc TokenPair :=
  match v.filter Json.truthy with
  | some data => TokenPair.fromDict data
  | none => .error (.invalidToken "Concurrent refresh — please retry")

def successor (u : String) (row : SessionModel) (ip : Option String) (s : String) (t : Time) :
    SessionModel :=
  { id := s, userId := u, deviceInfo := row.deviceInfo, ipAddress := ip, createdAt := t,
    expiresAt := row.expiresAt, revokedAt := none, previousSessionId := some row.id }

structure Minted (cfg : Config) (u s : String) (lifetime t₁ t₂ : Time) (a b : Claims) : Prop where
  access : a.type = .access ∧ a.sub = u ∧
    a.exp = wholeSeconds (t₁ + seconds (cfg.accessTokenExpireMinutes * 60))
  refresh : b.type = .refresh ∧ b.sub = u ∧ b.exp = wholeSeconds (t₂ + lifetime)
  names : s ≠ "" → a.Names s ∧ b.Names s

def renewing (c : Claims) (row : SessionModel) (x : UserModel) (t t' t₁ : Time) : List Act :=
  [.clock t, .readSessions (.byId row.id) [row], .clock t', .readUsers (.byId c.sub) [x]] ++
    evictionTrail (row, t₁)

inductive RefreshRun (cfg : Config) (d : Database) (token : Token) (ip : Option String) :
    Except Exc TokenPair → List Act → Prop where
  | declined {y : Exc} {l : List Act} : Declined cfg d token y l →
      RefreshRun cfg d token ip (.error y) l
  | replayed {c : Claims} {row : SessionModel} {t t' t₀ : Time} {v : Option Json} :
      Named cfg d token t c row → row.revokedAt = some t₀ → t' - t₀ ≤ graceWindow →
      RefreshRun cfg d token ip (replay v)
        [.clock t, .readSessions (.byId row.id) [row], .clock t', .cacheGot (.grace row.id) v]
  | reused {c : Claims} {row : SessionModel} {t t' t₀ t₁ t₂ : Time} {rank rank' : String → Nat} :
      Named cfg d token t c row → row.revokedAt = some t₀ → graceWindow < t' - t₀ →
      RefreshRun cfg d token ip (.error tokenReuse)
        ([.clock t, .readSessions (.byId row.id) [row], .clock t'] ++ logoutAllTrail c.sub t₁
          ((SessionQuery.activeOf c.sub t₁).eval rank d.sessions)
          ((SessionQuery.unrevokedOf c.sub).eval rank' d.sessions) t₂)
  | refused {c : Claims} {row : SessionModel} {x : UserModel} {t t' t₁ t₂ t₃ t₄ t₅ : Time}
      {s : String} {a b : Claims} {y : Exc} :
      Renewable cfg d token t t' c row x →
      (Write.insertSession (successor c.sub row ip s t₅)).Refusal d y →
      RefreshRun cfg d token ip (.error y) (renewing c row x t t' t₁ ++
        [.clock t₂, .drew s, .clock t₃, .signed a, .clock t₄, .signed b, .clock t₅,
          .refused (.insertSession (successor c.sub row ip s t₅))])
  | renewed {c : Claims} {row : SessionModel} {x : UserModel} {t t' t₁ t₂ t₃ t₄ t₅ : Time}
      {s : String} {a b : Claims} :
      Renewable cfg d token t t' c row x → ¬ Unfit d row.deviceInfo ip s →
      Minted cfg c.sub s (seconds (remainingSeconds row.expiresAt t₂)) t₃ t₄ a b →
      t₂ ≤ t₄ →
      RefreshRun cfg d token ip
        (.ok { accessToken := cfg.jose.encode a, refreshToken := cfg.jose.encode b })
        (renewing c row x t t' t₁ ++ rotationTrail row.id (successor c.sub row ip s t₅) a b
          t₂ t₃ t₄ t₅ { accessToken := cfg.jose.encode a, refreshToken := cfg.jose.encode b })

theorem alone_signToken {subject : String} {delta : Time} {type : TokenType} {s : String}
    {f : Token → M β}
    (hf : ∀ t c, (∀ t', .clock t' ∈ h → t' ≤ t) → c.type = type → c.sub = subject →
      c.exp = wholeSeconds (t + delta) → (s ≠ "" → c.Names s) →
      Alone cfg d t₀ (f (cfg.jose.encode c)) Q (h ++ [Act.clock t, .signed c])) :
    Alone cfg d t₀ (createToken subject delta type (some s) >>= f) Q h := by
  unfold createToken
  rw [bind_assoc]
  apply alone_now
  intro t ht
  apply alone_encode
  rw [List.append_assoc, List.singleton_append]
  refine hf t _ ht rfl rfl rfl fun hs => ?_
  cases type <;> simp [Claims.Names, hs]

theorem alone_payload {token : Token} {y : Exc} {f : Claims → M β}
    (hforged : cfg.jose.verify token = none → Q (.error y) h)
    (hlate : ∀ c t, cfg.jose.verify token = some c → c.exp < wholeSeconds t →
      Q (.error y) (h ++ [Act.clock t]))
    (hok : ∀ c t, cfg.jose.verify token = some c → wholeSeconds t ≤ c.exp →
      Alone cfg d t₀ (f c) Q (h ++ [Act.clock t])) :
    Alone cfg d t₀ (tryCatch (decodeToken cfg token) (fun _ => throw y) >>= f) Q h := by
  apply (Trace.wp_bind _ _ _ _ _).mpr
  apply (Trace.wp_tryCatch _ _ _ _ _).mpr
  unfold decodeToken
  cases hv : cfg.jose.verify token with
  | none => exact hforged hv
  | some c =>
    apply alone_now
    intro t _
    apply alone_raiseIf
    · intro ht
      exact hlate c t hv ht
    · intro ht
      exact hok c t hv (Int.not_lt.mp ht)

theorem seen_of_still {d : Database} {h : List Act} (hh : ∀ a ∈ h, a.still = true) :
    seen d h = d := by
  simpa using seen_still (d := d) (h := []) hh

theorem admits_successor {d : Database} {u s : String} {x : UserModel} {row : SessionModel}
    {ip : Option String} {t : Time} (hx : d.users.get u = some x)
    (hrow : (d.sessions.get row.id).isNone = false) :
    d.admits (.insertSession (successor u row ip s t)) = true ↔ d.sessions.get s = none := by
  simp [Database.admits, successor, hx, ← Option.not_isNone, hrow]

theorem admits_ended {d : Database} {u s : String} {x : UserModel} {row : SessionModel}
    {ip : Option String} {t t' : Time} (hx : d.users.get u = some x)
    (hrow : d.sessions.get row.id = some row) :
    (d.apply (eviction (row, t'))).admits (.insertSession (successor u row ip s t)) =
      d.admits (.insertSession (successor u row ip s t)) := by
  have hsame : ∀ s, ((d.apply (eviction (row, t'))).sessions.get s).isNone =
      (d.sessions.get s).isNone := fun s => isNone_evictions [(row, t')] s
  have hfound : (d.sessions.get row.id).isNone = false := by rw [hrow]; rfl
  rw [Bool.eq_iff_iff, admits_successor (d := d.apply (eviction (row, t'))) hx
    ((hsame row.id).trans hfound), admits_successor hx hfound, ← Option.isNone_iff_eq_none,
    ← Option.isNone_iff_eq_none, hsame]

theorem fits_successor {u s : String} {row : SessionModel} {ip : Option String} {t : Time} :
    (Write.insertSession (successor u row ip s t)).fits = true ↔
      fitsOpt 255 row.deviceInfo = true ∧ fitsOpt 45 ip = true := by
  simp [Write.fits, successor]

/-- Step 4, on a row that can be rotated. -/
theorem alone_rotate {token : Token} {ip : Option String} {c : Claims} {row : SessionModel}
    {x : UserModel} {t t' : Time} (hx : Renewable cfg d token t t' c row x) :
    Alone cfg d t₀ (rotate cfg row.id c.sub row.toEntity ip) (RefreshRun cfg d token ip)
      [.clock t, .readSessions (.byId row.id) [row], .clock t', .readUsers (.byId c.sub) [x]] := by
  generalize hh : [Act.clock t, .readSessions (.byId row.id) [row], .clock t',
    .readUsers (.byId c.sub) [x]] = h
  have hstill : ∀ a ∈ h, a.still = true := by
    rw [← hh]
    simp [Act.still]
  unfold rotate UserSession.revoke
  simp only [show row.toEntity.revokedAt = none from hx.live]
  rw [bind_assoc]
  apply alone_now
  intro t₁ _
  rw [pure_bind]
  apply alone_updateSession (a := row) rfl
  · rw [seen_still (by simp [Act.still]), seen_of_still hstill]
    exact hx.found
  · intro he
    have hrevoked := congrArg SessionModel.revokedAt he
    rw [hx.live] at hrevoked
    cases hrevoked
  apply alone_suppressDelete
  apply alone_now
  intro t₂ _
  apply alone_uuid4
  intro s _
  unfold createAccessToken createRefreshToken
  apply alone_signToken
  intro t₃ a _ hat has hae han
  apply alone_signToken
  intro t₄ b ht₄ hbt hbs hbe hbn
  unfold UserSession.create
  rw [bind_assoc]
  apply alone_now
  intro t₅ _
  rw [pure_bind]
  -- The record up to the INSERT, and what the call sees by then.
  have hwrite : Act.wrote (.updateSession row
      (UserSession.toModel { row.toEntity with revokedAt := some t₁ })) =
        .wrote (eviction (row, t₁)) := rfl
  have hrecord : h ++ (.clock t₁ :: .readSessions (.byId row.id) [row] ::
      .wrote (eviction (row, t₁)) :: .cacheDeleted (.session row.id) :: .clock t₂ :: .drew s ::
      .clock t₃ :: .signed a :: .clock t₄ :: .signed b :: [Act.clock t₅]) =
        renewing c row x t t' t₁ ++ [.clock t₂, .drew s, .clock t₃, .signed a, .clock t₄,
          .signed b, .clock t₅] := by
    rw [← hh]
    simp only [renewing, evictionTrail, List.cons_append, List.nil_append]
  simp only [List.append_assoc, List.cons_append, List.nil_append]
  rw [hwrite, hrecord]
  have hsees : seen d (renewing c row x t t' t₁ ++ [.clock t₂, .drew s, .clock t₃, .signed a,
      .clock t₄, .signed b, .clock t₅]) = d.apply (eviction (row, t₁)) := by
    rw [seen_still (by simp [Act.still]), renewing, hh, seen_evictionTrail, seen_of_still hstill]
  have hfound : (d.sessions.get row.id).isNone = false := by
    rw [hx.found]
    rfl
  unfold createSession
  change Alone cfg d t₀ (Prog.perform (.write (.insertSession (successor c.sub row ip s t₅))) >>= _)
    _ _
  apply alone_write
  · intro ha hf
    rw [hsees, admits_ended hx.user hx.found, admits_successor hx.user hfound] at ha
    rw [fits_successor] at hf
    apply alone_commit
    apply alone_suppressSet
    apply alone_suppressSet
    have hrun := @RefreshRun.renewed cfg d token ip c row x t t' t₁ t₂ t₃ t₄ t₅ s a b hx
      (by simp [Unfit, hf.1, hf.2, ha])
      ⟨⟨hat, has, hae⟩, ⟨hbt, hbs, hbe⟩, fun hs => ⟨han hs, hbn hs⟩⟩ (ht₄ t₂ (by simp))
    simp only [rotationTrail, List.append_assoc, List.cons_append, List.nil_append] at hrun ⊢
    exact hrun
  · intro z hz
    rw [hsees] at hz
    unfold Write.Refusal at hz
    rw [admits_ended hx.user hx.found] at hz
    have hrun := @RefreshRun.refused cfg d token ip c row x t t' t₁ t₂ t₃ t₄ t₅ s a b z hx hz
    simp only [List.append_assoc, List.cons_append, List.nil_append] at hrun ⊢
    exact hrun

/-- Step 3, on a row that is not revoked. -/
theorem alone_checkAndRotate {token : Token} {ip : Option String} {c : Claims}
    {row : SessionModel} {t : Time} (hn : Named cfg d token t c row) (hlive : row.revokedAt = none) :
    Alone cfg d t₀ (checkAndRotate cfg row.id c.sub row.toEntity ip) (RefreshRun cfg d token ip)
      [.clock t, .readSessions (.byId row.id) [row]] := by
  unfold checkAndRotate UserSession.isExpired
  rw [bind_assoc]
  apply alone_now
  intro t' _
  rw [pure_bind]
  apply alone_raiseIf
  · intro hexp
    exact .declined (.expired c row t t' hn hlive (of_decide_eq_true hexp))
  intro hexp
  have hle : t' ≤ row.expiresAt := by
    simpa [SessionModel.toEntity] using hexp
  have hsel : ∀ x : UserModel, (UserQuery.byId c.sub).selects x = true ↔
      x.id = c.sub ∧ x.deletedAt = none := by simp [UserQuery.selects]
  have hseen : seen d ([.clock t, .readSessions (.byId row.id) [row]] ++ [Act.clock t']) = d :=
    seen_of_still (by simp [Act.still])
  unfold getById
  apply alone_findUser (by simp)
  · intro hnone
    refine .declined (.barred c row t t' [] hn hlive fun x hx hin => ?_)
    rw [hseen] at hnone
    have hfalse := hnone x (Keyed.mem_of_get hx)
    rw [(hsel x).mpr ⟨Keyed.key_of_get hx, hin.1⟩] at hfalse
    cases hfalse
  · intro x hx hx' _
    obtain ⟨hid, hd⟩ := (hsel x).mp hx'
    rw [hseen] at hx
    have hget : d.users.get c.sub = some x := hid ▸ Keyed.get_of_mem hx
    have hblocked : x.toEntity.status = .banned ∨ x.toEntity.status = .suspended ↔
        x.status ∈ lockoutStatuses := by
      simp [lockoutStatuses, UserModel.toEntity, or_comm]
    apply alone_raiseIf
    · intro hst
      refine .declined (.barred c row t t' [x] hn hlive fun x' hx' hin => ?_)
      rw [hget] at hx'
      cases hx'
      exact hin.2 (hblocked.mp hst)
    · intro hst
      exact alone_rotate ⟨hn, hlive, hle, hget, hd, fun hm => hst (hblocked.mpr hm)⟩
  · intro rows x hx y hy hne hx' hy'
    have hsame := Keyed.eq_of_key _ hx hy
      (((hsel x).mp hx').1.trans ((hsel y).mp hy').1.symm)
    exact absurd hsame hne

theorem alone_replayOrBreach {token : Token} {ip : Option String} {c : Claims}
    {row : SessionModel} {t t₁ : Time} (hn : Named cfg d token t c row)
    (hrev : row.revokedAt = some t₁) :
    Alone cfg d t₀ (replayOrBreach row.id c.sub t₁) (RefreshRun cfg d token ip)
      [.clock t, .readSessions (.byId row.id) [row]] := by
  unfold replayOrBreach
  apply alone_now
  intro t' _
  split
  · rename_i hwindow
    apply (Trace.wp_bind _ _ _ _ _).mpr
    apply (Trace.wp_tryCatch _ _ _ _ _).mpr
    intro r hr
    obtain ⟨v, rfl⟩ := hr
    refine ⟨trivial, ?_⟩
    have hrun : RefreshRun cfg d token ip (replay v) _ := .replayed hn hrev hwindow
    unfold replay at hrun
    simp only [Trace.wp_ret, Trace.after_ok]
    cases hv : Option.filter Json.truthy v with
    | none =>
      rw [hv] at hrun
      exact hrun
    | some data =>
      rw [hv] at hrun
      exact hrun
  · rename_i hwindow
    apply alone_logoutAll
    intro t₂ rank rank' t₃
    rw [seen_of_still (by simp [Act.still])]
    exact .reused hn hrev (Int.not_le.mp hwindow)

theorem alone_refreshToken {token : Token} {ip : Option String} :
    Alone cfg d t₀ (refreshToken cfg token ip) (RefreshRun cfg d token ip) [] := by
  unfold refreshToken
  apply alone_payload
  · exact fun hv => .declined (.forged hv)
  · exact fun c t hv hlate => .declined (.late c t hv hlate)
  intro c t hv ht
  apply alone_raiseIf
  · exact fun hty => .declined (.misused c t hv hty)
  intro hty
  apply alone_raiseIf
  · exact fun hids => .declined (.blank c t hv hids)
  intro hids
  obtain ⟨hj, hsub⟩ := not_or.mp hids
  obtain ⟨s, hs⟩ : ∃ s, c.jti = some s := by
    rw [← Option.isSome_iff_exists]
    cases hc : c.jti with
    | none => simp [hc] at hj
    | some s => rfl
  rw [hs, Option.getD_some] at hj
  simp only [hs, Option.getD_some]
  apply alone_getSessionById
  · exact fun hnone => .declined (.unknown c s t hv hs hnone)
  intro row hrow
  have hrow' : d.sessions.get s = some row := hrow
  obtain rfl : row.id = s := Keyed.key_of_get hrow'
  have hn : Named cfg d token t c row := ⟨hv, ht, by simpa using hty, hs, hj, hsub, hrow'⟩
  cases hrev : row.revokedAt with
  | some t₁ =>
    simp only [show row.toEntity.revokedAt = some t₁ from hrev]
    exact alone_replayOrBreach hn hrev
  | none =>
    simp only [show row.toEntity.revokedAt = none from hrev]
    exact alone_checkAndRotate hn hrev

theorem Named.unique {token : Token} {t t' : Time} {c c' : Claims} {row row' : SessionModel}
    (hn : Named cfg d token t c row) (hn' : Named cfg d token t' c' row') :
      c' = c ∧ row' = row := by
  obtain rfl : c' = c := Option.some.inj (hn'.verified.symm.trans hn.verified)
  have hid : row'.id = row.id := Option.some.inj (hn'.jti.symm.trans hn.jti)
  have hfound := hn'.found
  rw [hid, hn.found] at hfound
  exact ⟨rfl, (Option.some.inj hfound).symm⟩

def readings (l : List Act) : List Time :=
  l.filterMap fun a =>
    match a with
    | .clock t => some t
    | _ => none

theorem readings_renewing (c : Claims) (row : SessionModel) (x : UserModel) (t t' t₁ : Time)
    (l : List Act) : readings (renewing c row x t t' t₁ ++ l) = t :: t' :: t₁ :: readings l := rfl

/-- The token is for the session `row` of user `u`, which can be rotated by the readings of the
clock in `l`. -/
def CanRotate (cfg : Config) (d : Database) (token : Token) (ip : Option String) (l : List Act)
    (u : String) (row : SessionModel) : Prop :=
  ∃ c x t t' rest, readings l = t :: t' :: rest ∧ Renewable cfg d token t t' c row x ∧ c.sub = u ∧
    ∀ s, .drew s ∈ l → ¬ Unfit d row.deviceInfo ip s

/-- The session of the token, which is for user `u`, was revoked before the grace window, by the
readings of the clock in `l`. -/
def IsReuse (cfg : Config) (d : Database) (token : Token) (l : List Act) (u : String) : Prop :=
  ∃ c row t t' t₀ rest, readings l = t :: t' :: rest ∧ Named cfg d token t c row ∧ c.sub = u ∧
    row.revokedAt = some t₀ ∧ graceWindow < t' - t₀

variable {γ χ : Type} {C : MayCache Key Json γ χ} {i : Nat} {w w' : World γ}

/-- A refresh has rotated `row` to the session `s`, and has handed out `p`. -/
structure Rotates (cfg : Config) (C : MayCache Key Json γ χ) (u : String) (row : SessionModel)
    (ip : Option String) (s : String) (w w' : World γ) (p : TokenPair) : Prop where
  found : w.db.sessions.get row.id = some row
  ended : ∃ t, w'.db.sessions.get row.id = some { row with revokedAt := some t }
  opened : w.db.sessions.get s = none ∧ ∃ t, w'.db.sessions.get s = some (successor u row ip s t)
  others : ∀ s', s' ≠ row.id → s' ≠ s → w'.db.sessions.get s' = w.db.sessions.get s'
  users : w'.db.users = w.db.users
  tokens : ∃ t t₁ t₂ a b,
    p = { accessToken := cfg.jose.encode a, refreshToken := cfg.jose.encode b } ∧
      Minted cfg u s (seconds (remainingSeconds row.expiresAt t)) t₁ t₂ a b
  purged : C.Exact → ∀ v, ¬ C.holds w'.cache (.session row.id) v

theorem Rotates.unique {u u' s s' : String} {row row' : SessionModel} {ip ip' : Option String}
    {p p' : TokenPair} (h : Rotates cfg C u row ip s w w' p)
    (h' : Rotates cfg C u' row' ip' s' w w' p') : u' = u ∧ row' = row := by
  obtain ⟨-, t, hnew⟩ := h.opened
  obtain ⟨hnone', t', hnew'⟩ := h'.opened
  have hs : s' = s := by
    by_contra hne
    have hrow : s' ≠ row.id := by
      rintro rfl
      rw [h.found] at hnone'
      cases hnone'
    rw [h.others s' hrow hne, hnone'] at hnew'
    cases hnew'
  rw [hs, hnew] at hnew'
  have hsame := Option.some.inj hnew'
  have hu : u = u' := congrArg SessionModel.userId hsame
  have hid : row.id = row'.id := Option.some.inj (congrArg SessionModel.previousSessionId hsame)
  have hfound := h.found
  rw [hid, h'.found] at hfound
  exact ⟨hu.symm, Option.some.inj hfound⟩

/-- All unrevoked sessions of `u` have been revoked at one time, and those that were active have
left the cache. -/
structure ShutsDown (C : MayCache Key Json γ χ) (u : String) (w w' : World γ) : Prop where
  revoked : ∃ t, ∀ s, w'.db.sessions.get s = (w.db.sessions.get s).map (SessionModel.shut u t)
  users : w'.db.users = w.db.users
  purged : C.Exact → ∃ now, w.clock ≤ now ∧ now ≤ w'.clock ∧ ∀ r ∈ w.db.sessions.rows,
    r.ActiveAt u now → ∀ v, ¬ C.holds w'.cache (.session r.id) v ∧
      ¬ C.holds w'.cache (.grace r.id) v

theorem Vacant.refresh (hw : Vacant w i) {token : Token} {ip : Option String}
    {cs : List (Choice χ)} {r : Except Exc Out}
    (hr : (semantics cfg C).run i cs (Call.prog cfg (.refreshToken token ip)) w = some (r, w')) :
    ∃ r' l, r = r'.map Out.pair ∧ Played C i w w' (l ++ [Act.closed]) ∧
      RefreshRun cfg w.db token ip r' l := by
  have hp : ∀ t₀, Alone cfg w.db t₀ (Call.prog cfg (.refreshToken token ip))
      (fun r h => ∃ r' h', r = r'.map Out.pair ∧ h = h' ++ [Act.closed] ∧
        RefreshRun cfg w.db token ip r' h') [] := fun t₀ => alone_prog rfl alone_refreshToken
  obtain ⟨l, hl, r', l', hr', rfl, hrun⟩ := hw.run (hp w.clock) hr
  exact ⟨r', l', hr', hl, hrun⟩

theorem Declined.still {token : Token} {y : Exc} {l : List Act} (hd : Declined cfg d token y l) :
    ∀ a ∈ l, a.still = true := by
  cases hd <;> simp [Act.still]

theorem ledger_renewing (c : Claims) (row : SessionModel) (x : UserModel) (t t' t₁ : Time) :
    ledger (renewing c row x t t' t₁) = ([], [eviction (row, t₁)]) := by
  rw [renewing, ledger_evictionTrail, ← List.nil_append [Act.clock t, _, _, _],
    ledger_still (by simp [Act.still])]
  rfl

theorem ledger_renewed (c : Claims) (row : SessionModel) (x : UserModel)
    (t t' t₁ t₂ t₃ t₄ t₅ : Time) (old : String) (y : SessionModel) (a b : Claims) (p : TokenPair) :
    (ledger (renewing c row x t t' t₁ ++ rotationTrail old y a b t₂ t₃ t₄ t₅ p)).1 =
      [eviction (row, t₁), .insertSession y] := by
  have hsplit : renewing c row x t t' t₁ ++ rotationTrail old y a b t₂ t₃ t₄ t₅ p =
      renewing c row x t t' t₁ ++ [.clock t₂, .drew y.id, .clock t₃, .signed a, .clock t₄,
        .signed b, .clock t₅] ++ [Act.wrote (.insertSession y)] ++ [Act.committed] ++
        [.cacheSet (.session y.id) y.projection.toDict
          (some (remainingSeconds y.expiresAt t₂)), .cacheSet (.grace old) p.toDict (some 30)] := by
    simp [rotationTrail]
  rw [hsplit, ledger_still (by simp [Act.still]), ledger_committed, ledger_wrote,
    ledger_still (by simp [Act.still]), ledger_renewing]
  rfl

theorem Played.rotates {token : Token} {ip : Option String} {c : Claims} {row : SessionModel}
    {x : UserModel} {t t' t₁ t₂ t₃ t₄ t₅ : Time} {s : String} {a b : Claims} {p : TokenPair}
    (hl : Played C i w w' (renewing c row x t t' t₁ ++
      rotationTrail row.id (successor c.sub row ip s t₅) a b t₂ t₃ t₄ t₅ p ++ [Act.closed]))
    (hx : Renewable cfg w.db token t t' c row x) (hfit : ¬ Unfit w.db row.deviceInfo ip s)
    (hp : p = { accessToken := cfg.jose.encode a, refreshToken := cfg.jose.encode b })
    (hm : Minted cfg c.sub s (seconds (remainingSeconds row.expiresAt t₂)) t₃ t₄ a b) :
    Rotates cfg C c.sub row ip s w w' p := by
  have hs : w.db.sessions.get s = none := by
    simp only [Unfit, not_or, not_not] at hfit
    exact hfit.2.2
  have hne : row.id ≠ s := by
    intro he
    have hfound := hx.found
    rw [he, hs] at hfound
    cases hfound
  have hdb : w'.db = w.db.applyAll
      ([(row, t₁)].map eviction ++ [.insertSession (successor c.sub row ip s t₅)]) := by
    rw [hl.db, ledger_closed, ledger_renewed]
    rfl
  have hget : ∀ s', w'.db.sessions.get s' = if s' = s then some (successor c.sub row ip s t₅)
      else (w.db.applyAll ([(row, t₁)].map eviction)).sessions.get s' := by
    intro s'
    rw [hdb]
    exact get_login (r := successor c.sub row ip s t₅) _ hs s'
  refine ⟨hx.found, ⟨t₁, ?_⟩, ⟨hs, t₅, ?_⟩, fun s' hr hn => ?_, ?_, ⟨t₂, t₃, t₄, a, b, hp, hm⟩,
    fun hC => hl.gone hC ?_ ?_⟩
  · rw [hget, if_neg hne]
    have hall : ∀ y ∈ [(row, t₁)], w.db.sessions.get y.1.id = some y.1 := by
      simpa using hx.found
    have hnd : ([(row, t₁)].map fun y => y.1.id).Nodup := List.nodup_singleton _
    exact get_evictions hnd hall (List.mem_singleton_self (row, t₁))
  · rw [hget, if_pos rfl]
  · rw [hget, if_neg hn, get_evictions_of_ne]
    intro y hy he
    rw [List.mem_singleton.mp hy] at he
    exact hr he.symm
  · rw [hdb]
    exact users_login _ _ _
  · simp [renewing, evictionTrail]
  · intro v ttl hm
    have hsame : row.id = (successor c.sub row ip s t₅).id := by
      simp [renewing, evictionTrail, rotationTrail] at hm
      exact hm.1
    exact hne hsame

theorem Played.shutsDown {u : String} {t t' t₁ t₂ : Time} {row : SessionModel}
    {rank rank' : String → Nat}
    (hl : Played C i w w' ([.clock t, .readSessions (.byId row.id) [row], .clock t'] ++
      logoutAllTrail u t₁ ((SessionQuery.activeOf u t₁).eval rank w.db.sessions)
        ((SessionQuery.unrevokedOf u).eval rank' w.db.sessions) t₂ ++ [Act.closed])) :
    ShutsDown C u w w' := by
  have hdb : w'.db = w.db.applyAll
      (shutdown ((SessionQuery.unrevokedOf u).eval rank' w.db.sessions) t₂) := by
    rw [hl.db, ledger_closed, ledger_logoutAllTrail,
      ← List.nil_append [Act.clock t, _, _], ledger_still (by simp [Act.still])]
    rfl
  refine ⟨⟨t₂, fun s => ?_⟩, ?_, fun hC => ⟨t₁, ?_, ?_, fun r hr hact => ?_⟩⟩
  · rw [hdb, get_shutdown]
  · rw [hdb]
    exact users_evictions _ _
  · exact (hl.clock t₁ (by simp [logoutAllTrail])).1
  · exact (hl.clock t₁ (by simp [logoutAllTrail])).2
  · have hrow : r ∈ (SessionQuery.activeOf u t₁).eval rank w.db.sessions :=
      mem_activeOf.mpr ⟨hr, hact⟩
    have hset : ∀ key v ttl, Act.cacheSet key v ttl ∉
        [.clock t, .readSessions (.byId row.id) [row], .clock t'] ++
          logoutAllTrail u t₁ ((SessionQuery.activeOf u t₁).eval rank w.db.sessions)
            ((SessionQuery.unrevokedOf u).eval rank' w.db.sessions) t₂ ++ [Act.closed] := by
      simp [logoutAllTrail, massTrail, revocations, mem_purgeTrail]
    have hdel : ∀ a ∈ purgeTrail (((SessionQuery.activeOf u t₁).eval rank w.db.sessions).map
        SessionModel.toEntity), a ∈ [.clock t, .readSessions (.byId row.id) [row], .clock t'] ++
          logoutAllTrail u t₁ ((SessionQuery.activeOf u t₁).eval rank w.db.sessions)
            ((SessionQuery.unrevokedOf u).eval rank' w.db.sessions) t₂ ++ [Act.closed] := by
      intro a ha
      simp [logoutAllTrail, ha]
    have hentity := List.mem_map_of_mem (f := SessionModel.toEntity) hrow
    intro v
    exact ⟨hl.gone hC (hdel _ (mem_purgeTrail.mpr ⟨_, hentity, .inl rfl⟩)) (hset _) v,
      hl.gone hC (hdel _ (mem_purgeTrail.mpr ⟨_, hentity, .inr rfl⟩)) (hset _) v⟩

theorem Played.unchanged {l : List Act} (hl : Played C i w w' (l ++ [Act.closed]))
    (hn : .committed ∉ l) : w'.db = w.db := by
  rw [hl.db, ledger_uncommitted (by simp [hn])]
  rfl

theorem map_pair_ne_tokenReuse {r : Except Exc TokenPair} (h : r ≠ .error tokenReuse) :
    r.map Out.pair ≠ .error tokenReuse := by
  cases r with
  | ok p => exact fun he => by cases he
  | error y => exact fun he => h (congrArg Except.error (Except.error.inj he))

theorem replay_ne (v : Option Json) : replay v ≠ .error tokenReuse := by
  have hitem : ∀ (data : Json) (name : String) (x : Exc), data.item name = .error x →
      x = .keyError ∨ x = .typeError := by
    intro data name x hx
    unfold Json.item at hx
    split at hx
    · split at hx
      · cases hx
      · cases hx
        exact .inl rfl
    · cases hx
      exact .inr rfl
  unfold replay
  split
  · rename_i data _
    unfold TokenPair.fromDict
    cases ha : data.item "access_token" with
    | error x => 
      intro h
      obtain rfl | rfl := hitem _ _ _ ha <;> cases h
    | ok a =>
      cases hb : data.item "refresh_token" with
      | error x =>
        intro h
        obtain rfl | rfl := hitem _ _ _ hb <;> cases h
      | ok b => exact fun h => by cases h
  · simp [tokenReuse, Exc.invalidToken]

/-- Nothing can be rotated or is a reuse where the refresh has been turned away. -/
theorem Declined.not_canRotate {token : Token} {ip : Option String} {y : Exc} {l : List Act}
    (hd : Declined cfg d token y l) (u : String) (row : SessionModel) :
    ¬ CanRotate cfg d token ip (l ++ [Act.closed]) u row := by
  rintro ⟨c, x, t, t', rest, hl, hx, -, -⟩
  cases hd with
  | forged hv =>
    rw [hx.verified] at hv
    cases hv
  | late c' t₁ hv hlate => simp [readings] at hl
  | misused c' t₁ hv hty => simp [readings] at hl
  | blank c' t₁ hv hids => simp [readings] at hl
  | unknown c' s t₁ hv hj hnone => simp [readings] at hl
  | expired c' row' t₁ t₂ hn hlive hexp =>
    obtain ⟨-, rfl⟩ := hn.unique hx.toNamed
    simp only [readings, List.cons_append, List.nil_append, List.filterMap_cons,
      List.cons.injEq] at hl
    rw [← hl.2.1] at hx
    exact absurd hx.unexpired (Int.not_le.mpr hexp)
  | barred c' row' t₁ t₂ rows hn hlive hno =>
    obtain ⟨rfl, rfl⟩ := hn.unique hx.toNamed
    exact hno x hx.user hx.inService

theorem Declined.not_isReuse {token : Token} {y : Exc} {l : List Act}
    (hd : Declined cfg d token y l) (u : String) :
    ¬ IsReuse cfg d token (l ++ [Act.closed]) u := by
  rintro ⟨c, row, t, t', t₀, rest, hl, hn, -, hrev, -⟩
  cases hd with
  | forged hv =>
    rw [hn.verified] at hv
    cases hv
  | late c' t₁ hv hlate => simp [readings] at hl
  | misused c' t₁ hv hty => simp [readings] at hl
  | blank c' t₁ hv hids => simp [readings] at hl
  | unknown c' s t₁ hv hj hnone => simp [readings] at hl
  | expired c' row' t₁ t₂ hn' hlive hexp =>
    obtain ⟨-, rfl⟩ := hn'.unique hn
    rw [hlive] at hrev
    cases hrev
  | barred c' row' t₁ t₂ rows hn' hlive hno =>
    obtain ⟨-, rfl⟩ := hn'.unique hn
    rw [hlive] at hrev
    cases hrev

theorem Declined.ne_tokenReuse {token : Token} {y : Exc} {l : List Act}
    (hd : Declined cfg d token y l) : y ≠ tokenReuse := by
  cases hd <;> simp [tokenReuse, Exc.invalidToken]

theorem Named.canRotate {token : Token} {ip : Option String} {t : Time} {c : Claims}
    {row row' : SessionModel} {l : List Act} {u : String} (hn : Named cfg d token t c row)
    (hr : CanRotate cfg d token ip l u row') : c.sub = u ∧ row' = row ∧ row.revokedAt = none := by
  obtain ⟨c', x, t₁, t₂, rest, -, hx, hu, -⟩ := hr
  obtain ⟨rfl, rfl⟩ := hn.unique hx.toNamed
  exact ⟨hu, rfl, hx.live⟩

theorem Named.isReuse {token : Token} {t t' : Time} {c : Claims} {row : SessionModel}
    {l rest : List Act} {u : String} (hn : Named cfg d token t c row)
    (hl : l = .clock t :: .readSessions (.byId row.id) [row] :: .clock t' :: rest)
    (hr : IsReuse cfg d token l u) :
    c.sub = u ∧ ∃ t₀, row.revokedAt = some t₀ ∧ graceWindow < t' - t₀ := by
  obtain ⟨c', row', t₁, t₂, t₀, rest', hreadings, hn', hu, hrev, hlong⟩ := hr
  obtain ⟨rfl, rfl⟩ := hn.unique hn'
  rw [hl] at hreadings
  simp only [readings, List.filterMap_cons, List.cons.injEq] at hreadings
  exact ⟨hu, t₀, hrev, hreadings.2.1 ▸ hlong⟩

theorem unfit_of_refused {u s : String} {x : UserModel} {row : SessionModel} {ip : Option String}
    {t : Time} {y : Exc} (hx : d.users.get u = some x) (hrow : d.sessions.get row.id = some row)
    (h : (Write.insertSession (successor u row ip s t)).Refusal d y) :
    Unfit d row.deviceInfo ip s := by
  have hfound : (d.sessions.get row.id).isNone = false := by
    rw [hrow]
    rfl
  obtain ⟨-, ha⟩ | ⟨-, -, hf⟩ := h
  · right
    right
    intro hnone
    rw [(admits_successor hx hfound).mpr hnone] at ha
    cases ha
  · by_contra hnot
    simp only [Unfit, not_or, Bool.not_eq_false] at hnot
    rw [fits_successor.mpr ⟨hnot.1, hnot.2.1⟩] at hf
    cases hf

/-- A refresh that runs alone rotates just the session that its token names, if that can be
rotated; it signs the user out everywhere if the token was used before the grace window; and
otherwise it changes nothing. -/
theorem refresh_exact (hw : Vacant w i) {token : Token} {ip : Option String}
    {cs : List (Choice χ)} {r : Except Exc Out}
    (hr : (semantics cfg C).run i cs (Call.prog cfg (.refreshToken token ip)) w = some (r, w')) :
    ∃ l, w'.hist i = w.hist i ++ l ∧
      (∀ u row, (∃ p s, r = .ok (.pair p) ∧ Rotates cfg C u row ip s w w' p) ↔
        CanRotate cfg w.db token ip l u row) ∧
      (∀ u, IsReuse cfg w.db token l u → r = .error tokenReuse ∧ ShutsDown C u w w') ∧
      ((∀ u row, ¬ CanRotate cfg w.db token ip l u row) →
        (∀ u, ¬ IsReuse cfg w.db token l u) → w'.db = w.db ∧ r ≠ .error tokenReuse) := by
  obtain ⟨r', l, rfl, hl, hrun⟩ := hw.refresh hr
  refine ⟨_, hl.hist, ?_⟩
  -- Where the tables are as they were, nothing has been rotated.
  have hsame : w'.db = w.db → ∀ u row s p, ¬ Rotates cfg C u row ip s w w' p := by
    intro hdb u row s p hrot
    obtain ⟨hnone, t, hnew⟩ := hrot.opened
    rw [hdb, hnone] at hnew
    cases hnew
  cases hrun with
  | declined hd =>
    have hdb : w'.db = w.db := by
      rw [hl.db, ledger_closed, ← List.nil_append l, ledger_still hd.still]
      rfl
    refine ⟨fun u row => iff_of_false ?_ (hd.not_canRotate u row), fun u hu => ?_, fun _ _ => ⟨hdb, ?_⟩⟩
    · rintro ⟨p, s, hp, -⟩
      cases hp
    · exact absurd hu (hd.not_isReuse u)
    · intro he
      exact hd.ne_tokenReuse (Except.error.inj he)
  | replayed hn hrev hwin =>
    have hdb := hl.unchanged (by simp)
    refine ⟨fun u row => iff_of_false ?_ ?_, fun u hu => ?_, fun _ _ => ⟨hdb, ?_⟩⟩
    · rintro ⟨p, s, -, hrot⟩
      exact hsame hdb u row s p hrot
    · intro hcan
      obtain ⟨-, -, hlive⟩ := hn.canRotate hcan
      rw [hrev] at hlive
      cases hlive
    · obtain ⟨-, t₀, hrev', hlong⟩ := hn.isReuse rfl hu
      rw [hrev] at hrev'
      cases hrev'
      exact absurd hlong (Int.not_lt.mpr hwin)
    · exact (map_pair_ne_tokenReuse (replay_ne _))
  | @reused c row t t' t₀ t₁ t₂ rank rank' hn hrev hlong =>
    refine ⟨fun u row' => iff_of_false ?_ ?_, fun u hu => ?_, fun _ hno => absurd ?_ (hno c.sub)⟩
    · rintro ⟨p, s, hp, -⟩
      cases hp
    · intro hcan
      obtain ⟨-, -, hlive⟩ := hn.canRotate hcan
      rw [hrev] at hlive
      cases hlive
    · obtain ⟨rfl, -⟩ := hn.isReuse rfl hu
      exact ⟨rfl, hl.shutsDown⟩
    · exact ⟨c, row, t, t', t₀, _, rfl, hn, rfl, hrev, hlong⟩
  | @refused c row x t t' t₁ t₂ t₃ t₄ t₅ s a b y hx hy =>
    have hdb := hl.unchanged (by simp [renewing, evictionTrail])
    refine ⟨fun u row' => iff_of_false ?_ ?_, fun u hu => ?_, fun _ _ => ⟨hdb, ?_⟩⟩
    · rintro ⟨p, s, hp, -⟩
      cases hp
    · intro hcan
      obtain ⟨rfl, rfl, -⟩ := hx.toNamed.canRotate hcan
      obtain ⟨-, -, -, -, -, -, -, -, hfit⟩ := hcan
      exact hfit s (by simp) (unfit_of_refused hx.user hx.found hy)
    · obtain ⟨-, t₀, hrev, -⟩ := hx.toNamed.isReuse rfl hu
      rw [hx.live] at hrev
      cases hrev
    · obtain ⟨rfl, -⟩ | ⟨rfl, -, -⟩ := hy <;> simp [Except.map, tokenReuse, Exc.invalidToken]
  | @renewed c row x t t' t₁ t₂ t₃ t₄ t₅ s a b hx hfit hm ht =>
    have hrot := hl.rotates hx hfit rfl hm
    have hcan : CanRotate cfg w.db token ip (renewing c row x t t' t₁ ++ rotationTrail row.id
        (successor c.sub row ip s t₅) a b t₂ t₃ t₄ t₅
        { accessToken := cfg.jose.encode a, refreshToken := cfg.jose.encode b } ++ [Act.closed])
        c.sub row := by
      refine ⟨c, x, t, t', _, by rw [List.append_assoc, readings_renewing], hx, rfl,
        fun s' hs' => ?_⟩
      have hsame : s' = (successor c.sub row ip s t₅).id := by
        simpa [renewing, evictionTrail, rotationTrail] using hs'
      exact hsame ▸ hfit
    refine ⟨fun u row' => ⟨?_, ?_⟩, fun u hu => ?_, fun hno => absurd hcan (hno _ _)⟩
    · rintro ⟨p, s', hp, hrot'⟩
      obtain ⟨rfl, rfl⟩ := hrot.unique hrot'
      exact hcan
    · intro hcan'
      obtain ⟨rfl, rfl, -⟩ := hx.toNamed.canRotate hcan'
      exact ⟨_, s, rfl, hrot⟩
    · obtain ⟨-, t₀, hrev, -⟩ := hx.toNamed.isReuse rfl hu
      rw [hx.live] at hrev
      cases hrev

def crowdedRefresh : Option (Except Exc Out × World (TimedStore Key Json)) :=
  (semantics sampleConfig TimedStore.reliable).run 0 (List.replicate 30 (moment 2 "s1"))
    (Call.prog sampleConfig (.refreshToken (refreshTokenOf "o1") none)) (crowded alice)

theorem refresh_exact_crowded : ∃ r w', crowdedRefresh = some (r, w') ∧ r.isOk = true ∧
    ∃ l, w'.hist 0 = (crowded alice).hist 0 ++ l ∧
      (∀ u row, (∃ p s, r = .ok (.pair p) ∧
          Rotates sampleConfig TimedStore.reliable u row none s (crowded alice) w' p) ↔
        CanRotate sampleConfig (crowded alice).db (refreshTokenOf "o1") none l u row) ∧
      (∀ u, IsReuse sampleConfig (crowded alice).db (refreshTokenOf "o1") l u →
        r = .error tokenReuse ∧ ShutsDown TimedStore.reliable u (crowded alice) w') ∧
      ((∀ u row, ¬ CanRotate sampleConfig (crowded alice).db (refreshTokenOf "o1") none l u row) →
        (∀ u, ¬ IsReuse sampleConfig (crowded alice).db (refreshTokenOf "o1") l u) →
          w'.db = (crowded alice).db ∧ r ≠ .error tokenReuse) := by
  have hrun : crowdedRefresh.any (fun y => y.1.isOk) = true := by decide +kernel
  obtain ⟨⟨r, w'⟩, hy, hok⟩ := (Option.any_eq_true _ _).mp hrun
  exact ⟨r, w', hy, hok, refresh_exact (vacant_crowded alice) hy⟩

end AsyncPulse
