import AsyncPulse.Solo
set_option autoImplicit false

namespace AsyncPulse
open Effect

variable {cfg : Config} {d : Database} {t₀ : Time} {h : List Act} {β : Type}
  {Q : Except Exc β → List Act → Prop}

def eviction (x : SessionModel × Time) : Write :=
  .updateSession x.1 { x.1 with revokedAt := some x.2 }

def evictionTrail (x : SessionModel × Time) : List Act :=
  [.clock x.2, .readSessions (.byId x.1.id) [x.1]] ++ [.wrote (eviction x)] ++
    [.cacheDeleted (.session x.1.id)]

theorem ledger_evictionTrail (h : List Act) (x : SessionModel × Time) :
    ledger (h ++ evictionTrail x) = ((ledger h).1, (ledger h).2 ++ [eviction x]) := by
  unfold evictionTrail
  rw [← List.append_assoc, ← List.append_assoc, ledger_still (by simp [Act.still]), ledger_wrote,
    ledger_still (by simp [Act.still])]

theorem ledger_evictions (h : List Act) (evs : List (SessionModel × Time)) :
    ledger (h ++ evs.flatMap evictionTrail) =
      ((ledger h).1, (ledger h).2 ++ evs.map eviction) := by
  induction evs generalizing h with
  | nil => simp
  | cons x evs ih =>
    rw [List.flatMap_cons, ← List.append_assoc, ih, ledger_evictionTrail]
    simp

theorem seen_evictionTrail (d : Database) (h : List Act) (x : SessionModel × Time) :
    seen d (h ++ evictionTrail x) = (seen d h).apply (eviction x) := by
  rw [seen, ledger_evictionTrail, ← List.append_assoc, Database.applyAll_append, seen]
  rfl

theorem get_eviction (d : Database) (x : SessionModel × Time) (s : String) :
    (d.apply (eviction x)).sessions.get s =
      if s = x.1.id then (d.sessions.get s).map (x.1.patch { x.1 with revokedAt := some x.2 })
      else d.sessions.get s :=
  Keyed.get_modify _ _ _ (SessionModel.patch_id x.1 { x.1 with revokedAt := some x.2 }) s

theorem patch_revokedAt (r : SessionModel) (t : Time) :
    r.patch { r with revokedAt := some t } r = { r with revokedAt := some t } := by
  simp [SessionModel.patch]

section

variable {evs : List (SessionModel × Time)}

theorem users_evictions (d : Database) (evs : List (SessionModel × Time)) :
    (d.applyAll (evs.map eviction)).users = d.users := by
  induction evs generalizing d with
  | nil => rfl
  | cons x evs ih => exact ih _

theorem get_evictions_of_ne {s : String} (hs : ∀ x ∈ evs, x.1.id ≠ s) (d : Database) :
    (d.applyAll (evs.map eviction)).sessions.get s = d.sessions.get s := by
  induction evs generalizing d with
  | nil => rfl
  | cons x evs ih =>
    rw [List.map_cons, Database.applyAll_cons, ih fun y hy => hs y (List.mem_cons_of_mem _ hy),
      get_eviction, if_neg fun he => hs x List.mem_cons_self he.symm]

theorem get_evictions {d : Database} (hnd : (evs.map fun x => x.1.id).Nodup)
    (hget : ∀ x ∈ evs, d.sessions.get x.1.id = some x.1) {x : SessionModel × Time} (hx : x ∈ evs) :
    (d.applyAll (evs.map eviction)).sessions.get x.1.id =
      some { x.1 with revokedAt := some x.2 } := by
  induction evs generalizing d with
  | nil => cases hx
  | cons y evs ih =>
    obtain ⟨hy, hnd⟩ := List.nodup_cons.mp hnd
    have hne : ∀ z ∈ evs, z.1.id ≠ y.1.id := fun z hz he => hy (List.mem_map.mpr ⟨z, hz, he⟩)
    rw [List.map_cons, Database.applyAll_cons]
    cases List.mem_cons.mp hx with
    | inl he =>
      subst he
      rw [get_evictions_of_ne hne, get_eviction, if_pos rfl, hget x List.mem_cons_self,
        Option.map_some, patch_revokedAt]
    | inr hx =>
      apply ih hnd _ hx
      intro z hz
      rw [get_eviction, if_neg (hne z hz)]
      exact hget z (List.mem_cons_of_mem _ hz)

end

theorem isNone_evictions {d : Database} (evs : List (SessionModel × Time)) (s : String) :
    ((d.applyAll (evs.map eviction)).sessions.get s).isNone = (d.sessions.get s).isNone := by
  induction evs generalizing d with
  | nil => rfl
  | cons x evs ih =>
    rw [List.map_cons, Database.applyAll_cons, ih, get_eviction]
    split
    · rw [Option.isNone_map]
    · rfl

theorem alone_updateSession {a : SessionModel} {s : UserSession} (hid : s.id = a.id)
    (ha : (seen d h).sessions.get a.id = some a) (hne : s.toModel ≠ a) {f : Unit → M β}
    (hf : Alone cfg d t₀ (f ()) Q
      (h ++ [Act.readSessions (.byId a.id) [a], .wrote (.updateSession a s.toModel)])) :
    Alone cfg d t₀ (updateSession s >>= f) Q h := by
  unfold updateSession
  rw [bind_assoc, hid]
  apply alone_selectSessions
  intro rank
  rw [SessionQuery.eval_byId ha]
  simp only [if_neg hne]
  apply alone_write
  · intro _ _
    rw [List.append_assoc]
    exact hf
  · intro x hx
    obtain ⟨-, hx⟩ | ⟨-, -, hx⟩ := hx <;> cases hx

theorem alone_evict {a : SessionModel} (ha : (seen d h).sessions.get a.id = some a)
    (hrev : a.revokedAt = none) {f : Unit → M β}
    (hf : ∀ t, Alone cfg d t₀ (f ()) Q (h ++ evictionTrail (a, t))) :
    Alone cfg d t₀ (evict a.toEntity >>= f) Q h := by
  unfold evict UserSession.revoke
  rw [bind_assoc]
  simp only [show a.toEntity.revokedAt = none from hrev]
  rw [bind_assoc]
  apply alone_now
  intro t _
  rw [pure_bind, bind_assoc]
  apply alone_updateSession (a := a) rfl
  · rw [seen_still (by simp [Act.still])]
    exact ha
  · intro he
    have hrevoked := congrArg SessionModel.revokedAt he
    rw [hrev] at hrevoked
    cases hrevoked
  · apply alone_suppressDelete
    have happ := hf t
    simp only [evictionTrail, List.append_assoc, List.cons_append, List.nil_append] at happ ⊢
    exact happ

theorem alone_evictAll {as : List SessionModel} (hnd : (as.map SessionModel.id).Nodup)
    (has : ∀ a ∈ as, (seen d h).sessions.get a.id = some a ∧ a.revokedAt = none) {f : Unit → M β}
    (hf : ∀ evs : List (SessionModel × Time), evs.map Prod.fst = as →
      Alone cfg d t₀ (f ()) Q (h ++ evs.flatMap evictionTrail)) :
    Alone cfg d t₀ ((as.map SessionModel.toEntity).forM evict >>= f) Q h := by
  induction as generalizing h with
  | nil =>
    have happ := hf [] rfl
    rw [List.flatMap_nil, List.append_nil] at happ
    exact happ
  | cons a as ih =>
    obtain ⟨hna, hnd⟩ := List.nodup_cons.mp hnd
    obtain ⟨ha, hrev⟩ := has a List.mem_cons_self
    change Alone cfg d t₀ ((evict a.toEntity >>= fun _ =>
      (as.map SessionModel.toEntity).forM evict) >>= f) Q h
    rw [bind_assoc]
    apply alone_evict ha hrev
    intro t
    apply ih hnd
    · intro b hb
      have hne : b.id ≠ a.id := fun he => hna (List.mem_map.mpr ⟨b, hb, he⟩)
      rw [seen_evictionTrail, get_eviction, if_neg hne]
      exact has b (List.mem_cons_of_mem _ hb)
    · intro evs hevs
      have happ := hf ((a, t) :: evs) (by simp [hevs])
      rw [List.flatMap_cons, ← List.append_assoc] at happ
      exact happ

def loginRow (cfg : Config) (x : UserModel) (dev ip : Option String) (u : String) (t t' : Time) :
    SessionModel :=
  { id := u, userId := x.id, deviceInfo := dev, ipAddress := ip, createdAt := t',
    expiresAt := t + days cfg.refreshTokenExpireDays, revokedAt := none, previousSessionId := none }

def openingTrail (u : String) (t t₁ t₂ t₃ : Time) (a b : Claims) : List Act :=
  [.drew u, .clock t, .clock t₁, .signed a, .clock t₂, .signed b, .clock t₃]

theorem still_openingTrail {u : String} {t t₁ t₂ t₃ : Time} {a b : Claims} :
    ∀ c ∈ openingTrail u t t₁ t₂ t₃ a b, c.still = true := by
  simp [openingTrail, Act.still]

def committedTrail (cfg : Config) (r : SessionModel) : List Act :=
  [.wrote (.insertSession r), .committed, .cacheSet (.session r.id) r.projection.toDict
    (some (cfg.refreshTokenExpireDays * 86400))]

def Answers (x : UserModel) (r : Except Exc LoginResponse) : Prop :=
  x.name ≠ none ∧ (∃ resp, r = .ok resp) ∨ x.name = none ∧ r = .error .validationError

theorem answers_loginResponse (x : UserModel) (a b : Token) {h : List Act}
    {Q : Except Exc LoginResponse → List Act → Prop} (hq : ∀ r, Answers x r → Q r h) :
    Alone cfg d t₀ (loginResponse x.toEntity a b) Q h := by
  unfold loginResponse
  split
  · rename_i hn
    exact hq _ (.inr ⟨hn, rfl⟩)
  · rename_i name hn
    exact hq _ (.inl ⟨by rw [show x.name = some name from hn]; simp, _, rfl⟩)

/-- The insert is refused when the values do not fit or the id is taken. -/
def Unfit (d : Database) (dev ip : Option String) (u : String) : Prop :=
  fitsOpt 255 dev = false ∨ fitsOpt 45 ip = false ∨ d.sessions.get u ≠ none

theorem admits_loginRow {x : UserModel} (hx : d.users.get x.id = some x) {dev ip : Option String}
    {u : String} {t t' : Time} :
    d.admits (.insertSession (loginRow cfg x dev ip u t t')) = true ↔ d.sessions.get u = none := by
  simp [Database.admits, loginRow, hx]

theorem fits_loginRow {x : UserModel} {dev ip : Option String} {u : String} {t t' : Time} :
    (Write.insertSession (loginRow cfg x dev ip u t t')).fits = true ↔
      fitsOpt 255 dev = true ∧ fitsOpt 45 ip = true := by
  simp [Write.fits, loginRow]

theorem unfit_of_refusal {x : UserModel} (hx : d.users.get x.id = some x) {dev ip : Option String}
    {u : String} {t t' : Time} {y : Exc}
    (h : (Write.insertSession (loginRow cfg x dev ip u t t')).Refusal d y) : Unfit d dev ip u := by
  obtain ⟨-, ha⟩ | ⟨-, -, hf⟩ := h
  · right
    right
    intro hnone
    rw [(admits_loginRow hx).mpr hnone] at ha
    cases ha
  · by_contra hnot
    simp only [Unfit, not_or, Bool.not_eq_false] at hnot
    rw [fits_loginRow.mpr ⟨hnot.1, hnot.2.1⟩] at hf
    cases hf

theorem alone_openSession {x : UserModel} {dev ip : Option String}
    (hx : (seen d h).users.get x.id = some x) {Q : Except Exc LoginResponse → List Act → Prop}
    (hrefused : ∀ y u t t₁ t₂ t₃ a b,
      (Write.insertSession (loginRow cfg x dev ip u t t₃)).Refusal (seen d h) y →
        Q (.error y) (h ++ openingTrail u t t₁ t₂ t₃ a b ++
          [.refused (.insertSession (loginRow cfg x dev ip u t t₃))]))
    (hopened : ∀ r u t t₁ t₂ t₃ a b, Answers x r → (∀ t', .clock t' ∈ h → t' ≤ t) →
      ¬ Unfit (seen d h) dev ip u → Q r (h ++ openingTrail u t t₁ t₂ t₃ a b ++
        committedTrail cfg (loginRow cfg x dev ip u t t₃))) :
    Alone cfg d t₀ (openSession cfg x.toEntity dev ip) Q h := by
  unfold openSession
  apply alone_uuid4
  intro u _
  apply alone_now
  intro t ht
  apply alone_createToken
  intro t₁ a
  apply alone_createToken
  intro t₂ b
  unfold UserSession.create
  rw [bind_assoc]
  apply alone_now
  intro t₃ _
  rw [pure_bind]
  have htrail : h ++ [Act.drew u] ++ [Act.clock t] ++ [Act.clock t₁, .signed a] ++
      [Act.clock t₂, .signed b] ++ [.clock t₃] = h ++ openingTrail u t t₁ t₂ t₃ a b := by
    simp [openingTrail]
  rw [htrail]
  have hrow : (UserSession.toModel
      { id := u, userId := x.toEntity.id, expiresAt := t + days cfg.refreshTokenExpireDays,
        deviceInfo := dev, ipAddress := ip, createdAt := t₃, revokedAt := none,
        previousSessionId := none }) = loginRow cfg x dev ip u t t₃ := rfl
  unfold createSession
  rw [hrow]
  apply alone_write
  · intro ha hf
    rw [seen_still still_openingTrail, admits_loginRow hx] at ha
    rw [fits_loginRow] at hf
    apply alone_commit
    apply alone_suppressSet
    apply answers_loginResponse
    intro r hr
    have happ := hopened r u t t₁ t₂ t₃ a b hr (fun t' ht' => ht t' (by simp [ht'])) (by
      simp [Unfit, hf.1, hf.2, ha])
    simp only [committedTrail, List.append_assoc, List.cons_append, List.nil_append] at happ ⊢
    exact happ
  · intro y hy
    rw [seen_still still_openingTrail] at hy
    exact hrefused y u t t₁ t₂ t₃ a b hy

structure Credentials (cfg : Config) (d : Database) (e p : String) (x : UserModel) : Prop where
  mem : x ∈ d.users.rows
  email : x.email = e
  present : x.deletedAt = none
  only : ∀ y ∈ d.users.rows, y.email = e → y.deletedAt = none → y = x
  password : cfg.checkpw p x.hashedPassword = .ok true
  standing : x.status ∉ lockoutStatuses

def surplus (rows : List SessionModel) : List SessionModel :=
  if 5 ≤ rows.length then rows.take (rows.length - 4) else []

theorem surplus_sublist (rows : List SessionModel) : (surplus rows).Sublist rows := by
  unfold surplus
  split
  · exact List.take_sublist _ _
  · exact List.nil_sublist _

theorem toRevoke_map (rows : List SessionModel) :
    toRevoke (rows.map SessionModel.toEntity) = (surplus rows).map SessionModel.toEntity := by
  unfold toRevoke surplus
  rw [List.length_map]
  split
  · rw [List.map_take]
  · rfl

structure Found (d : Database) (e : String) (x : UserModel) : Prop where
  mem : x ∈ d.users.rows
  email : x.email = e
  present : x.deletedAt = none
  only : ∀ y ∈ d.users.rows, y.email = e → y.deletedAt = none → y = x

theorem Credentials.found {e p : String} {x : UserModel} (h : Credentials cfg d e p x) :
    Found d e x := ⟨h.mem, h.email, h.present, h.only⟩

inductive Denied (cfg : Config) (d : Database) (e p : String) : Exc → List UserModel → Prop where
  | unknown : (∀ x ∈ d.users.rows, x.email = e → x.deletedAt ≠ none) →
      Denied cfg d e p .invalidCredentials []
  | ambiguous {x y : UserModel} {rows : List UserModel} : x ∈ d.users.rows → y ∈ d.users.rows →
      x ≠ y → x.email = e → y.email = e → x.deletedAt = none → y.deletedAt = none →
      Denied cfg d e p .multipleResultsFound rows
  | unchecked {x : UserModel} {y : Exc} : Found d e x →
      cfg.checkpw p x.hashedPassword = .error y → Denied cfg d e p y [x]
  | wrong {x : UserModel} : Found d e x → cfg.checkpw p x.hashedPassword = .ok false →
      Denied cfg d e p .invalidCredentials [x]
  | suspended {x : UserModel} : Found d e x → cfg.checkpw p x.hashedPassword = .ok true →
      x.status = .suspended → Denied cfg d e p .userSuspended [x]
  | banned {x : UserModel} : Found d e x → cfg.checkpw p x.hashedPassword = .ok true →
      x.status = .banned → Denied cfg d e p .userBanned [x]

theorem Denied.not_credentials {e p : String} {y : Exc} {rows : List UserModel}
    (h : Denied cfg d e p y rows) (x : UserModel) : ¬ Credentials cfg d e p x := by
  intro hx
  cases h with
  | unknown hno => exact hno x hx.mem hx.email hx.present
  | ambiguous hy hz hne he he' hd hd' =>
    exact hne ((hx.only _ hy he hd).trans (hx.only _ hz he' hd').symm)
  | @unchecked z _ hz hp =>
    obtain rfl := hz.only x hx.mem hx.email hx.present
    rw [hx.password] at hp
    cases hp
  | @wrong z hz hp =>
    obtain rfl := hz.only x hx.mem hx.email hx.present
    rw [hx.password] at hp
    cases hp
  | @suspended z hz _ hs =>
    obtain rfl := hz.only x hx.mem hx.email hx.present
    exact hx.standing (by simp [lockoutStatuses, hs])
  | @banned z hz _ hs =>
    obtain rfl := hz.only x hx.mem hx.email hx.present
    exact hx.standing (by simp [lockoutStatuses, hs])

def loginTrail (d : Database) (e : String) (x : UserModel) (rank : String → Nat)
    (evs : List (SessionModel × Time)) (u : String) (now t t₁ t₂ t₃ : Time) (a b : Claims) :
    List Act :=
  [.readUsers (.byEmail e) [x], .clock now, .readSessions (.activeOf x.id now)
      ((SessionQuery.activeOf x.id now).eval rank d.sessions)] ++
    evs.flatMap evictionTrail ++ openingTrail u t t₁ t₂ t₃ a b

/-- What a login that runs alone can come to. -/
inductive LoginRun (cfg : Config) (d : Database) (e p : String) (dev ip : Option String) :
    Except Exc LoginResponse → List Act → Prop where
  | denied {y : Exc} {rows : List UserModel} : Denied cfg d e p y rows →
      LoginRun cfg d e p dev ip (.error y) [.readUsers (.byEmail e) rows]
  | refused {y : Exc} {x : UserModel} {now t t₁ t₂ t₃ : Time} {rank : String → Nat}
      {evs : List (SessionModel × Time)} {u : String} {a b : Claims} :
      Credentials cfg d e p x →
      (Write.insertSession (loginRow cfg x dev ip u t t₃)).Refusal d y →
      LoginRun cfg d e p dev ip (.error y) (loginTrail d e x rank evs u now t t₁ t₂ t₃ a b ++
        [.refused (.insertSession (loginRow cfg x dev ip u t t₃))])
  | opened {r : Except Exc LoginResponse} {x : UserModel} {now t t₁ t₂ t₃ : Time}
      {rank : String → Nat} {evs : List (SessionModel × Time)} {u : String} {a b : Claims} :
      Credentials cfg d e p x → Answers x r →
      evs.map Prod.fst = surplus ((SessionQuery.activeOf x.id now).eval rank d.sessions) →
      now ≤ t → ¬ Unfit d dev ip u →
      LoginRun cfg d e p dev ip r (loginTrail d e x rank evs u now t t₁ t₂ t₃ a b ++
        committedTrail cfg (loginRow cfg x dev ip u t t₃))

theorem Credentials.rows {e p : String} {x : UserModel} (h : Credentials cfg d e p x)
    (rank : String → Nat) : (UserQuery.byEmail e).eval rank d.users = [x] := by
  have hmem : ∀ y, y ∈ (UserQuery.byEmail e).eval rank d.users ↔ y ∈ [x] := by
    intro y
    rw [UserQuery.mem_byEmail, List.mem_singleton]
    constructor
    · exact fun hy => h.only y hy.1 hy.2.1 hy.2.2
    · intro hy
      subst hy
      exact ⟨h.mem, h.email, h.present⟩
  exact List.perm_singleton.mp ((List.perm_ext_iff_of_nodup
    (UserQuery.nodup_eval (.byEmail e) rank d.users) (List.nodup_singleton x)).mpr hmem)

theorem alone_admitted {e p : String} {dev ip : Option String} {x : UserModel}
    (hx : Credentials cfg d e p x) :
    Alone cfg d t₀ (do
      let activeSessions ← getActiveSessionsForUser x.id
      (toRevoke activeSessions).forM evict
      openSession cfg x.toEntity dev ip) (LoginRun cfg d e p dev ip)
      [.readUsers (.byEmail e) [x]] := by
  unfold getActiveSessionsForUser
  rw [bind_assoc]
  apply alone_now
  intro now _
  rw [bind_assoc]
  apply alone_selectSessions
  intro rank
  have hseen : ∀ l : List Act, (∀ a ∈ l, a.still = true) → seen d l = d :=
    fun l hl => by simpa using seen_still (d := d) (h := []) hl
  rw [hseen _ (by simp [Act.still]), pure_bind, toRevoke_map]
  generalize hh : [Act.readUsers (.byEmail e) [x]] ++ [Act.clock now] ++
    [.readSessions (.activeOf x.id now)
      ((SessionQuery.activeOf x.id now).eval rank d.sessions)] = h
  have hstill : ∀ a ∈ h, a.still = true := by
    rw [← hh]
    simp [Act.still]
  apply alone_evictAll
  · exact (SessionQuery.nodup_eval _ _ _).sublist ((surplus_sublist _).map _)
  · intro a ha
    rw [hseen h hstill]
    obtain ⟨hrow, hsel⟩ := SessionQuery.mem_eval.mp ((surplus_sublist _).mem ha)
    simp only [SessionQuery.selects, Bool.and_eq_true, Option.isNone_iff_eq_none] at hsel
    exact ⟨Keyed.get_of_mem hrow, hsel.1.2⟩
  intro evs hevs
  have hseenEvs : seen d (h ++ evs.flatMap evictionTrail) = d.applyAll (evs.map eviction) := by
    have hled : ledger h = ([], []) := ledger_still (h := []) hstill
    rw [seen, ledger_evictions, hled]
    rfl
  have hget : ∀ u, (d.applyAll (evs.map eviction)).sessions.get u = none ↔
      d.sessions.get u = none := by
    intro u
    have hnone := isNone_evictions (d := d) evs u
    rwa [Bool.eq_iff_iff, Option.isNone_iff_eq_none, Option.isNone_iff_eq_none] at hnone
  have hxget : d.users.get x.id = some x := Keyed.get_of_mem hx.mem
  have hxget' : (d.applyAll (evs.map eviction)).users.get x.id = some x := by
    rw [users_evictions]
    exact hxget
  apply alone_openSession
  · rw [hseenEvs]
    exact hxget'
  · intro y u t t₁ t₂ t₃ a b hy
    rw [hseenEvs] at hy
    have hadmits : (d.applyAll (evs.map eviction)).admits
        (.insertSession (loginRow cfg x dev ip u t t₃)) =
          d.admits (.insertSession (loginRow cfg x dev ip u t t₃)) := by
      rw [Bool.eq_iff_iff, admits_loginRow hxget, admits_loginRow hxget', hget]
    unfold Write.Refusal at hy
    rw [hadmits] at hy
    rw [← hh]
    exact .refused hx hy
  · intro r u t t₁ t₂ t₃ a b hr ht hun
    have hun' : ¬ Unfit d dev ip u := by
      rw [hseenEvs] at hun
      unfold Unfit at hun ⊢
      rwa [Ne, hget] at hun
    have hnow : now ≤ t := ht now (by simp [← hh])
    rw [← hh]
    exact .opened hx hr hevs hnow hun'

theorem alone_authenticate {e p : String} {dev ip : Option String} :
    Alone cfg d t₀ (authenticate cfg e p dev ip) (LoginRun cfg d e p dev ip) [] := by
  have hsel : ∀ x : UserModel, (UserQuery.byEmail e).selects x = true ↔
      x.email = e ∧ x.deletedAt = none := by simp [UserQuery.selects]
  unfold authenticate getByEmail
  apply alone_findUser (by simp)
  · intro hnone
    apply LoginRun.denied
    apply Denied.unknown
    intro x hx he hd
    have hfalse := hnone x hx
    rw [(hsel x).mpr ⟨he, hd⟩] at hfalse
    cases hfalse
  · intro x hx hx' honly
    obtain ⟨he, hd⟩ := (hsel x).mp hx'
    have hfound : Found d e x := ⟨hx, he, hd, fun y hy he hd => honly y hy ((hsel y).mpr ⟨he, hd⟩)⟩
    change Alone cfg d t₀ (verifyPassword cfg p x.hashedPassword >>= _) _ _
    unfold verifyPassword
    cases hpw : cfg.checkpw p x.hashedPassword with
    | error y => exact .denied (.unchecked hfound hpw)
    | ok valid =>
      rw [Prog.ret_ok_bind]
      apply alone_raiseIf
      · intro hv
        rw [hv] at hpw
        exact .denied (.wrong hfound hpw)
      intro hv
      rw [show valid = true by simpa using hv] at hpw
      apply alone_raiseIf
      · exact fun hst => .denied (.suspended hfound hpw hst)
      intro hsus
      apply alone_raiseIf
      · exact fun hst => .denied (.banned hfound hpw hst)
      intro hban
      have hstanding : x.status ∉ lockoutStatuses := by
        simpa [lockoutStatuses] using ⟨hsus, hban⟩
      exact alone_admitted ⟨hx, he, hd, hfound.only, hpw, hstanding⟩
  · intro rows x hx y hy hne hx' hy'
    obtain ⟨he, hd⟩ := (hsel x).mp hx'
    obtain ⟨he', hd'⟩ := (hsel y).mp hy'
    exact .denied (.ambiguous hx hy hne he he' hd hd')

theorem alone_login {e p : String} {dev ip : Option String} :
    Alone cfg d t₀ (Call.prog cfg (.authenticate e p dev ip))
      (fun r h => ∃ r' h', r = r'.map Out.login ∧ h = h' ++ [Act.closed] ∧
        LoginRun cfg d e p dev ip r' h') [] :=
  alone_prog rfl alone_authenticate

def SessionModel.ActiveAt (r : SessionModel) (u : String) (now : Time) : Prop :=
  r.userId = u ∧ r.revokedAt = none ∧ now < r.expiresAt

theorem mem_activeOf {u : String} {now : Time} {rank : String → Nat} {t : Sessions}
    {r : SessionModel} : r ∈ (SessionQuery.activeOf u now).eval rank t ↔
      r ∈ t.rows ∧ r.ActiveAt u now := by
  rw [SessionQuery.mem_eval]
  simp [SessionQuery.selects, SessionModel.ActiveAt, and_assoc]

variable {γ χ : Type} {C : MayCache Key Json γ χ} {i : Nat} {w w' : World γ}

/-- A login of user `x` has ended the sessions `evicted`, kept the sessions `kept`, and opened
`new`. Its query has read the clock as `now`. -/
structure Evicts (cfg : Config) (C : MayCache Key Json γ χ) (x : UserModel) (now : Time)
    (w w' : World γ) (evicted kept : List SessionModel) (new : SessionModel) : Prop where
  active : ∀ r, r ∈ evicted ++ kept ↔ r ∈ w.db.sessions.rows ∧ r.ActiveAt x.id now
  nodup : (evicted ++ kept).Nodup
  count : evicted.length =
    if 5 ≤ (evicted ++ kept).length then (evicted ++ kept).length - 4 else 0
  oldest : ∀ a ∈ evicted, ∀ b ∈ kept, a.createdAt ≤ b.createdAt
  revoked : ∀ a ∈ evicted, ∃ t,
    w'.db.sessions.get a.id = some { a with revokedAt := some t }
  opened : w.db.sessions.get new.id = none ∧ w'.db.sessions.get new.id = some new ∧
    new.userId = x.id ∧ new.revokedAt = none ∧
    ∃ t, now ≤ t ∧ new.expiresAt = t + days cfg.refreshTokenExpireDays
  others : ∀ s, s ≠ new.id → (∀ a ∈ evicted, a.id ≠ s) →
    w'.db.sessions.get s = w.db.sessions.get s
  afterwards : ∀ r, (r ∈ w'.db.sessions.rows ∧ r.ActiveAt x.id now) ↔
    r ∈ kept ∨ r = new ∧ now < new.expiresAt
  limit : kept.length + 1 ≤ 5
  users : w'.db.users = w.db.users
  purged : ∀ a ∈ evicted, ∀ v, ¬ C.holds w'.cache (.session a.id) v

theorem length_surplus (rows : List SessionModel) :
    (surplus rows).length = if 5 ≤ rows.length then rows.length - 4 else 0 := by
  unfold surplus
  split
  · rw [List.length_take]
    omega
  · rfl

theorem surplus_append_drop (rows : List SessionModel) :
    surplus rows ++ rows.drop (surplus rows).length = rows := by
  unfold surplus
  split
  · rename_i hn
    rw [List.length_take, Nat.min_eq_left (by omega), List.take_append_drop]
  · simp

theorem get_login {d : Database} (evs : List (SessionModel × Time)) {r : SessionModel}
    (hr : d.sessions.get r.id = none) (s : String) :
    (d.applyAll (evs.map eviction ++ [.insertSession r])).sessions.get s =
      if s = r.id then some r else (d.applyAll (evs.map eviction)).sessions.get s := by
  have hnone := isNone_evictions (d := d) evs r.id
  rw [hr, Option.isNone_none, Option.isNone_iff_eq_none] at hnone
  rw [Database.applyAll_append]
  exact Keyed.get_insert hnone s

theorem users_login (d : Database) (evs : List (SessionModel × Time)) (r : SessionModel) :
    (d.applyAll (evs.map eviction ++ [.insertSession r])).users = d.users := by
  rw [Database.applyAll_append]
  exact users_evictions d evs

theorem surplus_pairwise {R : SessionModel → SessionModel → Prop} {rows : List SessionModel}
    (h : rows.Pairwise R) :
    ∀ a ∈ surplus rows, ∀ b ∈ rows.drop (surplus rows).length, R a b := by
  rw [← surplus_append_drop rows] at h
  exact (List.pairwise_append.mp h).2.2

theorem active_afterwards {old t : Sessions} {u : String} {now : Time}
    {evicted kept : List SessionModel} {new : SessionModel}
    (hactive : ∀ r, r ∈ evicted ++ kept ↔ r ∈ old.rows ∧ r.ActiveAt u now)
    (hapart : ∀ a ∈ evicted, ∀ b ∈ kept, a.id ≠ b.id) (hne : ∀ r ∈ kept, r.id ≠ new.id)
    (hnew : t.get new.id = some new) (hu : new.userId = u) (hlive : new.revokedAt = none)
    (hended : ∀ a ∈ evicted, ∃ t₁, t.get a.id = some { a with revokedAt := some t₁ })
    (hothers : ∀ s, s ≠ new.id → (∀ a ∈ evicted, a.id ≠ s) → t.get s = old.get s)
    (r : SessionModel) :
    (r ∈ t.rows ∧ r.ActiveAt u now) ↔ r ∈ kept ∨ r = new ∧ now < new.expiresAt := by
  constructor
  · intro hr
    obtain ⟨hr, hact⟩ := hr
    have hr' := Keyed.get_of_mem hr
    by_cases hru : r.id = new.id
    · rw [hru, hnew] at hr'
      cases hr'
      exact .inr ⟨rfl, hact.2.2⟩
    · by_cases hev : ∃ a ∈ evicted, a.id = r.id
      · obtain ⟨a, ha, hid⟩ := hev
        obtain ⟨t₁, ht₁⟩ := hended a ha
        rw [hid, hr'] at ht₁
        have hrev := hact.2.1
        rw [Option.some.inj ht₁] at hrev
        cases hrev
      · have hno : ∀ a ∈ evicted, a.id ≠ r.id := fun a ha he => hev ⟨a, ha, he⟩
        rw [hothers _ hru hno] at hr'
        have hrow := (hactive r).mpr ⟨Keyed.mem_of_get hr', hact⟩
        cases List.mem_append.mp hrow with
        | inl ha => exact absurd rfl (hno r ha)
        | inr hb => exact .inl hb
  · intro hr
    obtain hr | ⟨rfl, hlater⟩ := hr
    · have hrow := (hactive r).mp (List.mem_append_right _ hr)
      refine ⟨Keyed.mem_of_get (k := r.id) ?_, hrow.2⟩
      rw [hothers _ (hne r hr) fun a ha => hapart a ha r hr]
      exact Keyed.get_of_mem hrow.1
    · exact ⟨Keyed.mem_of_get hnew, hu, hlive, hlater⟩

theorem get_ended {d : Database} {rows : List SessionModel} {evs : List (SessionModel × Time)}
    (new : SessionModel) (hevs : evs.map Prod.fst = surplus rows)
    (hids : (rows.map SessionModel.id).Nodup)
    (hget : ∀ r ∈ rows, d.sessions.get r.id = some r) (hnew : d.sessions.get new.id = none) :
    (∀ a ∈ surplus rows, ∃ t₁, (d.applyAll (evs.map eviction ++ [.insertSession new])).sessions.get
      a.id = some { a with revokedAt := some t₁ }) ∧
    ∀ s, s ≠ new.id → (∀ a ∈ surplus rows, a.id ≠ s) →
      (d.applyAll (evs.map eviction ++ [.insertSession new])).sessions.get s =
        d.sessions.get s := by
  have hmem : ∀ y ∈ evs, y.1 ∈ surplus rows := fun y hy => hevs ▸ List.mem_map_of_mem hy
  constructor
  · intro a ha
    rw [← hevs] at ha
    obtain ⟨y, hy, rfl⟩ := List.mem_map.mp ha
    refine ⟨y.2, ?_⟩
    have hnd : (evs.map fun z => z.1.id).Nodup := by
      have hsub := (((surplus_sublist rows).map SessionModel.id).nodup hids)
      rw [← hevs, List.map_map] at hsub
      exact hsub
    have hrow := hget _ ((surplus_sublist rows).mem (hmem y hy))
    have hne : y.1.id ≠ new.id := by
      intro he
      rw [he, hnew] at hrow
      cases hrow
    rw [get_login evs hnew, if_neg hne]
    exact get_evictions hnd (fun z hz => hget _ ((surplus_sublist rows).mem (hmem z hz))) hy
  · intro s hs ha
    rw [get_login evs hnew, if_neg hs]
    exact get_evictions_of_ne (fun y hy => ha _ (hmem y hy)) _

theorem evicts_of_tables {x : UserModel} {dev ip : Option String} {u : String}
    {now t t' : Time} {rank : String → Nat} {evs : List (SessionModel × Time)}
    {rows : List SessionModel}
    (hrows : rows = (SessionQuery.activeOf x.id now).eval rank w.db.sessions)
    (hevs : evs.map Prod.fst = surplus rows) (hnow : now ≤ t) (hu : w.db.sessions.get u = none)
    (hdb : w'.db = w.db.applyAll
      (evs.map eviction ++ [.insertSession (loginRow cfg x dev ip u t t')]))
    (hgone : ∀ a ∈ surplus rows, ∀ v, ¬ C.holds w'.cache (.session a.id) v) :
    Evicts cfg C x now w w' (surplus rows) (rows.drop (surplus rows).length)
      (loginRow cfg x dev ip u t t') := by
  have hsplit := surplus_append_drop rows
  have hactive : ∀ r, r ∈ surplus rows ++ rows.drop (surplus rows).length ↔
      r ∈ w.db.sessions.rows ∧ r.ActiveAt x.id now := by
    intro r
    rw [hsplit, hrows]
    exact mem_activeOf
  have hids : (rows.map SessionModel.id).Nodup := by
    rw [hrows]
    exact SessionQuery.nodup_eval _ _ _
  have hget : ∀ r ∈ rows, w.db.sessions.get r.id = some r :=
    fun r hr => Keyed.get_of_mem ((hactive r).mp (hsplit.symm ▸ hr)).1
  have hne : ∀ r ∈ rows, r.id ≠ u := by
    intro r hr he
    have hsome := hget r hr
    rw [he, hu] at hsome
    cases hsome
  obtain ⟨hended, hothers⟩ := get_ended (loginRow cfg x dev ip u t t') hevs hids hget hu
  have hopened : w'.db.sessions.get u = some (loginRow cfg x dev ip u t t') := by
    rw [hdb]
    exact (get_login evs hu u).trans (if_pos rfl)
  rw [← hdb] at hended hothers
  constructor
  · exact hactive
  · rw [hsplit]
    exact hids.of_map
  · rw [hsplit]
    exact length_surplus rows
  · apply surplus_pairwise
    rw [hrows]
    exact SessionQuery.activeOf_sorted _ _ _ _
  · exact hended
  · exact ⟨hu, hopened, rfl, rfl, t, hnow, rfl⟩
  · exact hothers
  · exact active_afterwards hactive (surplus_pairwise (List.pairwise_map.mp hids))
      (fun r hr => hne r (List.mem_of_mem_drop hr)) hopened rfl rfl hended hothers
  · rw [List.length_drop, length_surplus]
    split <;> omega
  · rw [hdb]
    exact users_login _ _ _
  · exact hgone

theorem ledger_login {h : List Act} (hh : ∀ a ∈ h, a.still = true)
    (evs : List (SessionModel × Time)) (u : String) (t t₁ t₂ t₃ : Time) (a b : Claims)
    (r : SessionModel) :
    (ledger (h ++ evs.flatMap evictionTrail ++ openingTrail u t t₁ t₂ t₃ a b ++
      committedTrail cfg r ++ [Act.closed])).1 = evs.map eviction ++ [.insertSession r] := by
  have htrail : committedTrail cfg r = [.wrote (.insertSession r)] ++ [Act.committed] ++
      [.cacheSet (.session r.id) r.projection.toDict
        (some (cfg.refreshTokenExpireDays * 86400))] := rfl
  have hled : ledger h = ([], []) := ledger_still (h := []) hh
  rw [ledger_closed, htrail, ← List.append_assoc, ← List.append_assoc,
    ledger_still (by simp [Act.still]), ledger_committed, ledger_wrote,
    ledger_still still_openingTrail, ledger_evictions, hled]
  simp

theorem Vacant.login (hw : Vacant w i) {e p : String} {dev ip : Option String}
    {cs : List (Choice χ)} {r : Except Exc Out}
    (hr : (semantics cfg C).run i cs (Call.prog cfg (.authenticate e p dev ip)) w = some (r, w')) :
    ∃ r' l, r = r'.map Out.login ∧ Played C i w w' (l ++ [Act.closed]) ∧
      LoginRun cfg w.db e p dev ip r' l := by
  obtain ⟨l, hl, r', l', hr', rfl, hrun⟩ := hw.run alone_login hr
  exact ⟨r', l', hr', hl, hrun⟩

/-- A successful login ends the oldest active sessions of its user down to four, and with it goes
their cache entry; every other row stays as it was, and the new session is the fifth at most. -/
theorem eviction_exact (hC : C.Exact) (hw : Vacant w i) {e p : String} {dev ip : Option String}
    {cs : List (Choice χ)} {o : Out}
    (hr : (semantics cfg C).run i cs (Call.prog cfg (.authenticate e p dev ip)) w =
      some (.ok o, w')) :
    ∃ x now evicted kept new l, Credentials cfg w.db e p x ∧ w'.hist i = w.hist i ++ l ∧
      .clock now ∈ l ∧ .readSessions (.activeOf x.id now) (evicted ++ kept) ∈ l ∧
      Evicts cfg C x now w w' evicted kept new := by
  obtain ⟨r', l, hr', hl, hrun⟩ := hw.login hr
  cases hrun with
  | denied _ => cases hr'
  | refused _ _ => cases hr'
  | @opened _ x now t t₁ t₂ t₃ rank evs u a b hx _ hevs hnow hfit =>
    have hu : w.db.sessions.get u = none := by
      simp only [Unfit, not_or, not_not] at hfit
      exact hfit.2.2
    refine ⟨x, now, _, _, loginRow cfg x dev ip u t t₃, _, hx, hl.hist, by simp [loginTrail], ?_,
      evicts_of_tables rfl hevs hnow hu ?_ ?_⟩
    · rw [surplus_append_drop]
      simp [loginTrail]
    · unfold loginTrail at hl
      rw [hl.db, ledger_login (by simp [Act.still])]
    · intro y hy
      have hne : y.id ≠ u := by
        intro he
        have hrow := Keyed.get_of_mem (mem_activeOf.mp ((surplus_sublist _).mem hy)).1
        rw [he, hu] at hrow
        cases hrow
      rw [← hevs] at hy
      obtain ⟨z, hz, rfl⟩ := List.mem_map.mp hy
      apply hl.gone hC
      · simp only [loginTrail, List.mem_append, List.mem_flatMap]
        exact .inl (.inl (.inl (.inr ⟨z, hz, by simp [evictionTrail]⟩)))
      · simp [loginTrail, evictionTrail, openingTrail, committedTrail, loginRow, hne]

def crowded (x : UserModel) : World (TimedStore Key Json) :=
  { sampleWorld with
    db :=
      { users := Keyed.empty.insert x
        sessions := ["o1", "o2", "o3", "o4", "o5", "o6"].foldl
          (fun t s => t.insert { aliceSession with id := s }) .empty } }

theorem vacant_crowded (x : UserModel) : Vacant (crowded x) 0 := ⟨rfl, fun _ => rfl⟩

def crowdedSignIn (x : UserModel) :
    Option (Except Exc Out × World (TimedStore Key Json)) :=
  (semantics sampleConfig TimedStore.reliable).run 0 (List.replicate 22 (moment 2 "s1"))
    (Call.prog sampleConfig (.authenticate "alice@example.org" "secret" none none)) (crowded x)

theorem eviction_exact_crowded : ∃ o w', crowdedSignIn alice = some (.ok o, w') ∧
    ∃ x now evicted kept new l,
      Credentials sampleConfig (crowded alice).db "alice@example.org" "secret" x ∧
      w'.hist 0 = (crowded alice).hist 0 ++ l ∧ .clock now ∈ l ∧
      .readSessions (.activeOf x.id now) (evicted ++ kept) ∈ l ∧
      Evicts sampleConfig TimedStore.reliable x now (crowded alice) w' evicted kept new := by
  have hrun : (crowdedSignIn alice).any (fun y => y.1.isOk) = true := by decide +kernel
  cases hy : crowdedSignIn alice with
  | none =>
    rw [hy] at hrun
    cases hrun
  | some y =>
    obtain ⟨r, w'⟩ := y
    cases r with
    | error x =>
      rw [hy] at hrun
      cases hrun
    | ok o =>
      exact ⟨o, w', rfl, eviction_exact TimedStore.reliable_exact (vacant_crowded alice) hy⟩

/-- A login that fails leaves the sessions as they were, unless the credentials were right and only
the response could not be built. -/
theorem failed_login_traceless (hw : Vacant w i) {e p : String} {dev ip : Option String}
    {cs : List (Choice χ)} {r : Except Exc Out}
    (hr : (semantics cfg C).run i cs (Call.prog cfg (.authenticate e p dev ip)) w = some (r, w')) :
    ∃ l, w'.hist i = w.hist i ++ l ∧
      (((∃ y, r = .error y) → w'.db.sessions = w.db.sessions) ↔
        ¬ ∃ x, Credentials cfg w.db e p x ∧ x.name = none ∧
          ∀ u, .drew u ∈ l → ¬ Unfit w.db dev ip u) := by
  obtain ⟨r', l, rfl, hl, hrun⟩ := hw.login hr
  refine ⟨_, hl.hist, ?_⟩
  have hsame : .committed ∉ l → w'.db.sessions = w.db.sessions := by
    intro hc
    rw [hl.db, ledger_uncommitted (by simp [hc])]
    rfl
  cases hrun with
  | denied hno =>
    constructor
    · intro _ hx
      obtain ⟨x, hx, -⟩ := hx
      exact hno.not_credentials x hx
    · exact fun _ _ => hsame (by simp)
  | @refused _ x now t t₁ t₂ t₃ rank evs u a b hx hy =>
    constructor
    · intro _ hx'
      obtain ⟨_, -, -, hfit⟩ := hx'
      exact hfit u (by simp [loginTrail, openingTrail])
        (unfit_of_refusal (Keyed.get_of_mem hx.mem) hy)
    · exact fun _ _ => hsame (by simp [loginTrail, evictionTrail, openingTrail])
  | @opened _ x now t t₁ t₂ t₃ rank evs u a b hx hans hevs hnow hfit =>
    constructor
    · intro htrace hx'
      obtain ⟨x', hx', hname, -⟩ := hx'
      obtain rfl : x' = x := hx.only x' hx'.mem hx'.email hx'.present
      obtain ⟨hn, -⟩ | ⟨-, rfl⟩ := hans
      · exact hn hname
      · -- The new row is there although the call has raised.
        have hu : w.db.sessions.get u = none := by
          simp only [Unfit, not_or, not_not] at hfit
          exact hfit.2.2
        have hnew : w'.db.sessions.get u = some (loginRow cfg x' dev ip u t t₃) := by
          unfold loginTrail at hl
          rw [hl.db, ledger_login (by simp [Act.still])]
          exact (get_login evs hu u).trans (if_pos rfl)
        rw [htrace ⟨_, rfl⟩, hu] at hnew
        cases hnew
    · intro hno hy
      obtain ⟨y, hy⟩ := hy
      obtain ⟨-, resp, rfl⟩ | ⟨hname, -⟩ := hans
      · cases hy
      · refine absurd ⟨x, hx, hname, fun u' hu' => ?_⟩ hno
        have hu : u' = u := by
          simpa [loginTrail, evictionTrail, openingTrail, committedTrail] using hu'
        exact hu ▸ hfit

/-- Alice as a row from before the column `name`. -/
def namelessAlice : UserModel := { alice with name := none }

theorem failed_login_traceless_nameless : ∃ r w', crowdedSignIn namelessAlice = some (r, w') ∧
    ∃ l, w'.hist 0 = (crowded namelessAlice).hist 0 ++ l ∧
      (((∃ y, r = .error y) → w'.db.sessions = (crowded namelessAlice).db.sessions) ↔
        ¬ ∃ x, Credentials sampleConfig (crowded namelessAlice).db "alice@example.org" "secret" x ∧
          x.name = none ∧ ∀ u, .drew u ∈ l → ¬ Unfit (crowded namelessAlice).db none none u) := by
  obtain ⟨y, hy⟩ := Option.isSome_iff_exists.mp
    (by decide +kernel : (crowdedSignIn namelessAlice).isSome = true)
  exact ⟨y.1, y.2, hy, failed_login_traceless (vacant_crowded namelessAlice) hy⟩

/-- The login raises, and yet a session was opened and two were ended. -/
theorem nameless_login :
    (crowdedSignIn namelessAlice).map (fun y => (y.1, y.2.db.sessions.rows.length,
      (y.2.db.sessions.rows.filter fun r => r.revokedAt.isSome).length)) =
        some (.error .validationError, 7, 2) ∧
    (crowded namelessAlice).db.sessions.rows.length = 6 ∧
    (crowded namelessAlice).db.sessions.rows.filter (fun r => r.revokedAt.isSome) = [] := by
  decide +kernel

end AsyncPulse
