import AsyncPulse.UserTraces
set_option autoImplicit false

namespace AsyncPulse
open Effect

inductive SessionLookup (s : String) : Option SessionValidation → List Act → Prop where
  | hit (v : SessionValidation) : v.id = s →
      SessionLookup s (some v) [.cacheGot (.session s) (some v.toDict)]
  | absent : SessionLookup s none [.cacheGot (.session s) none, .readSessions (.byId s) []]
  | warm (row : SessionModel) : row.id = s → SessionLookup s (some row.projection)
      [.cacheGot (.session s) none, .readSessions (.byId s) [row],
        .cacheSet (.session s) row.projection.toDict (some 3600)]

inductive UserLookup (u : String) : Option User → List Act → Prop where
  | hit (x : User) : x.id = u → UserLookup u (some x.blank) [.cacheGot (.user u) (some x.toDict)]
  | absent : UserLookup u none [.cacheGot (.user u) none, .readUsers (.byId u) []]
  | warm (x : UserModel) : x.id = u → x.deletedAt = none → UserLookup u (some x.toEntity)
      [.cacheGot (.user u) none, .readUsers (.byId u) [x],
        .cacheSet (.user u) x.toEntity.toDict (some 3600)]

inductive GateRun (c : Claims) (s : String) : Except Exc User → List Act → Prop where
  | expired (t : Time) : c.exp < wholeSeconds t →
      GateRun c s (.error (.invalidToken "Invalid or expired token")) [.clock t]
  | unknown (t : Time) (l : List Act) : wholeSeconds t ≤ c.exp → SessionLookup s none l →
      GateRun c s (.error (.invalidToken "Session is invalid or has been logged out"))
        (.clock t :: l)
  | inactive (t t' : Time) (l : List Act) (v : SessionValidation) : wholeSeconds t ≤ c.exp →
      SessionLookup s (some v) l → v.expiresAt < t' ∨ v.revokedAt ≠ none →
      GateRun c s (.error (.invalidToken "Session is invalid or has been logged out"))
        (.clock t :: l ++ [.clock t'])
  | foreign (t t' : Time) (l : List Act) (v : SessionValidation) : wholeSeconds t ≤ c.exp →
      SessionLookup s (some v) l → t' ≤ v.expiresAt → v.revokedAt = none → v.userId ≠ c.sub →
      GateRun c s (.error (.invalidToken "Session does not belong to this user"))
        (.clock t :: l ++ [.clock t'])
  | noUser (t t' : Time) (l l' : List Act) (v : SessionValidation) : wholeSeconds t ≤ c.exp →
      SessionLookup s (some v) l → t' ≤ v.expiresAt → v.revokedAt = none → v.userId = c.sub →
      UserLookup c.sub none l' →
      GateRun c s (.error (.invalidToken "User profile not found"))
        (.clock t :: l ++ .clock t' :: l')
  | barred (t t' : Time) (l l' : List Act) (v : SessionValidation) (x : User) (m : String) :
      wholeSeconds t ≤ c.exp → SessionLookup s (some v) l → t' ≤ v.expiresAt →
      v.revokedAt = none → v.userId = c.sub → UserLookup c.sub (some x) l' →
      x.status ≠ .active →
      GateRun c s (.error (.invalidToken m)) (.clock t :: l ++ .clock t' :: l')
  | passed (t t' : Time) (l l' : List Act) (v : SessionValidation) (x : User) :
      wholeSeconds t ≤ c.exp → SessionLookup s (some v) l → t' ≤ v.expiresAt →
      v.revokedAt = none → v.userId = c.sub → UserLookup c.sub (some x) l' →
      x.status = .active → GateRun c s (.ok x) (.clock t :: l ++ .clock t' :: l')

/-- The gate on any token: what is not an access token of the service is turned away at once. -/
inductive GateDone (cfg : Config) (token : Token) : Except Exc User → List Act → Prop where
  | refused (m : String) (l : List Act) : (∀ a ∈ l, ∃ t, a = .clock t) →
      (∀ c s, cfg.jose.verify token = some c → c.type = .access → c.sid = some s → s ≠ "" →
        c.sub ≠ "" → False) →
      GateDone cfg token (.error (.invalidToken m)) l
  | ran (c : Claims) (s : String) (r : Except Exc User) (l : List Act) :
      cfg.jose.verify token = some c → c.type = .access → c.sid = some s → s ≠ "" → c.sub ≠ "" →
      GateRun c s r l → GateDone cfg token r l

theorem SessionLookup.reading {s : String} {v : Option SessionValidation} {l : List Act}
    (hl : SessionLookup s v l) : Reading l := by
  cases hl <;> simp [Act.reads]

theorem UserLookup.reading {u : String} {x : Option User} {l : List Act}
    (hl : UserLookup u x l) : Reading l := by
  cases hl <;> simp [Act.reads]

theorem GateRun.reading {c : Claims} {s : String} {r : Except Exc User} {l : List Act}
    (hr : GateRun c s r l) : Reading l := by
  cases hr with
  | expired t _ => simp [Act.reads]
  | unknown t l _ hv => simp [Act.reads, hv.reading]
  | inactive t t' l v _ hv _ => simp [Act.reads, hv.reading]
  | foreign t t' l v _ hv _ _ _ => simp [Act.reads, hv.reading]
  | noUser t t' l l' v _ hv _ _ _ hx => simp [Act.reads, hv.reading, hx.reading]
  | barred t t' l l' v x m _ hv _ _ _ hx _ => simp [Act.reads, hv.reading, hx.reading]
  | passed t t' l l' v x _ hv _ _ _ hx _ => simp [Act.reads, hv.reading, hx.reading]

theorem UserLookup.superuser {u : String} {x : User} {l : List Act}
    (hl : UserLookup u (some x) l) : x.id = u ∧ (x.role = .superuser → SawSuperuser l u) := by
  cases hl with
  | hit y hid => exact ⟨hid, fun hr => .inl ⟨y, by simp, hid, hr⟩⟩
  | warm y hid hd => exact ⟨hid, fun hr => .inr ⟨y, ⟨.byId u, [y], by simp, by simp⟩, hid, hr⟩⟩

theorem GateRun.user {c : Claims} {s : String} {x : User} {l : List Act}
    (hr : GateRun c s (.ok x) l) :
    x.id = c.sub ∧ (x.role = .superuser → SawSuperuser l c.sub) := by
  cases hr with
  | passed t t' l l' v x _ _ _ _ _ hu _ =>
    obtain ⟨hid, hs⟩ := hu.superuser
    refine ⟨hid, fun hr => ?_⟩
    rcases hs hr with ⟨y, hm, hy⟩ | ⟨y, ⟨q, rows, hm, hrow⟩, hy⟩
    · exact .inl ⟨y, by simp [hm], hy⟩
    · exact .inr ⟨y, ⟨q, rows, by simp [hm], hrow⟩, hy⟩

/-- The entry shows that session `s` is revoked or expired, as far as it shows the session at
all; `bound` is no later than any reading of the clock. -/
def Act.Stale (s : String) (bound : Time) : Act → Prop
  | .cacheGot key v => key = .session s → ∀ p : SessionValidation, v = some p.toDict →
      p.revokedAt ≠ none ∨ p.expiresAt < bound
  | .readSessions q rows => q = .byId s → ∀ x ∈ rows, x.revokedAt ≠ none ∨ x.expiresAt < bound
  | .clock t => bound ≤ t
  | _ => True

theorem SessionLookup.stale {s : String} {v : SessionValidation} {l : List Act}
    (hl : SessionLookup s (some v) l) (bound : Time) (hs : ∀ a ∈ l, a.Stale s bound) :
    v.revokedAt ≠ none ∨ v.expiresAt < bound := by
  cases hl with
  | hit hid => exact hs (.cacheGot (.session s) (some v.toDict)) (by simp) rfl v rfl
  | warm row hid => exact hs (.readSessions (.byId s) [row]) (by simp) rfl row (by simp)

theorem GateDone.rejects {cfg : Config} {token : Token} {r : Except Exc User} {h : List Act}
    (hd : GateDone cfg token r h) {c : Claims} {s : String} (hv : cfg.jose.verify token = some c)
    (hs : c.sid = some s) (bound : Time) (hst : ∀ a ∈ h, a.Stale s bound) :
    ∃ m, r = .error (.invalidToken m) := by
  cases hd with
  | refused m l _ _ => exact ⟨m, rfl⟩
  | ran c' s' r l hv' _ hs' _ _ hrun =>
    rw [hv] at hv'
    cases hv'
    rw [hs] at hs'
    cases hs'
    cases hrun with
    | expired _ _ => exact ⟨_, rfl⟩
    | unknown _ _ _ _ => exact ⟨_, rfl⟩
    | inactive _ _ _ _ _ _ _ => exact ⟨_, rfl⟩
    | foreign _ _ _ _ _ _ _ _ _ => exact ⟨_, rfl⟩
    | noUser _ _ _ _ _ _ _ _ _ _ _ => exact ⟨_, rfl⟩
    | barred _ _ _ _ _ _ m _ _ _ _ _ _ _ => exact ⟨m, rfl⟩
    | passed t t' l l' v x _ hlook hexp hrev _ _ _ =>
      rcases hlook.stale bound fun a ha => hst a (by simp [ha]) with hv | hv
      · exact absurd hrev hv
      · have ht : bound ≤ t' := hst (.clock t') (by simp)
        exact absurd (Int.le_trans ht hexp) (Int.not_le.mpr hv)

variable {cfg : Config} {k : Call} {h : List Act} {α : Type} {Q : Except Exc α → List Act → Prop}

theorem traced_lookupSession {s : String} {f : Option SessionValidation → M α}
    (hl : Lawful cfg k h) (hk : k.isGated = true) (hr : Reading h)
    (hd : ∀ key, .cacheDeleted key ∉ h) (hn : ∀ v ttl, .cacheSet (.session s) v ttl ∉ h)
    (hf : ∀ v l, SessionLookup s v l → Lawful cfg k (h ++ l) → Traced cfg k (f v) Q (h ++ l)) :
    Traced cfg k (lookupSession s >>= f) Q h := by
  unfold lookupSession
  rw [bind_assoc]
  refine traced_getJson hl fun v hv hl₁ => ?_
  cases v with
  | some data =>
    obtain ⟨p, hp, rfl⟩ := hv data rfl
    simp only [Option.filter, SessionValidation.toDict, Json.truthy, List.isEmpty_cons, Bool.not_false,
      if_true]
    have hret : (Prog.ret (SessionValidation.fromDict p.toDict) : M SessionValidation) =
      pure p := by
      rw [SessionValidation.fromDict_toDict, Prog.pure_eq]
    have := hf (some p) _ (.hit p hp) hl₁
    rw [← pure_bind (some p) f, ← pure_bind p (fun v => pure (some v) >>= f), ← hret] at this
    rw [bind_assoc]
    exact this
  | none =>
    simp only [Option.filter]
    rw [bind_assoc]
    refine traced_getSessionById hl₁ (by simpa [Open] using hr.opened)
      (by simp [hr.unwritten]) (fun hl₂ => ?_) fun row hid hl₂ => ?_
    · simp only [pure_bind, List.append_assoc, List.cons_append, List.nil_append] at hl₂ ⊢
      exact hf none _ .absent hl₂
    · simp only
      rw [bind_assoc]
      refine traced_setJson hl₂
        ⟨row, hid, rfl, .inr ⟨⟨hk, ?_, ?_, ?_⟩, ⟨[row], by simp, by simp⟩, ?_⟩⟩
        fun hl₃ => ?_
      · simpa [Open] using hr.opened
      · simp [hr.unwritten]
      · simp [hd]
      · simp [hn]
      · simp only [pure_bind, List.append_assoc, List.cons_append, List.nil_append] at hl₃ ⊢
        exact hf _ _ (.warm row hid) hl₃

theorem traced_lookupUser {u : String} {f : User → M α}
    (hl : Lawful cfg k h) (hk : k.isGated = true) (hr : Reading h)
    (hd : ∀ key, .cacheDeleted key ∉ h)
    (hf : ∀ x l, UserLookup u (some x) l → Lawful cfg k (h ++ l) → Traced cfg k (f x) Q (h ++ l))
    (herr : ∀ l, UserLookup u none l →
      Q (.error (.invalidToken "User profile not found")) (h ++ l)) :
    Traced cfg k (lookupUser u >>= f) Q h := by
  unfold lookupUser
  rw [bind_assoc]
  refine traced_getJson hl fun v hv hl₁ => ?_
  cases v with
  | some data =>
    obtain ⟨x, hx, rfl⟩ := hv data rfl
    simp only [Option.filter, User.toDict, Json.truthy, List.isEmpty_cons, Bool.not_false, if_true]
    have hret : (Prog.ret (User.fromDict x.toDict) : M User) = pure x.blank := by
      rw [User.fromDict_toDict, Prog.pure_eq]
    have := hf x.blank _ (.hit x hx) hl₁
    rw [← pure_bind x.blank f, ← hret] at this
    exact this
  | none =>
    simp only [Option.filter]
    rw [bind_assoc]
    refine traced_findUser hl₁ (by simpa [Open] using hr.opened) (by simp [hr.unwritten])
      (fun hl₂ => ?_) (fun x hsel _ hl₂ => ?_) fun rows _ hq => absurd rfl (hq u)
    · simp only [List.append_assoc, List.cons_append, List.nil_append]
      exact herr _ .absent
    · have hx : x.id = u ∧ x.deletedAt = none := by simpa [UserQuery.selects] using hsel
      simp only
      rw [bind_assoc]
      refine traced_setJson hl₂ ⟨x, hx.1, rfl, hx.2, ⟨hk, ?_, ?_, ?_⟩, [x], by simp, by simp⟩
        fun hl₃ => ?_
      · simpa [Open] using hr.opened
      · simp [hr.unwritten]
      · simp [hd]
      · simp only [pure_bind, List.append_assoc, List.cons_append, List.nil_append] at hl₃ ⊢
        exact hf _ _ (.warm x hx.1 hx.2) hl₃

theorem traced_getCurrentUser {token : Token} (hk : k.isGated = true) :
    Traced cfg k (getCurrentUser cfg token) (GateDone cfg token) [] := by
  unfold getCurrentUser
  refine traced_decodeOr (e := .invalidToken "Invalid or expired token") rfl .nil
    (fun c t hv hdec _ hl₁ => ?_) (fun hv => ?_) fun c t hv hdec hl₁ => ?_
  swap
  · exact .refused _ _ (by simp) fun c s hv' => by simp [hv] at hv'
  swap
  · by_cases hacc : c.type = .access ∧ ∃ s, c.sid = some s ∧ s ≠ "" ∧ c.sub ≠ ""
    · obtain ⟨hty, s, hs, hne, hsub⟩ := hacc
      exact .ran c s _ _ hv hty hs hne hsub (.expired t hdec)
    · refine .refused _ _ (by simp) fun c' s hv' hty hs hne hsub => hacc ?_
      rw [hv] at hv'
      cases hv'
      exact ⟨hty, s, hs, hne, hsub⟩
  simp only [List.nil_append] at hl₁ ⊢
  refine traced_raiseIf (fun hty => ?_) fun hty => ?_
  · refine .refused _ _ (by simp) fun c' s hv' hty' => ?_
    rw [hv] at hv'
    cases hv'
    exact absurd hty' hty
  have hty' : c.type = .access := by simpa using hty
  refine traced_raiseIf (fun hids => ?_) fun hids => ?_
  · refine .refused _ _ (by simp) fun c' s hv' _ hs hne hsub => ?_
    rw [hv] at hv'
    cases hv'
    simp [hs, hne, hsub] at hids
  obtain ⟨hsub, hj⟩ : c.sub ≠ "" ∧ c.sid.getD "" ≠ "" := not_or.mp hids
  obtain ⟨s, hs⟩ : ∃ s, c.sid = some s := by
    cases hc : c.sid with
    | none => simp [hc] at hj
    | some s => exact ⟨s, rfl⟩
  rw [hs, Option.getD_some] at hj ⊢
  -- From here on the run is one of the gate's own.
  have hran : ∀ r l, GateRun c s r l → GateDone cfg token r l := fun r l =>
    .ran c s r l hv hty' hs hj hsub
  refine traced_lookupSession hl₁ hk (by simp [Act.reads]) (by simp) (by simp) fun v l hv₁ hl₂ => ?_
  cases v with
  | none => exact hran _ _ (.unknown t l hdec hv₁)
  | some v =>
    simp only
    unfold SessionValidation.isActive
    rw [bind_assoc]
    refine traced_now hl₂ fun t' _ hl₃ => ?_
    rw [pure_bind]
    have hdel : ∀ key, .cacheDeleted key ∉ [Act.clock t] ++ l ++ [Act.clock t'] := by
      cases hv₁ <;> simp
    have hread : Reading ([Act.clock t] ++ l ++ [Act.clock t']) := by
      simp [hv₁.reading, Act.reads]
    refine traced_raiseIf (fun hact => ?_) fun hact => ?_
    · refine hran _ _ (.inactive t t' l v hdec hv₁ ?_)
      by_cases hr : v.revokedAt = none
      · exact .inl (by simpa [SessionValidation.isRevoked, hr] using hact)
      · exact .inr hr
    obtain ⟨hexp, hrev⟩ : t' ≤ v.expiresAt ∧ v.revokedAt = none := by
      simpa [SessionValidation.isRevoked] using hact
    refine traced_raiseIf (fun hown => ?_) fun hown => ?_
    · exact hran _ _ (.foreign t t' l v hdec hv₁ hexp hrev hown)
    have hown' : v.userId = c.sub := by simpa using hown
    have he : ∀ l' : List Act, [Act.clock t] ++ l ++ [Act.clock t'] ++ l' =
        .clock t :: l ++ .clock t' :: l' := by simp
    refine traced_lookupUser hl₃ hk hread hdel (fun x l' hx hl₄ => ?_) fun l' hx => ?_
    · rw [he]
      refine traced_raiseIf (fun hst => ?_) fun hp => ?_
      · exact hran _ _ (.barred t t' l l' v x _ hdec hv₁ hexp hrev hown' hx (by simp [hst]))
      refine traced_raiseIf (fun hst => ?_) fun hsu => ?_
      · exact hran _ _ (.barred t t' l l' v x _ hdec hv₁ hexp hrev hown' hx (by simp [hst]))
      refine traced_raiseIf (fun hst => ?_) fun hb => ?_
      · exact hran _ _ (.barred t t' l l' v x _ hdec hv₁ hexp hrev hown' hx (by simp [hst]))
      refine hran _ _ (.passed t t' l l' v x hdec hv₁ hexp hrev hown' hx ?_)
      cases hst : x.status <;> simp_all
    · rw [he]
      exact hran _ _ (.noUser t t' l l' v hdec hv₁ hexp hrev hown' hx)

def Call.Done (cfg : Config) (k : Call) (r : Except Exc Out) (h : List Act) : Prop :=
  match k with
  | .authenticate _ _ _ _ => ∃ r', r = r'.map Out.login ∧ LoginDone cfg r' h
  | .refreshToken request _ => ∃ r', r = r'.map Out.pair ∧ RefreshDone cfg request r' h
  | .refreshRoute body cookie _ => chosenToken body cookie = none ∧
      r = .error (.invalidToken "Refresh token not provided") ∨
      ∃ request, chosenToken body cookie = some request ∧ ∃ r', r = r'.map Out.pair ∧
        RefreshDone cfg request r' h
  | .getCurrentUser token => ∃ r', r = r'.map Out.user ∧ GateDone cfg token r' h
  | .logout s => r = .ok .done →
      .readSessions (.byId s) [] ∈ h ∨ .committed ∈ h ∧ Ended h s
  | .logoutAll u | .deleteUser u | .deleteUserRoute _ u => r = .ok .done → Massed h u
  | .logoutAllRoute _ => r = .ok .done → ∃ c, k.Presents cfg c ∧ Massed h c.sub
  | .changeStatus u st => ∀ v, r = .ok v → st ∈ lockoutStatuses → Massed h u
  | _ => True

def Handed (cfg : Config) (r : Except Exc Out) (h : List Act) : Prop :=
  ∀ o p, r = .ok o → o.pair? = some p →
    (∃ parent, Issued cfg h parent p) ∨ ∃ s, Replayed cfg h s p

def Call.Finished (cfg : Config) (k : Call) (r : Except Exc Out) (h : List Act) : Prop :=
  ∃ h₀, h = h₀ ++ [.closed] ∧ Tidy h₀ ∧ Handed cfg r h₀ ∧ k.Done cfg r h₀

theorem traced_logoutRoute {token : Token} (hk : k = .logoutRoute token) :
    Traced cfg k (logoutRoute cfg token) (fun _ h' => Tidy h') [] := by
  unfold logoutRoute
  refine (Trace.wp_suppress _ _ _ _).mpr ?_
  refine traced_decodeToken .nil (fun c t hv _ _ hl₁ => ?_)
    (fun _ => tidy_of_uncommitted (by simp)) fun c t _ _ _ => tidy_of_uncommitted (by simp)
  cases hs : c.sid.filter (· ≠ "") with
  | none => exact tidy_of_uncommitted (by simp)
  | some s =>
    have hs' : c.sid = some s := (Option.filter_eq_some_iff.mp hs).1
    have hp : k.Presents cfg c := ⟨token, by simp [hk, Call.tokens], hv⟩
    simp only
    rw [← bind_pure (logout s)]
    refine traced_logout hl₁ (by simp [Act.reads])
      (fun l n hid _ => ⟨c, hp, .inr (.inr ⟨l, n, rfl, .inl (by rw [hs', hid])⟩)⟩)
      (fun l hid => .logoutRoute token c hk hv (by rw [hs', hid]))
      (fun l _ htidy _ => htidy) fun e l _ hc => tidy_of_uncommitted (by simpa using hc)

/-- A route behind the gate: what it does runs with the token's user. -/
theorem traced_gated {token : Token} {f : User → M α} (hk : k.isGated = true)
    (hp : token ∈ k.tokens)
    (hok : ∀ c x l, k.Presents cfg c → x.id = c.sub → (x.role = .superuser → SawSuperuser l c.sub) →
      Reading l → Lawful cfg k l → Traced cfg k (f x) Q l)
    (herr : ∀ e l, .committed ∉ l → Q (.error e) l) :
    Traced cfg k (getCurrentUser cfg token >>= f) Q [] := by
  refine Trace.wp_seq _ .nil (traced_getCurrentUser hk) (fun x l hl hd => ?_) fun e l _ hd => ?_
  · simp only [List.nil_append] at hl hd ⊢
    cases hd with
    | ran c s _ _ hv _ _ _ _ hrun =>
      obtain ⟨hid, hs⟩ := hrun.user
      exact hok c x l ⟨token, hp, hv⟩ hid hs hrun.reading hl
  · simp only [List.nil_append] at hd ⊢
    cases hd with
    | refused m _ hcl _ =>
      refine herr _ _ fun hm => ?_
      obtain ⟨t, ht⟩ := hcl _ hm
      cases ht
    | ran c s _ _ _ _ _ _ _ hrun => exact herr _ _ hrun.reading.opened.1

theorem handed_of_map {β : Type} {f : β → Out} (hf : ∀ b, (f b).pair? = none)
    (r : Except Exc β) : Handed cfg (r.map f) h := by
  intro o p hr hp
  cases r with
  | error e => cases hr
  | ok b =>
    cases hr
    rw [hf] at hp
    cases hp

theorem RefreshDone.handed {request : Token} {r : Except Exc TokenPair}
    (hd : RefreshDone cfg request r h) : Handed cfg (r.map Out.pair) h := by
  intro o p hr hp
  cases r with
  | error e => cases hr
  | ok b =>
    cases hr
    cases hp
    obtain ⟨c, s, -, -, -, hi | hr⟩ := hd.issued _ rfl
    · exact .inl ⟨_, hi⟩
    · exact .inr ⟨s, hr⟩

theorem map_eq_ok {β : Type} {f : β → Out} {r : Except Exc β} {o : Out} (hr : r.map f = .ok o) :
    ∃ b, r = .ok b ∧ f b = o := by
  cases r with
  | error e => cases hr
  | ok b =>
    cases hr
    exact ⟨b, rfl, rfl⟩

def Call.Ran (cfg : Config) (k : Call) (r : Except Exc Out) (h : List Act) : Prop :=
  Tidy h ∧ Handed cfg r h ∧ k.Done cfg r h

theorem Call.ran_error {e : Exc} (hc : .committed ∉ h) (hd : k.Done cfg (.error e) h) :
    k.Ran cfg (.error e) h := by
  refine ⟨tidy_of_uncommitted hc, fun _ _ hr => ?_, hd⟩
  cases hr

section Bodies

theorem traced_listUsers_body {offset limit : Nat} :
    Traced cfg (.listUsers offset limit) ((Call.listUsers offset limit).body cfg)
      ((Call.listUsers offset limit).Ran cfg) [] := by
  simp only [Call.body, listRows, bind_assoc]
  refine traced_perform .countUsers _ .nil ?_ (fun n _ hl₁ => ?_) ?_
  · rintro r ⟨n, rfl⟩
    trivial
  · refine traced_selectUsers hl₁ (by simp [Open, Eff.act]) (by simp [Eff.act])
      fun rows _ hl₂ => ?_
    refine ⟨tidy_of_uncommitted (by simp [Eff.act]), fun o p hr hp => ?_, trivial⟩
    cases hr
    cases hp
  · rintro x ⟨n, ⟨⟩⟩

theorem traced_logout_body {s : String} :
    Traced cfg (.logout s) ((Call.logout s).body cfg) ((Call.logout s).Ran cfg) [] := by
  refine (Trace.wp_map _ _ _ _ _).mpr ?_
  rw [← bind_pure (logout s)]
  refine traced_logout .nil (by simp) (fun l n _ => Call.authorised_of_not_request rfl _)
    (fun l hid => .logout (by rw [hid])) (fun l _ htidy hd => ?_) fun e l _ hc => ?_
  · exact ⟨htidy, handed_of_map (fun _ => rfl) (.ok _), fun _ =>
      hd.imp (fun hm => hm) fun hm => ⟨hm.1, hm.2⟩⟩
  · exact Call.ran_error (by simpa using hc) fun hr => by cases hr

theorem traced_logoutAll_body {u : String} :
    Traced cfg (.logoutAll u) ((Call.logoutAll u).body cfg) ((Call.logoutAll u).Ran cfg) [] := by
  refine (Trace.wp_map _ _ _ _ _).mpr ?_
  rw [← bind_pure (logoutAll u)]
  refine traced_logoutAll .nil rfl (by simp) (fun l n _ => Call.authorised_of_not_request rfl _)
    (fun t active rows t' hrows _ => ?_) fun e l _ hc _ _ _ => ?_
  · obtain ⟨htidy, hmass⟩ := logoutAllTrail_done t t' active (h := []) (by simp) hrows
    exact ⟨htidy, handed_of_map (fun _ => rfl) (.ok _), fun _ => hmass⟩
  · exact Call.ran_error (by simpa using hc) fun hr => by cases hr

theorem traced_getCurrentUser_body {token : Token} :
    Traced cfg (.getCurrentUser token) ((Call.getCurrentUser token).body cfg)
      ((Call.getCurrentUser token).Ran cfg) [] := by
  refine (Trace.wp_map _ _ _ _ _).mpr (Trace.wp_mono _ (traced_getCurrentUser rfl) fun r h hd => ?_)
  refine ⟨tidy_of_uncommitted ?_, handed_of_map (fun _ => rfl) r, r, rfl, hd⟩
  cases hd with
  | refused m _ hcl _ =>
    intro hm
    obtain ⟨t, ht⟩ := hcl _ hm
    cases ht
  | ran c s _ _ _ _ _ _ _ hrun => exact hrun.reading.opened.1

theorem traced_refreshRoute_body {b c : Option Token} {ip : Option String} :
    Traced cfg (.refreshRoute b c ip) ((Call.refreshRoute b c ip).body cfg)
      ((Call.refreshRoute b c ip).Ran cfg) [] := by
  refine (Trace.wp_map _ _ _ _ _).mpr ?_
  unfold refreshRoute
  cases ht : chosenToken b c with
  | none => exact Call.ran_error (by simp) (.inl ⟨ht, rfl⟩)
  | some request =>
    refine Trace.wp_mono _ (traced_refreshToken rfl (by simp [Call.tokens, ht])) fun r h hd => ?_
    exact ⟨hd.tidy, hd.handed, .inr ⟨request, ht, r, rfl, hd⟩⟩

theorem traced_logoutAllRoute_body {t : Token} :
    Traced cfg (.logoutAllRoute t) ((Call.logoutAllRoute t).body cfg)
      ((Call.logoutAllRoute t).Ran cfg) [] := by
  refine (Trace.wp_map _ _ _ _ _).mpr ?_
  refine traced_gated rfl (by simp [Call.tokens]) (fun c x l hp hid _ hread hl => ?_)
    fun e l hc => ?_
  · rw [hid, ← bind_pure (logoutAll c.sub)]
    refine traced_logoutAll hl ⟨c, hp, rfl⟩ hread (fun a n ha _ => ⟨c, hp, .inl ha⟩)
      (fun t active rows t' hrows _ => ?_) fun e l' _ hc _ _ _ => ?_
    · obtain ⟨htidy, hmass⟩ := logoutAllTrail_done t t' active hread.unwritten hrows
      exact ⟨htidy, handed_of_map (fun _ => rfl) (.ok _), fun _ => ⟨c, hp, hmass⟩⟩
    · exact Call.ran_error (by simp [hread.opened.1, hc]) fun hr => by cases hr
  · exact Call.ran_error hc fun hr => by cases hr

theorem traced_updateUserRoute_body {t : Token} {u : String} {p : UserUpdate} :
    Traced cfg (.updateUserRoute t u p) ((Call.updateUserRoute t u p).body cfg)
      ((Call.updateUserRoute t u p).Ran cfg) [] := by
  refine (Trace.wp_map _ _ _ _ _).mpr ?_
  refine traced_gated rfl (by simp [Call.tokens]) (fun c x l hp hid hs hread hl => ?_)
    fun e l hc => ?_
  · refine traced_raiseIf (fun _ => ?_) fun hown => ?_
    · exact Call.ran_error hread.opened.1 trivial
    · refine Trace.wp_mono _ (traced_updateUser hl hread (fun a n ha _ => ⟨c, hp, ?_⟩)
        fun _ _ _ => id) fun r h ht => ⟨ht, handed_of_map (fun _ => rfl) r, trivial⟩
      by_cases hu : x.id = u
      · exact .inl (ha.trans (hu.symm.trans hid))
      · exact .inr (.inl (hs (by simpa [hu] using hown)))
  · exact Call.ran_error hc trivial

theorem traced_deleteUserRoute_body {t : Token} {u : String} :
    Traced cfg (.deleteUserRoute t u) ((Call.deleteUserRoute t u).body cfg)
      ((Call.deleteUserRoute t u).Ran cfg) [] := by
  refine (Trace.wp_map _ _ _ _ _).mpr ?_
  refine traced_gated rfl (by simp [Call.tokens]) (fun c x l hp hid hs hread hl => ?_)
    fun e l hc => ?_
  · unfold requireRole
    refine traced_raiseIf (fun _ => ?_) fun hrole => ?_
    · exact Call.ran_error hread.opened.1 fun hr => by cases hr
    · have hsu : x.role = .superuser := by
        cases hr : x.role <;> simp [hr, UserRole.rank] at hrole ⊢
      refine Trace.wp_mono _ (traced_deleteUser hl rfl hread
        (fun v _ => ⟨c, hp, .inr (.inl (hs hsu))⟩) fun _ _ _ => id) fun r h hd => ?_
      refine ⟨hd.1, handed_of_map (fun _ => rfl) r, fun hr => ?_⟩
      obtain ⟨x, hx, -⟩ := map_eq_ok hr
      exact hd.2 hx
  · exact Call.ran_error hc fun hr => by cases hr

end Bodies

theorem traced_body (k : Call) : Traced cfg k (k.body cfg) (k.Ran cfg) [] := by
  cases k with
  | createUser p =>
    refine (Trace.wp_map _ _ _ _ _).mpr (Trace.wp_mono _ (traced_createUser rfl) fun r h ht => ?_)
    exact ⟨ht, handed_of_map (fun _ => rfl) r, trivial⟩
  | getUser u =>
    refine (Trace.wp_map _ _ _ _ _).mpr ?_
    rw [← bind_pure (getUser u)]
    refine traced_getUser .nil (by simp [Open]) (by simp) (fun x _ _ _ => ?_) ?_
    · exact ⟨tidy_of_uncommitted (by simp), handed_of_map (fun _ => rfl) (.ok _), trivial⟩
    · exact Call.ran_error (by simp) trivial
  | listUsers offset limit => exact traced_listUsers_body
  | updateUser u p =>
    refine (Trace.wp_map _ _ _ _ _).mpr (Trace.wp_mono _ (traced_updateUser .nil (by simp)
      (fun l n _ => Call.authorised_of_not_request rfl _) fun _ _ _ => id) fun r h ht => ?_)
    exact ⟨ht, handed_of_map (fun _ => rfl) r, trivial⟩
  | setPassword u p =>
    refine (Trace.wp_map _ _ _ _ _).mpr (Trace.wp_mono _ (traced_setPassword rfl) fun r h ht => ?_)
    exact ⟨ht, handed_of_map (fun _ => rfl) r, trivial⟩
  | changeStatus u st =>
    refine (Trace.wp_map _ _ _ _ _).mpr (Trace.wp_mono _ (traced_changeStatus rfl) fun r h hd => ?_)
    refine ⟨hd.1, handed_of_map (fun _ => rfl) r, fun v hv hst => ?_⟩
    obtain ⟨x, hx, -⟩ := map_eq_ok hv
    exact hd.2 x hx hst
  | deleteUser u =>
    refine (Trace.wp_map _ _ _ _ _).mpr (Trace.wp_mono _ (traced_deleteUser .nil rfl (by simp)
      (fun v => Call.authorised_of_not_request rfl v) fun _ _ _ => id) fun r h hd => ?_)
    refine ⟨hd.1, handed_of_map (fun _ => rfl) r, fun hv => ?_⟩
    obtain ⟨x, hx, -⟩ := map_eq_ok hv
    exact hd.2 hx
  | authenticate e p d ip =>
    refine (Trace.wp_map _ _ _ _ _).mpr (Trace.wp_mono _ (traced_authenticate rfl) fun r h hd => ?_)
    refine ⟨hd.tidy, fun o pr hr hp => ?_, r, rfl, hd⟩
    obtain ⟨resp, hresp, rfl⟩ := map_eq_ok hr
    cases hp
    exact .inl ⟨none, hd.issued resp hresp⟩
  | refreshToken request ip =>
    refine (Trace.wp_map _ _ _ _ _).mpr (Trace.wp_mono _
      (traced_refreshToken rfl (by simp [Call.tokens])) fun r h hd => ?_)
    exact ⟨hd.tidy, hd.handed, r, rfl, hd⟩
  | logout s => exact traced_logout_body
  | logoutAll u => exact traced_logoutAll_body
  | getCurrentUser token => exact traced_getCurrentUser_body
  | refreshRoute b c ip => exact traced_refreshRoute_body
  | logoutRoute t =>
    refine (Trace.wp_map _ _ _ _ _).mpr (Trace.wp_mono _ (traced_logoutRoute rfl) fun r h ht => ?_)
    exact ⟨ht, handed_of_map (fun _ => rfl) r, trivial⟩
  | logoutAllRoute t => exact traced_logoutAllRoute_body
  | updateUserRoute t u p => exact traced_updateUserRoute_body
  | deleteUserRoute t u => exact traced_deleteUserRoute_body

theorem traced_prog (k : Call) : Traced cfg k (k.prog cfg) (k.Finished cfg) [] := by
  refine (Trace.wp_ensure _ _ _ _ _).mpr (Trace.wp_mono _ (Trace.wp_record _ .nil (traced_body k)) ?_)
  rintro r h ⟨⟨hl, -⟩, hd⟩ r' ⟨⟩
  exact ⟨hl.snoc trivial, h, rfl, hd⟩

end AsyncPulse
