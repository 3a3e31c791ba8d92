import AsyncPulse.Overtaking
set_option autoImplicit false

namespace AsyncPulse
open Effect

variable {γ χ : Type} {cfg : Config} {C : MayCache Key Json γ χ}

def Json.showsRevoked (v : Json) : Bool :=
  match SessionValidation.fromDict v with
  | .ok p => p.isRevoked
  | .error _ => true

theorem Json.revoked_of_shows {v : Json} (h : v.showsRevoked = true) {p : SessionValidation}
    (hv : v = p.toDict) : p.revokedAt ≠ none := by
  subst hv
  simp only [showsRevoked, SessionValidation.fromDict_toDict, SessionValidation.isRevoked] at h
  exact Option.isSome_iff_ne_none.mp h

/-- Unless the entry is a reading of active sessions that leaves out `x`. -/
def Act.showsActive (x : SessionModel) : Act → Bool
  | .readSessions (.activeOf u _) rows => u ≠ x.userId || rows.any fun a => a.id = x.id
  | _ => true

/-- Before call `i` performs the effect: it does not store an unrevoked projection of a session
that `revoker` has purged, and if `revoker` is about to revoke the sessions of a user as a whole,
those that it has not read as active have expired. -/
def Eff.Settled (revoker i : Nat) (w : World γ) : {β : Type} → Eff β → Prop
  | _, .cacheSet key v _ =>
    match key with
    | .session _ => .cacheDeleted key ∈ w.hist revoker → v.showsRevoked = true
    | _ => True
  | _, .selectSessions q =>
    match q with
    | .unrevokedOf u => i = revoker → ∀ x ∈ (w.view i).sessions.rows, x.userId = u →
        x.revokedAt = none → (w.hist i).all (Act.showsActive x) = true ∨ x.expiresAt < w.clock
    | _ => True
  | _, _ => True

instance (revoker i : Nat) (w : World γ) {β : Type} (e : Eff β) :
    Decidable (e.Settled revoker i w) :=
  match e with
  | .cacheSet key v _ =>
    match key with
    | .session s => decidable_of_iff
        (.cacheDeleted (.session s) ∈ w.hist revoker → v.showsRevoked = true) .rfl
    | .grace _ | .user _ => .isTrue trivial
  | .selectSessions q =>
    match q with
    | .unrevokedOf u => decidable_of_iff
        (i = revoker → ∀ x ∈ (w.view i).sessions.rows, x.userId = u → x.revokedAt = none →
          (w.hist i).all (Act.showsActive x) = true ∨ x.expiresAt < w.clock) .rfl
    | .byId _ | .activeOf _ _ => .isTrue trivial
  | .now | .uuid4 | .encode _ | .hashpw _ | .selectUsers _ | .countUsers | .write _ | .commit
  | .close | .cacheGet _ | .cacheDelete _ => .isTrue trivial

/-- `revoker` is not interfered with, neither while it works nor later. -/
def Settled (revoker : Nat) : Label Call (Choice χ) → State γ → Prop
  | .step i _, s => s.Next i fun _ e => e.Settled revoker i s.world
  | _, _ => True

instance (revoker : Nat) (l : Label Call (Choice χ)) (s : State γ) :
    Decidable (Settled revoker l s) :=
  match l with
  | .step i _ => inferInstanceAs (Decidable (s.Next i _))
  | .call _ _ | .tick _ => .isTrue trivial

section
variable {revoker i : Nat} {c : Choice χ} {s : State γ} {k : Call} {β : Type} {e : Eff β}
  {f : Except Exc β → M Out} {r : Except Exc β}

theorem Settled.set (h : Settled revoker (.step i c) s) (hc : s.calls i = some (k, .op e f))
    {sid : String} {v : Json} {ttl : Option Int} (ha : e.act r = .cacheSet (.session sid) v ttl)
    (hd : .cacheDeleted (.session sid) ∈ s.world.hist revoker) : v.showsRevoked = true := by
  have he := Sys.Next.apply h hc
  cases e <;> cases r <;> simp only [Eff.act, reduceCtorEq, Act.cacheSet.injEq] at ha
  obtain ⟨rfl, rfl, rfl⟩ := ha
  exact he hd

theorem Settled.mass (h : Settled i (.step i c) s) (hc : s.calls i = some (k, .op e f))
    {u : String} {rows : List SessionModel} (ha : e.act r = .readSessions (.unrevokedOf u) rows) :
    ∀ x ∈ (s.world.view i).sessions.rows, x.userId = u → x.revokedAt = none →
      (s.world.hist i).all (Act.showsActive x) = true ∨ x.expiresAt < s.world.clock := by
  have he := Sys.Next.apply h hc
  cases e <;> cases r <;> simp only [Eff.act, reduceCtorEq, Act.readSessions.injEq] at ha
  obtain ⟨rfl, rfl⟩ := ha
  exact he rfl

end

structure Kept (C : MayCache Key Json γ χ) (revoker : Nat) (w : World γ) : Prop where
  purged : ∀ s v, .cacheDeleted (.session s) ∈ w.hist revoker → C.holds w.cache (.session s) v →
    v.showsRevoked = true
  passed : ∀ u rows, .readSessions (.unrevokedOf u) rows ∈ w.hist revoker → ∀ x ∈ rows,
    (∀ t active, .readSessions (.activeOf x.userId t) active ∈ w.hist revoker →
      ∃ a ∈ active, a.id = x.id) ∨ x.expiresAt < w.clock

theorem Kept.exec {revoker : Nat} {s s' : State γ} {l : Label Call (Choice χ)} (hex : C.Exact)
    (hr : Reachable cfg C s) (h : Kept C revoker s.world) (hset : Settled revoker l s)
    (hs : (app cfg C).exec l s = some s') : Kept C revoker s'.world := by
  cases hr.change hs with
  | idle _ t _ ht hw =>
    rw [hw]
    exact ⟨h.purged, fun u rows hm x hx => (h.passed u rows hm x hx).imp_right fun he =>
      Int.lt_of_lt_of_le he ht⟩
  | moved i c k β e f r _ hc _ hmv hl =>
    have hlaw := (Lawful.snoc_iff.mp hl).2
    refine ⟨fun sid v hd hv => ?_, fun u rows hm x hx => ?_⟩
    · rcases hmv.holds _ v hv with ⟨hv, hne⟩ | ⟨ttl, ha⟩
      · rcases hmv.mem_hist.mp hd with hd | ⟨-, hd⟩
        · exact h.purged sid v hd hv
        · exact absurd hd.symm (hne hex)
      · refine hset.set hc ha ?_
        simpa [ha] using hmv.mem_hist.mp hd
    · rcases hmv.mem_hist.mp hm with hm | ⟨rfl, hm⟩
      · rcases h.passed u rows hm x hx with hact | hexp
        · refine .inl fun t active ht => ?_
          rcases hmv.mem_hist.mp ht with ht | ⟨rfl, ht⟩
          · exact hact t active ht
          · rw [← ht] at hlaw
            exact absurd hm ((hlaw.2.2.1 _ _ rfl).2 u rows)
        · exact .inr (Int.lt_of_lt_of_le hexp hmv.clock)
      · have hmass := hset.mass hc hm.symm
        obtain ⟨rank, rfl⟩ := hmv.read _ _ hm.symm
        obtain ⟨hrow, hsel⟩ := SessionQuery.mem_eval.mp hx
        obtain ⟨hxu, hxr⟩ : x.userId = u ∧ x.revokedAt = none := by
          simpa [SessionQuery.selects] using hsel
        rcases hmass x hrow hxu hxr with hall | hexp
        · refine .inl fun t active ht => ?_
          have ht' : .readSessions (.activeOf x.userId t) active ∈ s.world.hist revoker := by
            rcases hmv.mem_hist.mp ht with ht | ⟨-, ht⟩
            · exact ht
            · rw [← hm] at ht
              cases ht
          have := List.all_eq_true.mp hall _ ht'
          simpa [Act.showsActive] using this
        · exact .inr (Int.lt_of_lt_of_le hexp hmv.clock)

structure Final (revoker gate : Nat) (sid : String) (bound : Time) (w : World γ) : Prop where
  row : ∃ y, w.db.sessions.get sid = some y ∧ y.revokedAt ≠ none ∧
    (.cacheDeleted (.session sid) ∈ w.hist revoker ∨ y.expiresAt < bound)
  since : bound ≤ w.clock
  stale : ∀ a ∈ w.hist gate, a.Stale sid bound

theorem Provenance.holds_expiresAt {m : Nat → Option Call} {w : World γ} (h : Provenance cfg C m w)
    {sid : String} {p : SessionValidation} {y : SessionModel}
    (hy : w.db.sessions.get sid = some y) (hp : C.holds w.cache (.session sid) p.toDict) :
    p.expiresAt = y.expiresAt := by
  obtain ⟨j, ttl, hj⟩ := h.cached _ _ hp
  obtain ⟨x, y', hv, hy', hcore⟩ := h.session_origin hj
  rw [hy] at hy'
  cases hy'
  rw [SessionValidation.toDict_injective hv]
  exact (SessionModel.core_expiresAt hcore).symm

theorem Final.exec {revoker gate : Nat} {sid : String} {bound : Time} {s s' : State γ}
    {l : Label Call (Choice χ)} (hr : Reachable cfg C s) (hk : Kept C revoker s.world)
    (h : Final revoker gate sid bound s.world) (hs : (app cfg C).exec l s = some s') :
    Final revoker gate sid bound s'.world := by
  have hp := hr.provenance
  obtain ⟨y, hy, hrev, hend⟩ := h.row
  cases hr.change hs with
  | idle _ t _ ht hw =>
    rw [hw]
    exact ⟨h.row, Int.le_trans h.since ht, h.stale⟩
  | moved i c k β e f r _ hc _ hmv hl =>
    obtain ⟨y', hy', hcore, hrev'⟩ := (hp.moved_grows hmv).sessions sid y hy
    refine ⟨⟨y', hy', hrev' hrev, ?_⟩, Int.le_trans h.since hmv.clock, fun a ha => ?_⟩
    · rw [SessionModel.core_expiresAt hcore]
      exact hend.imp_left fun hd => hmv.mem_hist.mpr (.inl hd)
    rcases hmv.mem_hist.mp ha with ha | ⟨-, rfl⟩
    · exact h.stale a ha
    cases hact : e.act r with
    | cacheGot key v =>
      rintro rfl p rfl
      have hv := hmv.got _ _ hact
      rcases hend with hd | hexp
      · exact .inl (Json.revoked_of_shows (hk.purged sid _ hd hv) rfl)
      · exact .inr ((hp.holds_expiresAt hy hv).symm ▸ hexp)
    | readSessions q rows =>
      rintro rfl x hx
      obtain ⟨rank, rfl⟩ := hmv.read _ _ hact
      obtain ⟨hrow, hsel⟩ := SessionQuery.mem_eval.mp hx
      have hid : x.id = sid := by simpa [SessionQuery.selects] using hsel
      obtain ⟨z, hz, -, hzr⟩ := (hp.grows_view i).sessions sid y hy
      rw [← hid, Keyed.get_of_mem hrow] at hz
      cases hz
      exact .inl (hzr hrev)
    | clock t => exact Int.le_trans h.since (hmv.now t hact ▸ hmv.clock)
    | _ => trivial

/-- The gate turns away the tokens of a session that an earlier call has revoked, as long as
the call was not interfered with. -/
theorem revocation_final {revoker gate : Nat} {s₀ s₁ s₂ : State γ}
    {ls₁ ls₂ : List (Label Call (Choice χ))} {r₁ r : Except Exc Out} {l n : SessionModel}
    {token : Token} {c : Claims} (hex : C.Exact) (hr : Reachable cfg C s₀)
    (hnew : s₀.script revoker = none) (hs₁ : (app cfg C).execs ls₁ s₀ = some s₁)
    (hans₁ : s₁.answer revoker = some r₁) (hcom : .committed ∈ s₁.world.hist revoker)
    (hup : .wrote (.updateSession l n) ∈ s₁.world.hist revoker)
    (hlater : s₁.script gate = none) (hs₂ : (app cfg C).execs ls₂ s₁ = some s₂)
    (hset : (app cfg C).Along (Settled revoker) (ls₁ ++ ls₂) s₀)
    (hk : s₂.script gate = some (.getCurrentUser token)) (hans : s₂.answer gate = some r)
    (hv : cfg.jose.verify token = some c) (hsid : c.sid = some l.id) :
    ∃ m, r = .error (.invalidToken m) := by
  obtain ⟨hset₁, hset₂⟩ := (app cfg C).along_append.mp hset
  have hr₁ := hr.execs hs₁
  have hr₂ := hr₁.execs hs₂
  have hkept₀ : Kept C revoker s₀.world := by
    have hnil := hr.provenance.idle revoker hnew
    exact ⟨fun s v hd => by simp [hnil] at hd, fun u rows hm => by simp [hnil] at hm⟩
  have hkept₁ : Kept C revoker s₁.world := ((app cfg C).execs_invariant
    (P := fun s => Reachable cfg C s ∧ Kept C revoker s.world)
    (fun l s s' hi hl hs => ⟨hi.1.exec hs, hi.2.exec hex hi.1 hl hs⟩) ⟨hr, hkept₀⟩ hset₁ hs₁).2
  have hp₁ := hr₁.provenance
  have hfinal₁ : Final revoker gate l.id s₁.world.clock s₁.world := by
    obtain ⟨y, hy, hyr⟩ := hp₁.took revoker _ hup hcom
    refine ⟨⟨y, hy, hyr, ?_⟩, Int.le_refl _, fun a ha => ?_⟩
    · obtain ⟨k₁, hk₁, -⟩ := hp₁.lawful_of_mem hup
      obtain ⟨h₀, he, htidy, -⟩ := hr₁.finished hk₁ hans₁
      rw [he] at hup hcom
      have hpurged := htidy.sessions (by simpa using hcom) l n (by simpa using hup)
      rcases hpurged with hd | ⟨t, active, rows, hact, hmass, hlr, hnot⟩
      · exact .inl (he ▸ List.mem_append_left _ hd)
      · right
        obtain ⟨y', hy', hcore, -⟩ := hp₁.saw revoker l
          ⟨_, rows, he ▸ List.mem_append_left _ hmass, hlr⟩
        rw [hy] at hy'
        cases hy'
        rw [SessionModel.core_expiresAt hcore]
        rcases hkept₁.passed _ rows (he ▸ List.mem_append_left _ hmass) l hlr with hall | hexp
        · obtain ⟨a, ha, hid⟩ := hall t active (he ▸ List.mem_append_left _ hact)
          exact absurd hid (hnot a ha)
        · exact hexp
    · rw [hp₁.idle gate hlater] at ha
      simp at ha
  have hfinal₂ : Final revoker gate l.id s₁.world.clock s₂.world := ((app cfg C).execs_invariant
    (P := fun s => Reachable cfg C s ∧ Kept C revoker s.world ∧
      Final revoker gate l.id s₁.world.clock s.world)
    (fun l s s' hi hl hs => ⟨hi.1.exec hs, hi.2.1.exec hex hi.1 hl hs,
      hi.2.2.exec hi.1 hi.2.1 hs⟩) ⟨hr₁, hkept₁, hfinal₁⟩ (hset₂ s₁ hs₁) hs₂).2.2
  obtain ⟨h₀, he, -, -, r', rfl, hd⟩ := hr₂.finished hk hans
  obtain ⟨m, rfl⟩ := hd.rejects hv hsid s₁.world.clock fun a ha =>
    hfinal₂.stale a (he ▸ List.mem_append_left _ ha)
  exact ⟨m, rfl⟩

def passGate (i n : Nat) : List (Label Call (Choice Unit)) :=
  .call i (.getCurrentUser (accessToken "s1" 901)) :: effects i n 5 ""

/-- The gate reads the cache entry of `s1` before the rotation deletes it. -/
def gateCrossed : List (Label Call (Choice Unit)) :=
  .call 1 (.refreshToken (refreshTokenOf "s1") none) ::
    (effects 1 7 3 "s2" ++ passGate 2 2 ++ effects 1 13 5 "s2")

def rotatedAway : State (TimedStore Key Json) := sampleApp.afterwards gateCrossed signedIn

def turnedAway : State (TimedStore Key Json) :=
  sampleApp.afterwards (effects 2 5 5 "" ++ passGate 3 6) rotatedAway

theorem revocation_final_rotated :
    rotatedAway.answer 1 =
      some (.ok (.pair ⟨accessToken "s2" 905, refreshTokenOf "s2", "bearer"⟩)) ∧
    rotatedAway.answer 2 = none ∧ turnedAway.answer 2 = some (.ok (.user alice.toEntity)) ∧
    ∃ r, turnedAway.answer 3 = some r ∧ ∃ m, r = .error (.invalidToken m) := by
  have hans : turnedAway.answer 3 =
      some (.error (.invalidToken "Session is invalid or has been logged out")) := by
    decide +kernel
  have hans₁ : rotatedAway.answer 1 =
      some (.ok (.pair ⟨accessToken "s2" 905, refreshTokenOf "s2", "bearer"⟩)) := by
    decide +kernel
  have hs₁ : sampleApp.execs gateCrossed signedIn = some rotatedAway :=
    Service.execs_afterwards _ (by decide +kernel)
  have hs₂ : sampleApp.execs (effects 2 5 5 "" ++ passGate 3 6) rotatedAway = some turnedAway :=
    Service.execs_afterwards _ (by decide +kernel)
  refine ⟨hans₁, by decide +kernel, by decide +kernel, _, hans, ?_⟩
  exact revocation_final (l := aliceSession)
    (n := { aliceSession with revokedAt := some (seconds 3) })
    TimedStore.reliable_exact signedIn_reachable (show signedIn.script 1 = none by decide +kernel)
    hs₁ hans₁ (by decide +kernel) (by decide +kernel) (show Sys.script _ 3 = none by decide +kernel)
    hs₂ (by decide +kernel)
    (show Sys.script _ 3 = some (Call.getCurrentUser (accessToken "s1" 901)) by decide +kernel)
    hans rfl rfl

/-- The gate reads the row of `s1` between the delete of the cache entry and the commit, and
warms the cache with it. -/
def rotationOvertaken : List (Label Call (Choice Unit)) :=
  .call 1 (.refreshToken (refreshTokenOf "s1") none) ::
    (effects 1 8 3 "" ++ passGate 2 9 ++ effects 1 12 5 "s2")

/-- The rotation has revoked `s1` and returned, and yet a request that comes later passes. -/
theorem rotation_overtaken : ∃ s₁ s₂, Reachable sampleConfig TimedStore.reliable signedIn ∧
    sampleApp.execs rotationOvertaken signedIn = some s₁ ∧
    s₁.answer 1 = some (.ok (.pair ⟨accessToken "s2" 905, refreshTokenOf "s2", "bearer"⟩)) ∧
    (s₁.world.db.sessions.get "s1").bind SessionModel.revokedAt = some (seconds 3) ∧
    s₁.script 3 = none ∧ sampleApp.execs (passGate 3 5) s₁ = some s₂ ∧
    s₂.answer 3 = some (.ok (.user alice.toEntity.blank)) := by
  refine ⟨_, _, signedIn_reachable, Service.execs_afterwards _ (by decide +kernel),
    by decide +kernel, by decide +kernel, by decide +kernel,
    Service.execs_afterwards _ (by decide +kernel), by decide +kernel⟩

end AsyncPulse
