import AsyncPulse.Rotation
set_option autoImplicit false

namespace AsyncPulse
open Effect

variable {γ χ : Type} {cfg : Config} {C : MayCache Key Json γ χ}

theorem Reachable.grows {s s' : State γ} {ls : List (Label Call (Choice χ))}
    (hr : Reachable cfg C s) (hs : (app cfg C).execs ls s = some s') :
    s.world.db.Grows s'.world.db := by
  have hrun := (app cfg C).execs_invariant
    (P := fun s' => Reachable cfg C s' ∧ s.world.db.Grows s'.world.db)
    (A := fun _ _ => True) ?_ ⟨hr, .refl _⟩ (app cfg C).along_trivial hs
  · exact hrun.2
  intro l s₁ s₂ hi _ hs₂
  refine ⟨hi.1.exec hs₂, hi.2.trans ?_⟩
  cases hi.1.change hs₂ with
  | idle _ t _ _ hw =>
    rw [hw]
    exact .refl _
  | moved i c k β e f r _ _ _ hmv _ => exact hi.1.provenance.moved_grows hmv

/-- A committed session row stays, no column but the revocation ever changes, and a revocation
is never taken back. -/
theorem sessions_append_only {s s' : State γ} {ls : List (Label Call (Choice χ))}
    (hr : Reachable cfg C s) (hs : (app cfg C).execs ls s = some s') :
    ∀ x ∈ s.world.db.sessions.rows, ∃ y ∈ s'.world.db.sessions.rows,
      y.core = x.core ∧ (x.revokedAt ≠ none → y.revokedAt ≠ none) := by
  intro x hx
  obtain ⟨y, hy, hcore, hrev⟩ := (hr.grows hs).sessions x.id x (Keyed.get_of_mem hx)
  exact ⟨y, Keyed.mem_of_get hy, hcore, hrev⟩

theorem sessions_append_only_refreshed :
    ∃ y ∈ (sampleApp.afterwards refreshOnce signedIn).world.db.sessions.rows,
      y.core = aliceSession.core ∧ (aliceSession.revokedAt ≠ none → y.revokedAt ≠ none) :=
  sessions_append_only signedIn_reachable (Service.execs_afterwards _ (by decide +kernel))
    aliceSession (by decide +kernel)

inductive Descends (d : Database) (y : SessionModel) : SessionModel → Prop where
  | refl : y ∈ d.sessions.rows → Descends d y y
  | step {z x : SessionModel} : Descends d y z → x ∈ d.sessions.rows →
      x.previousSessionId = some z.id → Descends d y x

theorem Descends.mem {d : Database} {y x : SessionModel} (h : Descends d y x) :
    x ∈ d.sessions.rows := by
  cases h with
  | refl hy => exact hy
  | step _ hx _ => exact hx

theorem Descends.root {d : Database} {y x : SessionModel} (h : Descends d y x) :
    y ∈ d.sessions.rows := by
  induction h with
  | refl hy => exact hy
  | step _ _ _ ih => exact ih

namespace Provenance

variable {m : Nat → Option Call} {w : World γ}

theorem inserted (h : Provenance cfg C m w) {x : SessionModel} (hx : x ∈ w.db.sessions.rows) :
    ∃ i k r h₁, .wrote (.insertSession r) ∈ w.hist i ∧ .committed ∈ w.hist i ∧
      x.core = r.core ∧ m i = some k ∧ h₁ ⊆ w.hist i ∧ Opens cfg k h₁ r := by
  obtain ⟨i, r, hw, hc, -, hcore⟩ := h.row _ x (Keyed.get_of_mem hx)
  obtain ⟨k, h₁, h₂, hm, he, -, -, hop⟩ := h.wrote hw
  refine ⟨i, k, r, h₁, hw, hc, hcore, hm, ?_, hop⟩
  rw [he]
  exact List.subset_append_left _ _

theorem parent (h : Provenance cfg C m w) {x : SessionModel} (hx : x ∈ w.db.sessions.rows)
    {p : String} (hp : x.previousSessionId = some p) :
    ∃ z, w.db.sessions.get p = some z ∧ z.revokedAt ≠ none ∧ x.userId = z.userId ∧
      x.deviceInfo = z.deviceInfo ∧ x.expiresAt = z.expiresAt := by
  obtain ⟨i, k, r, h₁, hw, hc, hcore, hm, hsub, hop⟩ := h.inserted hx
  have hrp : r.previousSessionId = some p := (SessionModel.core_previous hcore).symm.trans hp
  obtain ⟨z, hz, hzr⟩ := h.spent ⟨hw, hc, hrp⟩
  refine ⟨z, hz, hzr, ?_⟩
  cases hop.origin with
  | login _ _ _ _ _ _ _ _ hn _ _ _ _ =>
    rw [hn] at hrp
    cases hrp
  | rotation row rows t hprev hk hread hrow _ _ _ hdev hexp _ =>
    rw [hprev] at hrp
    cases hrp
    obtain ⟨z', hz', hzc, -⟩ := h.saw i row ⟨_, rows, hsub hread, hrow⟩
    rw [hz] at hz'
    cases hz'
    have hown : z.userId = r.userId := h.refreshed_owner hm hk hz
    refine ⟨?_, ?_, ?_⟩
    · rw [SessionModel.core_userId hcore, hown]
    · rw [SessionModel.core_deviceInfo hcore, hdev, SessionModel.core_deviceInfo hzc]
    · rw [SessionModel.core_expiresAt hcore, hexp, SessionModel.core_expiresAt hzc]

theorem descendant (h : Provenance cfg C m w) {y x : SessionModel} (hd : Descends w.db y x) :
    x.userId = y.userId ∧ x.deviceInfo = y.deviceInfo ∧ x.expiresAt = y.expiresAt := by
  induction hd with
  | refl _ => exact ⟨rfl, rfl, rfl⟩
  | step hz hx hp ih =>
    obtain ⟨z', hz', -, hu, hdev, hexp⟩ := h.parent hx hp
    rw [Keyed.get_of_mem hz.mem] at hz'
    cases hz'
    exact ⟨hu.trans ih.1, hdev.trans ih.2.1, hexp.trans ih.2.2⟩

theorem lookup_expiresAt (h : Provenance cfg C m w) {i : Nat} {s : String} {l : List Act}
    {v : SessionValidation} (hl : SessionLookup s (some v) l) (hsub : l ⊆ w.hist i)
    {x : SessionModel} (hx : w.db.sessions.get s = some x) : v.expiresAt = x.expiresAt := by
  cases hl with
  | hit hid =>
    have hgot : .cacheGot (.session s) (some v.toDict) ∈ w.hist i := hsub (by simp)
    obtain ⟨j, ttl, hj⟩ := h.got i _ _ hgot
    obtain ⟨x', y, hv, hy, hcore⟩ := h.session_origin hj
    rw [hx] at hy
    cases hy
    rw [SessionValidation.toDict_injective hv]
    exact (SessionModel.core_expiresAt hcore).symm
  | warm row hid =>
    have hread : .readSessions (.byId s) [row] ∈ w.hist i := hsub (by simp)
    obtain ⟨y, hy, hcore, -⟩ := h.saw i row ⟨_, _, hread, by simp⟩
    rw [hid, hx] at hy
    cases hy
    exact (SessionModel.core_expiresAt hcore).symm

end Provenance

theorem Reachable.later {s₀ s : State γ} {ls : List (Label Call (Choice χ))}
    (hr : Reachable cfg C s₀) (hs : (app cfg C).execs ls s₀ = some s) {i : Nat}
    (hi : s₀.script i = none) {t : Time} (ht : .clock t ∈ s.world.hist i) :
    s₀.world.clock ≤ t := by
  have hnil := hr.provenance.idle i hi
  have hrun := (app cfg C).execs_invariant
    (P := fun s => Reachable cfg C s ∧ s₀.world.clock ≤ s.world.clock ∧
      ∀ t, .clock t ∈ s.world.hist i → s₀.world.clock ≤ t)
    (A := fun _ _ => True) ?_ ⟨hr, Int.le_refl _, by simp [hnil]⟩ (app cfg C).along_trivial hs
  · exact hrun.2.2 t ht
  intro l s₁ s₂ hinv _ hs₂
  obtain ⟨hr₁, hclock, hread⟩ := hinv
  refine ⟨hr₁.exec hs₂, ?_⟩
  cases hr₁.change hs₂ with
  | idle _ t' _ ht' hw =>
    rw [hw]
    exact ⟨Int.le_trans hclock ht', hread⟩
  | moved j c k β e f r _ _ _ hmv _ =>
    refine ⟨Int.le_trans hclock hmv.clock, fun t' ht' => ?_⟩
    cases hmv.mem_hist.mp ht' with
    | inl hold => exact hread t' hold
    | inr hnew =>
      rw [← hmv.now t' hnew.2.symm]
      exact Int.le_trans hclock hmv.clock

def aliceSuccessor (t : Int) : SessionModel :=
  { aliceSession with id := "s2", createdAt := seconds t, previousSessionId := some "s1" }

end AsyncPulse
