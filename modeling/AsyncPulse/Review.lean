import AsyncPulse.Audit
set_option autoImplicit false

namespace Effect.Trace

variable {E : Type → Type} {ε A α : Type} {T S : Trace E ε A}

/-- A program that is right for more answers and looser records is right for fewer answers and
both specifications of its records. -/
theorem wp_strengthen (he : ∀ {β : Type} (e : E β) r, S.event e r = T.event e r)
    (hv : ∀ {β : Type} h (e : E β) r, S.valid h e r → T.valid h e r) {P P' : List A → Prop}
    {p : Prog E ε α} {Q Q' : Except ε α → List A → Prop} {h : List A} (hp : T.wp P p Q h)
    (hp' : S.wp P' p Q' h) :
    S.wp (fun h => P h ∧ P' h) p (fun r h => Q r h ∧ Q' r h) h := by
  induction p generalizing h with
  | ret r => exact ⟨hp, hp'⟩
  | op e k ih =>
    intro r hr
    obtain ⟨hP, hk⟩ := hp r (hv h e r hr)
    obtain ⟨hP', hk'⟩ := hp' r hr
    rw [← he] at hP hk
    exact ⟨⟨hP, hP'⟩, ih r hk hk'⟩

theorem wp_of_valid (he : ∀ {β : Type} (e : E β) r, S.event e r = T.event e r)
    (hv : ∀ {β : Type} h (e : E β) r, S.valid h e r → T.valid h e r) {P : List A → Prop}
    {p : Prog E ε α} {Q : Except ε α → List A → Prop} {h : List A} (hp : T.wp P p Q h) :
    S.wp P p Q h := by
  induction p generalizing h with
  | ret r => exact hp
  | op e k ih =>
    intro r hr
    have hk := hp r (hv h e r hr)
    rw [← he] at hk
    exact ⟨hk.1, ih r hk.2⟩

end Effect.Trace

namespace Effect.Contract

variable {E : Type → Type} {ε σ χ κ Out A : Type} {S : Service E ε σ χ κ Out} {C : Contract S A}

def Records (C : Contract S A) (s : Sys E ε σ κ Out) : Prop :=
  ∀ i k, s.script i = some k → C.lawful k (C.hist s.world i)

theorem Kept.records_exec (K : C.Kept) {l : Label κ χ} {s s' : Sys E ε σ κ Out} (h : C.Holds s)
    (hl : C.Records s) (hs : S.exec l s = some s') : C.Records s' := by
  intro j k' hj
  cases S.exec_move hs with
  | @call i k s hn ha =>
    obtain ⟨hnil, -⟩ := K.call _ i k _ h.inv (by simp [Sys.script, hn]) ha
    rw [Sys.script_update] at hj
    by_cases hij : j = i
    · subst hij
      rw [Function.update_self, Option.some.injEq] at hj
      rw [← hj, hnil]
      exact (K.prog k).1
    · rw [Function.update_of_ne hij] at hj
      exact hl j k' hj
  | @step i c s k β e f r w hc he =>
    have hk : s.script i = some k := by simp [Sys.script, hc]
    rw [Sys.script_update, ← hk, Function.update_eq_self] at hj
    rw [K.record e i c _ r w he]
    by_cases hij : j = i
    · subst hij
      rw [hk, Option.some.injEq] at hj
      rw [Function.update_self, ← hj]
      exact (h.calls j k _ hc r (K.valid e _ j k c _ r w h.inv hk he)).1
    · rw [Function.update_of_ne hij]
      exact hl j k' hj
  | tick hw =>
    obtain ⟨-, hh⟩ := K.tick _ _ _ _ h.inv hw
    rw [hh]
    exact hl j k' hj

theorem Kept.records (K : C.Kept) {ls : List (Label κ χ)} {s s' : Sys E ε σ κ Out}
    (h : C.Holds s) (hl : C.Records s) (hs : S.execs ls s = some s') : C.Records s' :=
  (S.execs_invariant (P := fun s => C.Holds s ∧ C.Records s) (A := fun _ _ => True)
    (fun _ _ _ h _ hs => ⟨K.exec h.1 hs, K.records_exec h.1 h.2 hs⟩) ⟨h, hl⟩ S.along_trivial hs).2

end Effect.Contract

namespace AsyncPulse
open Effect

variable {γ χ : Type}

/-- What there is to say about the application beyond the audit: a property of the world, what
it lets the surroundings answer, and what the records of the calls and their ends satisfy. -/
structure Review (γ : Type) where
  world : World γ → Prop
  answers : {β : Type} → List Act → Eff β → Except Exc β → Prop
  keeps : Call → List Act → Prop
  ends : Call → Except Exc Out → List Act → Prop

namespace Review

def trace (R : Review γ) (cfg : Config) : Trace Eff Exc Act where
  event := Eff.act
  valid h e r := Answer cfg h e r ∧ R.answers h e r

def contract (R : Review γ) (cfg : Config) (C : MayCache Key Json γ χ) :
    Contract (app cfg C) Act where
  toTrace := R.trace cfg
  hist := World.hist
  inv m w := Provenance cfg C m w ∧ R.world w
  lawful k h := Lawful cfg k h ∧ R.keeps k h
  post k r h := k.Finished cfg r h ∧ R.ends k r h

structure Sound (R : Review γ) (cfg : Config) (C : MayCache Key Json γ χ) : Prop where
  begin : ∀ k, R.keeps k []
  prog : ∀ k, (R.trace cfg).wp (R.keeps k) (k.prog cfg) (R.ends k) []
  answer : ∀ {β : Type} (e : Eff β) m i c w r w', Provenance cfg C m w → R.world w →
    handle cfg C i c w e = some (r, w') → R.answers (w.hist i) e r
  step : ∀ {β : Type} (e : Eff β) m i k c w r w', Provenance cfg C m w → R.world w →
    m i = some k → handle cfg C i c w e = some (r, w') → Lawful cfg k (w.hist i ++ [e.act r]) →
      R.world (w'.log i (e.act r))
  tick : ∀ w t, R.world w → w.clock ≤ t → R.world (w.setClock t)

variable {R : Review γ} {cfg : Config} {C : MayCache Key Json γ χ}

theorem Sound.kept (h : R.Sound cfg C) : (R.contract cfg C).Kept where
  prog k := ⟨⟨.nil, h.begin k⟩, Trace.wp_strengthen (T := records cfg) (S := R.trace cfg)
    (fun _ _ => rfl) (fun _ _ _ hv => hv.1) (traced_prog k) (h.prog k)⟩
  record e i c w r w' hs := (semantics_step hs).1.hist
  valid e m i k c w r w' hinv hm hs := by
    obtain ⟨-, w₁, hh⟩ := semantics_step hs
    exact ⟨hinv.1.answer hh, h.answer e m i c w r w₁ hinv.1 hinv.2 hh⟩
  step e m i k c w r w' hinv hm hs hl := by
    refine ⟨audit_kept.step e m i k c w r w' hinv.1 hm hs hl.1, ?_⟩
    obtain ⟨⟨r', w₁⟩, hh, he⟩ := Option.map_eq_some_iff.mp hs
    simp only [Prod.mk.injEq] at he
    obtain ⟨rfl, rfl⟩ := he
    exact h.step e m i k c w r' w₁ hinv.1 hinv.2 hm hh hl.1
  tick m c w w' hinv ht := by
    obtain ⟨hc, rfl⟩ := app_tick ht
    exact ⟨⟨hinv.1.tick hc, h.tick w _ hinv.2 hc⟩, rfl⟩
  call m i k w hinv hm ha := ⟨hinv.1.idle i hm, hinv.1.call hm ha, hinv.2⟩

variable {w : World γ} {s : State γ} {ls : List (Label Call (Choice χ))}

theorem Sound.holds (h : R.Sound cfg C) (hw : Init C w) (hR : R.world w)
    (hs : (app cfg C).execs ls ⟨w, fun _ => none⟩ = some s) : (R.contract cfg C).Holds s :=
  h.kept.execs (Contract.holds_of_no_calls ⟨.init hw, hR⟩) hs

/-- A review that any system can start from holds in every reachable state. -/
theorem Sound.reachable (h : R.Sound cfg C) (hR : ∀ w, Init C w → R.world w)
    (hr : Reachable cfg C s) : (R.contract cfg C).Holds s := by
  obtain ⟨w, ls, hw, hs⟩ := hr
  exact h.holds hw (hR w hw) hs

theorem Sound.records (h : R.Sound cfg C) (hR : ∀ w, Init C w → R.world w)
    (hr : Reachable cfg C s) {i : Nat} {k : Call} (hk : s.script i = some k) :
    R.keeps k (s.world.hist i) := by
  obtain ⟨w, ls, hw, hs⟩ := hr
  have hstart : (R.contract cfg C).Holds ⟨w, fun _ => none⟩ :=
    Contract.holds_of_no_calls ⟨.init hw, hR w hw⟩
  exact (h.kept.records hstart (fun i k hi => by simp [Sys.script] at hi) hs i k hk).2

end Review

/-- What every program keeps to and leaves behind is true of the records of all calls in every
interleaving. -/
theorem Reachable.programs {cfg : Config} {C : MayCache Key Json γ χ} {s : State γ}
    (hr : Reachable cfg C s) {keeps : Call → List Act → Prop}
    {ends : Call → Except Exc Out → List Act → Prop} (h0 : ∀ k, keeps k [])
    (hp : ∀ k, (records cfg).wp (keeps k) (k.prog cfg) (ends k) []) {i : Nat} {k : Call}
    (hk : s.script i = some k) : keeps k (s.world.hist i) ∧
      ∀ r, s.answer i = some r → ends k r (s.world.hist i) := by
  let R : Review γ := ⟨fun _ => True, fun _ _ _ => True, keeps, ends⟩
  have hsound : R.Sound cfg C :=
    { begin := h0
      prog := fun k => Trace.wp_of_valid (T := AsyncPulse.records cfg) (S := R.trace cfg)
        (fun _ _ => rfl) (fun _ _ _ hv => hv.1) (hp k)
      answer := fun _ _ _ _ _ _ _ _ _ _ => trivial
      step := fun _ _ _ _ _ _ _ _ _ _ _ _ _ => trivial
      tick := fun _ _ _ _ => trivial }
  have htrue : ∀ w, Init C w → R.world w := fun _ _ => trivial
  exact ⟨hsound.records htrue hr hk, fun r hi => ((hsound.reachable htrue hr).post hk hi).2⟩

theorem Reachable.ends {cfg : Config} {C : MayCache Key Json γ χ} {s : State γ}
    (hr : Reachable cfg C s) {ends : Call → Except Exc Out → List Act → Prop}
    (hp : ∀ k, Traced cfg k (k.prog cfg) (ends k) []) {i : Nat} {k : Call} {r : Except Exc Out}
    (hk : s.script i = some k) (hi : s.answer i = some r) : ends k r (s.world.hist i) :=
  (hr.programs (fun _ => .nil) hp hk).2 r hi

theorem Reachable.leaves {cfg : Config} {C : MayCache Key Json γ χ} {s : State γ}
    (hr : Reachable cfg C s) {ends : Call → Except Exc Out → List Act → Prop}
    (hp : ∀ k, (records cfg).wp (fun _ => True) (k.prog cfg) (ends k) []) {i : Nat} {k : Call}
    {r : Except Exc Out} (hk : s.script i = some k) (hi : s.answer i = some r) :
    ends k r (s.world.hist i) :=
  (hr.programs (fun _ => trivial) hp hk).2 r hi

theorem Provenance.of_pending {cfg : Config} {C : MayCache Key Json γ χ} {m : Nat → Option Call}
    {w : World γ} (h : Provenance cfg C m w) {j : Nat} {v : Write} (hv : v ∈ w.pending j) :
    Open (w.hist j) ∧ .wrote v ∈ w.hist j := by
  rw [h.pending j] at hv
  split at hv
  · exact ⟨‹_›, mem_written.mp hv⟩
  · cases hv

end AsyncPulse
