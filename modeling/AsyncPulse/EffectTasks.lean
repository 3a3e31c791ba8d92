import AsyncPulse.EffectProgram
set_option autoImplicit false

namespace Effect

/-- Tasks on one event loop. `now` performs an effect at once. Where it gives `none` the task
waits, and `wake` tells how the effect ends under the choice `χ`. -/
structure EventLoop (E : Type → Type) (ε σ χ κ α : Type) where
  prog : κ → Prog E ε α
  now : {β : Type} → σ → E β → Option (Except ε β × σ)
  wake : {β : Type} → χ → σ → E β → Option (Except ε β × σ)

inductive LoopTurn (κ χ : Type) where
  | start : κ → LoopTurn κ χ
  | wake : Nat → χ → LoopTurn κ χ

structure Tasks (E : Type → Type) (ε σ α : Type) where
  world : σ
  tasks : List (Prog E ε α)

def Prog.returned {E : Type → Type} {ε α : Type} : Prog E ε α → Bool
  | .ret _ => true
  | .op _ _ => false

def Tasks.AtRest {E : Type → Type} {ε σ α : Type} (s : Tasks E ε σ α) : Prop :=
  ∀ p ∈ s.tasks, p.returned = true

instance {E : Type → Type} {ε σ α : Type} (s : Tasks E ε σ α) : Decidable s.AtRest :=
  inferInstanceAs (Decidable (∀ p ∈ s.tasks, p.returned = true))

theorem mem_set_of_ne {α : Type 1} {l : List α} {i : Nat} {x y : α} (z : α) (hi : l[i]? = some y)
    (hx : x ∈ l) (hne : x ≠ y) : x ∈ l.set i z := by
  obtain ⟨j, hj⟩ := List.mem_iff_getElem?.mp hx
  have hij : i ≠ j := by
    rintro rfl
    rw [hi] at hj
    exact hne (Option.some.inj hj).symm
  exact List.mem_of_getElem? ((List.getElem?_set_ne hij).trans hj)

theorem mem_set_self {α : Type 1} {l : List α} {i : Nat} {y : α} (z : α) (hi : l[i]? = some y) :
    z ∈ l.set i z := by
  obtain ⟨h, -⟩ := List.getElem?_eq_some_iff.mp hi
  exact List.mem_set h z

namespace EventLoop

variable {E : Type → Type} {ε σ χ κ α : Type} (L : EventLoop E ε σ χ κ α)

def advance : Prog E ε α → σ → Prog E ε α × σ
  | .ret r, w => (.ret r, w)
  | .op e f, w =>
    match L.now w e with
    | some (r, w') => advance (f r) w'
    | none => (.op e f, w)

/-- One turn of the event loop: one task runs, up to where it waits next. -/
def exec : LoopTurn κ χ → Tasks E ε σ α → Option (Tasks E ε σ α)
  | .start k, s =>
    some ⟨(L.advance (L.prog k) s.world).2, s.tasks ++ [(L.advance (L.prog k) s.world).1]⟩
  | .wake i c, s =>
    match s.tasks[i]? with
    | some (.op e f) =>
      match L.wake c s.world e with
      | some (r, w) => some ⟨(L.advance (f r) w).2, s.tasks.set i (L.advance (f r) w).1⟩
      | none => none
    | _ => none

def execs : List (LoopTurn κ χ) → Tasks E ε σ α → Option (Tasks E ε σ α)
  | [], s => some s
  | l :: ls, s =>
    match L.exec l s with
    | some s' => execs ls s'
    | none => none

inductive Move : LoopTurn κ χ → Tasks E ε σ α → Tasks E ε σ α → Prop where
  | start {k : κ} {s : Tasks E ε σ α} : Move (.start k) s
    ⟨(L.advance (L.prog k) s.world).2, s.tasks ++ [(L.advance (L.prog k) s.world).1]⟩
  | wake {i : Nat} {c : χ} {s : Tasks E ε σ α} {β : Type} {e : E β}
      {f : Except ε β → Prog E ε α} {r : Except ε β} {w : σ} :
    s.tasks[i]? = some (.op e f) → L.wake c s.world e = some (r, w) →
      Move (.wake i c) s ⟨(L.advance (f r) w).2, s.tasks.set i (L.advance (f r) w).1⟩

theorem exec_move {l : LoopTurn κ χ} {s s' : Tasks E ε σ α} (hs : L.exec l s = some s') :
    L.Move l s s' := by
  cases l with
  | start k =>
    cases hs
    exact .start
  | wake i c =>
    simp only [exec] at hs
    split at hs
    · rename_i β e f hi
      split at hs
      · rename_i r w hw
        cases hs
        exact .wake hi hw
      · cases hs
    · cases hs

theorem exec_wake {i : Nat} {c : χ} {s : Tasks E ε σ α} {β : Type} {e : E β}
    {f : Except ε β → Prog E ε α} {r : Except ε β} {w : σ} (hi : s.tasks[i]? = some (.op e f))
    (hw : L.wake c s.world e = some (r, w)) : L.exec (.wake i c) s =
      some ⟨(L.advance (f r) w).2, s.tasks.set i (L.advance (f r) w).1⟩ := by
  simp only [exec, hi, hw]

theorem execs_cons {l : LoopTurn κ χ} {ls : List (LoopTurn κ χ)} {s s₁ : Tasks E ε σ α}
    (hs : L.exec l s = some s₁) : L.execs (l :: ls) s = L.execs ls s₁ := by
  simp only [execs, hs]

theorem execs_invariant {P : Tasks E ε σ α → Prop}
    (hstep : ∀ l s s', P s → L.exec l s = some s' → P s') {ls : List (LoopTurn κ χ)}
    {s s' : Tasks E ε σ α} (h : P s) (hr : L.execs ls s = some s') : P s' := by
  induction ls generalizing s with
  | nil =>
    simp only [execs, Option.some.injEq] at hr
    exact hr ▸ h
  | cons l ls ih =>
    simp only [execs] at hr
    split at hr
    · rename_i s₁ hs
      exact ih (hstep l s s₁ h hs) hr
    · cases hr

def Meets (B : LoopTurn κ χ → Tasks E ε σ α → Prop) : List (LoopTurn κ χ) → Tasks E ε σ α → Prop
  | [], _ => False
  | l :: ls, s => B l s ∨ ∃ s', L.exec l s = some s' ∧ Meets B ls s'

/-- Every turn of the run that has `A` is followed by one that has `B`. -/
def Leads (A B : LoopTurn κ χ → Tasks E ε σ α → Prop) : List (LoopTurn κ χ) → Tasks E ε σ α → Prop
  | [], _ => True
  | l :: ls, s => ∀ s', L.exec l s = some s' → (A l s → L.Meets B ls s') ∧ Leads A B ls s'

/-- A fact that `A` brings about and only `B` undoes is false at the end of a run just when `B`
has followed every `A`, and also the start if the fact was true there. -/
theorem leads_iff {P R : Tasks E ε σ α → Prop} {A B : LoopTurn κ χ → Tasks E ε σ α → Prop}
    (hinv : ∀ l s s', P s → L.exec l s = some s' → P s')
    (hstep : ∀ l s s', P s → L.exec l s = some s' → (R s' ↔ A l s ∨ R s ∧ ¬ B l s))
    {ls : List (LoopTurn κ χ)} {s s' : Tasks E ε σ α} (h : P s) (hr : L.execs ls s = some s') :
    ¬ R s' ↔ L.Leads A B ls s ∧ (R s → L.Meets B ls s) := by
  induction ls generalizing s with
  | nil =>
    simp only [execs, Option.some.injEq] at hr
    subst hr
    simp [Leads, Meets]
  | cons l ls ih =>
    simp only [execs] at hr
    split at hr
    · rename_i s₁ hs
      rw [ih (hinv l s s₁ h hs) hr, hstep l s s₁ h hs]
      simp only [Leads, Meets, hs, Option.some.injEq, forall_eq', exists_eq_left']
      constructor
      · intro h
        refine ⟨⟨fun ha => h.2 (.inl ha), h.1⟩, fun hR => ?_⟩
        by_cases hb : B l s
        · exact .inl hb
        · exact .inr (h.2 (.inr ⟨hR, hb⟩))
      · intro h
        refine ⟨h.1.2, fun hR => ?_⟩
        cases hR with
        | inl ha => exact h.1.1 ha
        | inr hold => exact (h.2 hold.1).resolve_left hold.2
    · cases hr

end EventLoop

end Effect
