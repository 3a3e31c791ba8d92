import AsyncPulse.EffectTrace
import Mathlib.Logic.Function.Basic
set_option autoImplicit false

namespace Effect

/-- What one effect does. The caller is identified by a number, and the choice `χ`
resolves everything the program cannot foresee; `none` means that the effect cannot
happen now under this choice. -/
structure Sem (E : Type → Type) (ε σ χ : Type) where
  step : {β : Type} → Nat → χ → σ → E β → Option (Except ε β × σ)

def Sem.run {E : Type → Type} {ε σ χ α : Type} (S : Sem E ε σ χ) (i : Nat) :
    List χ → Prog E ε α → σ → Option (Except ε α × σ)
  | _, .ret r, s => some (r, s)
  | [], .op _ _, _ => none
  | c :: cs, .op e k, s =>
    match S.step i c s e with
    | some (r, s') => S.run i cs (k r) s'
    | none => none

theorem Sem.run_ret {E : Type → Type} {ε σ χ α : Type} {S : Sem E ε σ χ} {i : Nat} (cs : List χ)
    (r : Except ε α) (s : σ) : S.run i cs (.ret r) s = some (r, s) := by
  rw [Sem.run]

theorem Sem.run_op {E : Type → Type} {ε σ χ α β : Type} {S : Sem E ε σ χ} {i : Nat} {c : χ}
    {cs : List χ} {s s' : σ} {e : E β} {k : Except ε β → Prog E ε α} {r : Except ε β}
    (h : S.step i c s e = some (r, s')) : S.run i (c :: cs) (.op e k) s = S.run i cs (k r) s' := by
  simp only [Sem.run, h]

/-- A program that runs alone ends as its record says, if `I` ties the states to the records. -/
theorem Trace.wp_run {E : Type → Type} {ε σ χ A α : Type} (T : Trace E ε A) {P : List A → Prop}
    {S : Sem E ε σ χ} {i : Nat} {I : σ → List A → Prop}
    (hstep : ∀ {β : Type} (e : E β) c s h r s', I s h → S.step i c s e = some (r, s') →
      T.valid h e r ∧ (P (h ++ [T.event e r]) → I s' (h ++ [T.event e r])))
    {p : Prog E ε α} {Q : Except ε α → List A → Prop} {cs : List χ} {s s' : σ} {h : List A}
    {r : Except ε α} (hi : I s h) (hp : T.wp P p Q h) (hr : S.run i cs p s = some (r, s')) :
    ∃ h', I s' h' ∧ Q r h' := by
  induction p generalizing cs s h with
  | ret r₀ =>
    simp only [Sem.run, Option.some.injEq, Prod.mk.injEq] at hr
    obtain ⟨rfl, rfl⟩ := hr
    exact ⟨h, hi, hp⟩
  | op e f ih =>
    cases cs with
    | nil => simp [Sem.run] at hr
    | cons c cs =>
      simp only [Sem.run] at hr
      split at hr
      · rename_i r₁ s₁ he
        obtain ⟨hv, hi'⟩ := hstep e c s h r₁ s₁ hi he
        obtain ⟨hl, hw⟩ := hp r₁ hv
        exact ih r₁ (hi' hl) hw hr
      · cases hr

theorem Sem.run_suppress {E : Type → Type} {ε σ χ α : Type} {S : Sem E ε σ χ} {i : Nat}
    {p : Prog E ε Unit} {f : Unit → α} {cleanup : E Unit} {cs : List χ} {s s' : σ}
    {r : Except ε α} (hr : S.run i cs ((f <$> p.suppress).ensure cleanup) s = some (r, s')) :
    r = .ok (f ()) := by
  have hall : ∀ {β : Type} (q : Prog E ε β) (h : List Unit),
      (Trace.mk (fun _ _ => ()) fun _ _ _ => True : Trace E ε Unit).wp (fun _ => True) q
        (fun _ _ => True) h := by
    intro β q h
    induction q generalizing h with
    | ret r => exact trivial
    | op e k ih => exact fun r _ => ⟨trivial, ih r _⟩
  have hp : (Trace.mk (fun _ _ => ()) fun _ _ _ => True : Trace E ε Unit).wp (fun _ => True)
      ((f <$> p.suppress).ensure cleanup) (fun r _ => r = .ok (f ())) [] := by
    apply (Trace.wp_ensure _ _ _ _ _).mpr
    apply (Trace.wp_map _ _ _ _ _).mpr
    apply (Trace.wp_suppress _ _ _ _).mpr
    apply Trace.wp_mono _ (hall p [])
    intro r h _ x _
    exact ⟨trivial, rfl⟩
  obtain ⟨-, -, hq⟩ := Trace.wp_run _ (I := fun _ _ => True) (fun _ _ _ _ _ _ _ _ =>
    ⟨trivial, fun _ => trivial⟩) trivial hp hr
  exact hq

/-- `P` holds of every effect of a program that runs alone, of the choice that resolves it and of
the state that it meets. -/
def Sem.Throughout {E : Type → Type} {ε σ χ α : Type} (S : Sem E ε σ χ) (i : Nat)
    (P : χ → σ → (β : Type) → E β → Prop) : List χ → Prog E ε α → σ → Prop
  | _, .ret _, _ => True
  | [], .op _ _, _ => True
  | c :: cs, .op e k, s =>
    P c s _ e ∧ ∀ r s', S.step i c s e = some (r, s') → S.Throughout i P cs (k r) s'

instance Sem.decidableThroughout {E : Type → Type} {ε σ χ α : Type} {S : Sem E ε σ χ} {i : Nat}
    {P : χ → σ → (β : Type) → E β → Prop} [∀ c s β e, Decidable (P c s β e)] :
    (cs : List χ) → (p : Prog E ε α) → (s : σ) → Decidable (S.Throughout i P cs p s)
  | _, .ret _, _ => .isTrue (by simp [Sem.Throughout])
  | [], .op _ _, _ => .isTrue (by simp [Sem.Throughout])
  | c :: cs, .op e k, s =>
    match h : S.step i c s e with
    | none => decidable_of_iff (P c s _ e) ⟨fun hp => ⟨hp, by simp [h]⟩, fun hp => hp.1⟩
    | some (r, s') =>
      have : Decidable (S.Throughout i P cs (k r) s') := decidableThroughout cs (k r) s'
      decidable_of_iff (P c s _ e ∧ S.Throughout i P cs (k r) s') ⟨fun hp => ⟨hp.1, fun r₁ s₁ he => by
        rw [h] at he
        cases he
        exact hp.2⟩, fun hp => ⟨hp.1, hp.2 r s' h⟩⟩

theorem Sem.Throughout.invariant {E : Type → Type} {ε σ χ α : Type} {S : Sem E ε σ χ} {i : Nat}
    {P : χ → σ → (β : Type) → E β → Prop} {J : σ → Prop}
    (hstep : ∀ {β : Type} (e : E β) c s r s', J s → P c s β e → S.step i c s e = some (r, s') → J s')
    {cs : List χ} {p : Prog E ε α} {s s' : σ} {r : Except ε α} (h : S.Throughout i P cs p s)
    (hj : J s) (hr : S.run i cs p s = some (r, s')) : J s' := by
  induction p generalizing cs s with
  | ret r₀ =>
    simp only [Sem.run, Option.some.injEq, Prod.mk.injEq] at hr
    exact hr.2 ▸ hj
  | op e f ih =>
    cases cs with
    | nil => simp [Sem.run] at hr
    | cons c cs =>
      simp only [Sem.run] at hr
      split at hr
      · rename_i r₁ s₁ he
        exact ih r₁ (h.2 r₁ s₁ he) (hstep e c s r₁ s₁ hj h.1 he) hr
      · cases hr

/-- A service answers calls `κ`, each by a program. `accepts` says which calls can arrive in
a state, and `tick` is what the surroundings may do between two effects. -/
structure Service (E : Type → Type) (ε σ χ κ Out : Type) extends Sem E ε σ χ where
  prog : κ → Prog E ε Out
  accepts : κ → σ → Bool
  tick : χ → σ → Option σ

inductive Label (κ χ : Type) where
  | call : Nat → κ → Label κ χ
  | step : Nat → χ → Label κ χ
  | tick : χ → Label κ χ

/-- All calls ever made, each with what is left of its program. A finished call keeps its
number, so no number is given out twice. -/
structure Sys (E : Type → Type) (ε σ κ Out : Type) where
  world : σ
  calls : Nat → Option (κ × Prog E ε Out)

def Sys.script {E : Type → Type} {ε σ κ Out : Type} (s : Sys E ε σ κ Out) (i : Nat) : Option κ :=
  (s.calls i).map Prod.fst

def Sys.answer {E : Type → Type} {ε σ κ Out : Type} (s : Sys E ε σ κ Out) (i : Nat) :
    Option (Except ε Out) :=
  match s.calls i with
  | some (_, .ret r) => some r
  | _ => none

theorem Sys.calls_of_answer {E : Type → Type} {ε σ κ Out : Type} {s : Sys E ε σ κ Out} {i : Nat}
    {k : κ} {r : Except ε Out} (hk : s.script i = some k) (hr : s.answer i = some r) :
    s.calls i = some (k, .ret r) := by
  unfold script at hk
  unfold answer at hr
  split at hr
  · rename_i k' r' hc
    cases hr
    rw [hc] at hk
    cases hk
    exact hc
  · cases hr

def Sys.Next {E : Type → Type} {ε σ κ Out : Type} (s : Sys E ε σ κ Out) (i : Nat)
    (P : (β : Type) → E β → Prop) : Prop :=
  match s.calls i with
  | some (_, .op e _) => P _ e
  | _ => True

instance {E : Type → Type} {ε σ κ Out : Type} (s : Sys E ε σ κ Out) (i : Nat)
    (P : (β : Type) → E β → Prop) [∀ β e, Decidable (P β e)] : Decidable (s.Next i P) :=
  match h : s.calls i with
  | some (_, .op e _) => decidable_of_iff (P _ e) (by simp [Sys.Next, h])
  | some (_, .ret _) => .isTrue (by simp [Sys.Next, h])
  | none => .isTrue (by simp [Sys.Next, h])

theorem Sys.Next.apply {E : Type → Type} {ε σ κ Out β : Type} {s : Sys E ε σ κ Out} {i : Nat}
    {P : (β : Type) → E β → Prop} (h : s.Next i P) {k : κ} {e : E β} {f : Except ε β → Prog E ε Out}
    (hc : s.calls i = some (k, .op e f)) : P β e := by
  unfold Next at h
  rw [hc] at h
  exact h

theorem Sys.script_update {E : Type → Type} {ε σ κ Out : Type} (s : Sys E ε σ κ Out) (w : σ)
    (i : Nat) (k : κ) (p : Prog E ε Out) :
    Sys.script ⟨w, Function.update s.calls i (some (k, p))⟩ =
      Function.update s.script i (some k) := by
  funext j
  by_cases hij : j = i
  · subst hij
    simp [Sys.script]
  · simp [Sys.script, Function.update_of_ne hij]

namespace Service

variable {E : Type → Type} {ε σ χ κ Out α : Type} (S : Service E ε σ χ κ Out)

def exec : Label κ χ → Sys E ε σ κ Out → Option (Sys E ε σ κ Out)
  | .call i k, s =>
    match s.calls i, S.accepts k s.world with
    | none, true => some { s with calls := Function.update s.calls i (some (k, S.prog k)) }
    | _, _ => none
  | .step i c, s =>
    match s.calls i with
    | some (k, .op e f) =>
      match S.step i c s.world e with
      | some (r, w) => some ⟨w, Function.update s.calls i (some (k, f r))⟩
      | none => none
    | _ => none
  | .tick c, s => (S.tick c s.world).map fun w => { s with world := w }

def execs : List (Label κ χ) → Sys E ε σ κ Out → Option (Sys E ε σ κ Out)
  | [], s => some s
  | l :: ls, s =>
    match S.exec l s with
    | some s' => execs ls s'
    | none => none

inductive Move : Label κ χ → Sys E ε σ κ Out → Sys E ε σ κ Out → Prop where
  | call {i : Nat} {k : κ} {s : Sys E ε σ κ Out} : s.calls i = none → S.accepts k s.world = true →
    Move (.call i k) s { s with calls := Function.update s.calls i (some (k, S.prog k)) }
  | step {i : Nat} {c : χ} {s : Sys E ε σ κ Out} {k : κ} {β : Type} {e : E β}
      {f : Except ε β → Prog E ε Out} {r : Except ε β} {w : σ} :
    s.calls i = some (k, .op e f) → S.step i c s.world e = some (r, w) →
      Move (.step i c) s ⟨w, Function.update s.calls i (some (k, f r))⟩
  | tick {c : χ} {s : Sys E ε σ κ Out} {w : σ} : S.tick c s.world = some w →
    Move (.tick c) s { s with world := w }

theorem exec_move {l : Label κ χ} {s s' : Sys E ε σ κ Out} (hs : S.exec l s = some s') :
    S.Move l s s' := by
  cases l with
  | call i k =>
    simp only [exec] at hs
    split at hs
    · rename_i hn ha
      cases hs
      exact .call hn ha
    · cases hs
  | step i c =>
    simp only [exec] at hs
    split at hs
    · rename_i k β e f hc
      split at hs
      · rename_i r w he
        cases hs
        exact .step hc he
      · cases hs
    · cases hs
  | tick c =>
    obtain ⟨w, hw, rfl⟩ := Option.map_eq_some_iff.mp hs
    exact .tick hw

def afterwards (ls : List (Label κ χ)) (s : Sys E ε σ κ Out) : Sys E ε σ κ Out :=
  (S.execs ls s).getD s

theorem execs_afterwards {ls : List (Label κ χ)} {s : Sys E ε σ κ Out}
    (h : (S.execs ls s).isSome = true) : S.execs ls s = some (S.afterwards ls s) := by
  obtain ⟨s', hs'⟩ := Option.isSome_iff_exists.mp h
  rw [afterwards, hs', Option.getD_some]

def Along (P : Label κ χ → Sys E ε σ κ Out → Prop) :
    List (Label κ χ) → Sys E ε σ κ Out → Prop
  | [], _ => True
  | l :: ls, s => P l s ∧ ∀ s', S.exec l s = some s' → Along P ls s'

instance decidableAlong {P : Label κ χ → Sys E ε σ κ Out → Prop} [∀ l s, Decidable (P l s)] :
    (ls : List (Label κ χ)) → (s : Sys E ε σ κ Out) → Decidable (S.Along P ls s)
  | [], _ => .isTrue trivial
  | l :: ls, s =>
    match h : S.exec l s with
    | none => decidable_of_iff (P l s) ⟨fun hp => ⟨hp, by simp [h]⟩, fun hp => hp.1⟩
    | some s' =>
      have : Decidable (S.Along P ls s') := decidableAlong ls s'
      decidable_of_iff (P l s ∧ S.Along P ls s')
        ⟨fun hp => ⟨hp.1, by simp [h, hp.2]⟩, fun hp => ⟨hp.1, hp.2 s' h⟩⟩

theorem execs_singleton {l : Label κ χ} {s : Sys E ε σ κ Out} :
    S.execs [l] s = S.exec l s := by
  simp only [execs]
  cases S.exec l s <;> rfl

theorem execs_append {ls ls' : List (Label κ χ)} {s s' : Sys E ε σ κ Out} :
    S.execs (ls ++ ls') s = some s' ↔
      ∃ s₁, S.execs ls s = some s₁ ∧ S.execs ls' s₁ = some s' := by
  induction ls generalizing s with
  | nil => simp [execs]
  | cons l ls ih =>
    simp only [List.cons_append, execs]
    cases S.exec l s with
    | none => simp
    | some s₁ => exact ih

theorem along_append {P : Label κ χ → Sys E ε σ κ Out → Prop} {ls ls' : List (Label κ χ)}
    {s : Sys E ε σ κ Out} : S.Along P (ls ++ ls') s ↔
      S.Along P ls s ∧ ∀ s₁, S.execs ls s = some s₁ → S.Along P ls' s₁ := by
  induction ls generalizing s with
  | nil => simp [execs, Along]
  | cons l ls ih =>
    simp only [List.cons_append, Along, execs]
    cases S.exec l s with
    | none => simp
    | some s₁ => simp [ih, and_assoc]

/-- Every state met by runs whose moves keep `P` has `P`. -/
theorem execs_invariant {P : Sys E ε σ κ Out → Prop} {A : Label κ χ → Sys E ε σ κ Out → Prop}
    (hstep : ∀ l s s', P s → A l s → S.exec l s = some s' → P s')
    {ls : List (Label κ χ)} {s s' : Sys E ε σ κ Out} (h : P s) (hA : S.Along A ls s)
    (hr : S.execs ls s = some s') : P s' := by
  induction ls generalizing s with
  | nil =>
    simp only [execs, Option.some.injEq] at hr
    exact hr ▸ h
  | cons l ls ih =>
    simp only [execs] at hr
    split at hr
    · rename_i s₁ hs
      exact ih (hstep l s s₁ h hA.1 hs) (hA.2 s₁ hs) hr
    · cases hr

theorem along_trivial {ls : List (Label κ χ)} {s : Sys E ε σ κ Out} :
    S.Along (fun _ _ => True) ls s := by
  induction ls generalizing s with
  | nil => trivial
  | cons l ls ih => exact ⟨trivial, fun s' _ => ih⟩

/-- The call `k`, number `n`, made and answered with nobody else running. The surroundings
move first, by `gap`. -/
def Completed (gap : σ → σ → Prop) (n : Nat) (k : κ) (r : Except ε Out) (s s' : σ) : Prop :=
  ∃ c s₁ cs, S.tick c s = some s₁ ∧ gap s s₁ ∧ S.accepts k s₁ = true ∧
    S.run n cs (S.prog k) s₁ = some (r, s')

theorem Completed.mono {S : Service E ε σ χ κ Out} {gap gap' : σ → σ → Prop} {n : Nat} {k : κ}
    {r : Except ε Out} {s s' : σ} (h : S.Completed gap n k r s s')
    (hgap : ∀ s₁ s₂, gap s₁ s₂ → gap' s₁ s₂) : S.Completed gap' n k r s s' := by
  obtain ⟨c, s₁, cs, ht, hg, h⟩ := h
  exact ⟨c, s₁, cs, ht, hgap s s₁ hg, h⟩

def CompletedUnder (P : χ → σ → (β : Type) → E β → Prop) (gap : σ → σ → Prop) (n : Nat) (k : κ)
    (r : Except ε Out) (s s' : σ) : Prop :=
  ∃ c s₁ cs, S.tick c s = some s₁ ∧ gap s s₁ ∧ S.accepts k s₁ = true ∧
    S.Throughout n P cs (S.prog k) s₁ ∧ S.run n cs (S.prog k) s₁ = some (r, s')

theorem CompletedUnder.completed {S : Service E ε σ χ κ Out}
    {P : χ → σ → (β : Type) → E β → Prop} {gap : σ → σ → Prop} {n : Nat} {k : κ}
    {r : Except ε Out} {s s' : σ} (h : S.CompletedUnder P gap n k r s s') :
    S.Completed gap n k r s s' := by
  obtain ⟨c, s₁, cs, ht, hg, ha, -, hr⟩ := h
  exact ⟨c, s₁, cs, ht, hg, ha, hr⟩

inductive Seq (gap : σ → σ → Prop) : Nat → σ → List (κ × Except ε Out) → Nat → σ → Prop where
  | nil (n : Nat) (s : σ) : Seq gap n s [] n s
  | snoc {n m : Nat} {s s₁ s₂ : σ} {log : List (κ × Except ε Out)} {k : κ} {r : Except ε Out} :
    Seq gap n s log m s₁ → S.Completed gap m k r s₁ s₂ →
      Seq gap n s (log ++ [(k, r)]) (m + 1) s₂

variable {S} {gap : σ → σ → Prop}

theorem Seq.invariant {P : Nat → σ → Prop}
    (hstep : ∀ n k r s s', P n s → S.Completed gap n k r s s' → P (n + 1) s')
    {n m : Nat} {s s' : σ} {log : List (κ × Except ε Out)}
    (h : S.Seq gap n s log m s') (h0 : P n s) : P m s' := by
  induction h with
  | nil => exact h0
  | snoc _ hc ih => exact hstep _ _ _ _ _ (ih h0) hc

theorem Seq.length {n m : Nat} {s s' : σ} {log : List (κ × Except ε Out)}
    (h : S.Seq gap n s log m s') : m = n + log.length := by
  induction h with
  | nil => rfl
  | snoc _ _ ih =>
    rw [List.length_append, List.length_singleton, ih]
    omega

theorem Seq.append {n m p : Nat} {s s₁ s' : σ} {log log' : List (κ × Except ε Out)}
    (h : S.Seq gap n s log m s₁) (h' : S.Seq gap m s₁ log' p s') :
    S.Seq gap n s (log ++ log') p s' := by
  induction h' with
  | nil => simpa using h
  | snoc _ hc ih =>
    rw [← List.append_assoc]
    exact .snoc (ih h) hc

def replay (S : Service E ε σ χ κ Out) (gap : σ → σ → Prop) [DecidableRel gap] :
    List (χ × κ × List χ) → Nat → σ → Option (List (κ × Except ε Out) × σ)
  | [], _, s => some ([], s)
  | (c, k, cs) :: rest, n, s =>
    match S.tick c s with
    | none => none
    | some s₁ =>
      if gap s s₁ ∧ S.accepts k s₁ = true then
        match S.run n cs (S.prog k) s₁ with
        | none => none
        | some (r, s₂) => (replay S gap rest (n + 1) s₂).map fun p => ((k, r) :: p.1, p.2)
      else none

theorem replay_seq [DecidableRel gap] {script : List (χ × κ × List χ)} {n : Nat} {s s' : σ}
    {log : List (κ × Except ε Out)} (h : replay S gap script n s = some (log, s')) :
    S.Seq gap n s log (n + script.length) s' := by
  suffices H : ∀ pre s₀ n₀, S.Seq gap n₀ s₀ pre n s →
      S.Seq gap n₀ s₀ (pre ++ log) (n + script.length) s' from H [] s n (.nil n s)
  induction script generalizing n s log with
  | nil =>
    simp only [replay, Option.some.injEq, Prod.mk.injEq] at h
    obtain ⟨rfl, rfl⟩ := h
    intro pre s₀ n₀ hp
    simpa using hp
  | cons x rest ih =>
    obtain ⟨c, k, cs⟩ := x
    intro pre s₀ n₀ hp
    simp only [replay] at h
    split at h
    · cases h
    · rename_i s₁ ht
      split at h
      · rename_i hg
        split at h
        · cases h
        · rename_i r s₂ hr
          obtain ⟨⟨log', t⟩, hl, he⟩ := Option.map_eq_some_iff.mp h
          simp only [Prod.mk.injEq] at he
          obtain ⟨rfl, rfl⟩ := he
          have hc : S.Completed gap n k r s s₂ := ⟨c, s₁, cs, ht, hg.1, hg.2, hr⟩
          have hs := ih hl (pre ++ [(k, r)]) s₀ n₀ (.snoc hp hc)
          rw [List.append_assoc, List.singleton_append] at hs
          rw [List.length_cons, show n + (rest.length + 1) = n + 1 + rest.length by omega]
          exact hs
      · cases h

theorem replay_snoc [DecidableRel gap] {script : List (χ × κ × List χ)} {c : χ} {k : κ}
    {cs : List χ} {n : Nat} {s s' : σ} {log : List (κ × Except ε Out)}
    (h : replay S gap (script ++ [(c, k, cs)]) n s = some (log, s')) :
    ∃ log₀ s₁ r, replay S gap script n s = some (log₀, s₁) ∧ log = log₀ ++ [(k, r)] ∧
      S.Completed (fun s₂ s₃ => gap s₂ s₃ ∧ S.tick c s₂ = some s₃) (n + script.length) k r s₁ s' := by
  induction script generalizing n s log with
  | nil =>
    simp only [List.nil_append, replay] at h
    split at h
    · cases h
    · rename_i s₁ ht
      split at h
      · rename_i hg
        split at h
        · cases h
        · rename_i r s₂ hr
          simp only [Option.map_some, Option.some.injEq, Prod.mk.injEq] at h
          obtain ⟨rfl, rfl⟩ := h
          exact ⟨[], s, r, rfl, rfl, c, s₁, cs, ht, ⟨hg.1, ht⟩, hg.2, hr⟩
      · cases h
  | cons x rest ih =>
    obtain ⟨c', k', cs'⟩ := x
    simp only [List.cons_append, replay] at h ⊢
    split at h
    · cases h
    · rename_i s₁ ht
      split at h
      · rename_i hg
        split at h
        · cases h
        · rename_i r s₂ hr
          obtain ⟨⟨log', t⟩, hl, he⟩ := Option.map_eq_some_iff.mp h
          simp only [Prod.mk.injEq] at he
          obtain ⟨rfl, rfl⟩ := he
          obtain ⟨log₀, s₃, r₃, h₀, rfl, hc⟩ := ih hl
          refine ⟨(k', r) :: log₀, s₃, r₃, ?_, rfl, ?_⟩
          · simp [if_pos hg, h₀]
          · rw [List.length_cons, show n + (rest.length + 1) = n + 1 + rest.length by omega]
            exact hc
      · cases h

end Service

/-- The calls of a service leave records in its state. `lawful` is what the record of a call
satisfies at any time, `post` what is left at its end, and `inv` ties the state to the
records. -/
structure Contract {E : Type → Type} {ε σ χ κ Out : Type} (S : Service E ε σ χ κ Out)
    (A : Type) extends Trace E ε A where
  hist : σ → Nat → List A
  inv : (Nat → Option κ) → σ → Prop
  lawful : κ → List A → Prop
  post : κ → Except ε Out → List A → Prop

namespace Contract

variable {E : Type → Type} {ε σ χ κ Out A α : Type} {S : Service E ε σ χ κ Out}

structure Kept (C : Contract S A) : Prop where
  prog : ∀ k, C.lawful k [] ∧ C.wp (C.lawful k) (S.prog k) (C.post k) []
  record : ∀ {β : Type} (e : E β) i c s r s', S.step i c s e = some (r, s') →
    C.hist s' = Function.update (C.hist s) i (C.hist s i ++ [C.event e r])
  valid : ∀ {β : Type} (e : E β) m i k c s r s', C.inv m s → m i = some k →
    S.step i c s e = some (r, s') → C.valid (C.hist s i) e r
  step : ∀ {β : Type} (e : E β) m i k c s r s', C.inv m s → m i = some k →
    S.step i c s e = some (r, s') → C.lawful k (C.hist s i ++ [C.event e r]) → C.inv m s'
  tick : ∀ m c s s', C.inv m s → S.tick c s = some s' → C.inv m s' ∧ C.hist s' = C.hist s
  call : ∀ m i k s, C.inv m s → m i = none → S.accepts k s = true →
    C.hist s i = [] ∧ C.inv (Function.update m i (some k)) s

structure Holds (C : Contract S A) (s : Sys E ε σ κ Out) : Prop where
  inv : C.inv s.script s.world
  calls : ∀ i k p, s.calls i = some (k, p) → C.wp (C.lawful k) p (C.post k) (C.hist s.world i)

variable {C : Contract S A}

theorem Kept.exec (K : C.Kept) {l : Label κ χ} {s s' : Sys E ε σ κ Out} (h : C.Holds s)
    (hs : S.exec l s = some s') : C.Holds s' := by
  cases S.exec_move hs with
  | @call i k s hn ha =>
    obtain ⟨hnil, hinv⟩ := K.call _ i k _ h.inv (by simp [Sys.script, hn]) ha
    refine ⟨?_, fun j k' p hj => ?_⟩
    · rw [Sys.script_update]
      exact hinv
    · by_cases hij : j = i
      · subst hij
        simp only [Function.update_self, Option.some.injEq, Prod.mk.injEq] at hj
        obtain ⟨rfl, rfl⟩ := hj
        exact hnil ▸ (K.prog k).2
      · simp only [Function.update_of_ne hij] at hj
        exact h.calls j k' p hj
  | @step i c s k β e f r w hc he =>
    have hk : s.script i = some k := by simp [Sys.script, hc]
    obtain ⟨hl, hw⟩ := h.calls i k _ hc r (K.valid e _ i k c _ r w h.inv hk he)
    have hh := K.record e i c _ r w he
    refine ⟨?_, fun j k' p hj => ?_⟩
    · rw [Sys.script_update, ← hk, Function.update_eq_self]
      exact K.step e _ i k c _ r w h.inv hk he hl
    · change C.wp _ p _ (C.hist w j)
      by_cases hij : j = i
      · subst hij
        simp only [Function.update_self, Option.some.injEq, Prod.mk.injEq] at hj
        obtain ⟨rfl, rfl⟩ := hj
        rw [hh, Function.update_self]
        exact hw
      · simp only [Function.update_of_ne hij] at hj
        rw [hh, Function.update_of_ne hij]
        exact h.calls j k' p hj
  | tick hw =>
    obtain ⟨hi, hh⟩ := K.tick _ _ _ _ h.inv hw
    exact ⟨hi, fun j k p hj => hh ▸ h.calls j k p hj⟩

theorem Kept.execs (K : C.Kept) {ls : List (Label κ χ)} {s s' : Sys E ε σ κ Out}
    (h : C.Holds s) (hs : S.execs ls s = some s') : C.Holds s' :=
  S.execs_invariant (fun _ _ _ h' _ hs' => K.exec h' hs') h S.along_trivial hs

theorem holds_of_no_calls {s : σ} (h : C.inv (fun _ => none) s) : C.Holds ⟨s, fun _ => none⟩ :=
  ⟨h, fun i k p hi => by simp at hi⟩

theorem Holds.post {s : Sys E ε σ κ Out} (h : C.Holds s) {i : Nat} {k : κ} {r : Except ε Out}
    (hk : s.script i = some k) (hr : s.answer i = some r) : C.post k r (C.hist s.world i) :=
  h.calls i k _ (Sys.calls_of_answer hk hr)

def Sole (C : Contract S A) (J : σ → Prop) (m : Nat → Option κ) (i : Nat) (s₀ s : σ)
    (h : List A) : Prop :=
  C.inv m s ∧ C.hist s i = h ∧ (∀ j, j ≠ i → C.hist s j = C.hist s₀ j) ∧ J s

theorem Kept.sole (K : C.Kept) {J : σ → Prop} {m : Nat → Option κ} {i : Nat} {k : κ}
    (hJ : ∀ {β : Type} (e : E β) c s r s', C.inv m s → J s → S.step i c s e = some (r, s') →
      C.lawful k (C.hist s i ++ [C.event e r]) → J s')
    (hm : m i = some k) {s₀ : σ} {β : Type} (e : E β) (c : χ) (s : σ) (h : List A)
    (r : Except ε β) (s' : σ) (hs : C.Sole J m i s₀ s h) (he : S.step i c s e = some (r, s')) :
    C.valid h e r ∧ (C.lawful k (h ++ [C.event e r]) →
      C.Sole J m i s₀ s' (h ++ [C.event e r])) := by
  obtain ⟨hi, rfl, hj, hJ₁⟩ := hs
  have hh := K.record e i c s r s' he
  refine ⟨K.valid e m i k c s r s' hi hm he, fun hl => ?_⟩
  refine ⟨K.step e m i k c s r s' hi hm he hl, by rw [hh, Function.update_self], ?_,
    hJ e c s r s' hi hJ₁ he hl⟩
  intro j hne
  rw [hh, Function.update_of_ne hne, hj j hne]

/-- A call that runs alone: its record is complete at the end, the others' are as before, and
what its lawful effects preserve holds. -/
theorem Kept.run (K : C.Kept) {J : σ → Prop} {m : Nat → Option κ} {i : Nat} {k : κ}
    (hJ : ∀ {β : Type} (e : E β) c s r s', C.inv m s → J s → S.step i c s e = some (r, s') →
      C.lawful k (C.hist s i ++ [C.event e r]) → J s')
    {p : Prog E ε α} {Q : Except ε α → List A → Prop} {cs : List χ} {s s' : σ} {r : Except ε α}
    (hm : m i = some k) (hinv : C.inv m s) (hj : J s) (hp : C.wp (C.lawful k) p Q (C.hist s i))
    (hr : S.run i cs p s = some (r, s')) :
    C.inv m s' ∧ Q r (C.hist s' i) ∧ (∀ j, j ≠ i → C.hist s' j = C.hist s j) ∧ J s' := by
  obtain ⟨h', ⟨hi, rfl, hj, hJ'⟩, hq⟩ := C.wp_run (K.sole hJ hm)
    ⟨hinv, rfl, fun _ _ => rfl, hj⟩ hp hr
  exact ⟨hi, hq, hj, hJ'⟩

end Contract

end Effect
