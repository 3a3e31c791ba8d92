import AsyncPulse.EffectFaults
import AsyncPulse.EffectOrder
set_option autoImplicit false

/-! What a program leaves on record when any of its effects may fail. -/

namespace Effect

variable {E : Type → Type} {ε σ χ A α β : Type}

namespace Trace

variable (T : Trace E ε A) (P : List A → Prop)

/-- As `wp`, where every effect may also raise instead of happening, which leaves nothing on
record, or after it. -/
def faultyWp : Prog E ε α → (Except ε α → List A → Prop) → List A → Prop
  | .ret r, Q, h => Q r h
  | .op e k, Q, h => (∀ x, faultyWp (k (.error x)) Q h) ∧
      ∀ r, T.valid h e r → P (h ++ [T.event e r]) ∧ faultyWp (k r) Q (h ++ [T.event e r]) ∧
        ∀ x, faultyWp (k (.error x)) Q (h ++ [T.event e r])

variable {T P} {p : Prog E ε α} {Q : Except ε α → List A → Prop} {h : List A}

theorem faultyWp_mono {P' : List A → Prop} {Q' : Except ε α → List A → Prop}
    (hp : T.faultyWp P p Q h) (hP : ∀ h', P h' → P' h') (hQ : ∀ r h', Q r h' → Q' r h') :
    T.faultyWp P' p Q' h := by
  induction p generalizing h with
  | ret r => exact hQ r h hp
  | op e k ih =>
    refine ⟨fun x => ih _ (hp.1 x), fun r hv => ?_⟩
    obtain ⟨hr, hok, herr⟩ := hp.2 r hv
    exact ⟨hP _ hr, ih _ hok, fun x => ih _ (herr x)⟩

theorem faultyWp_bind (p : Prog E ε α) (f : α → Prog E ε β) (Q : Except ε β → List A → Prop)
    (h : List A) : T.faultyWp P (p >>= f) Q h ↔
      T.faultyWp P p (after (fun x => Q (.error x)) fun a => T.faultyWp P (f a) Q) h := by
  induction p generalizing h with
  | ret r => cases r <;> rfl
  | op e k ih =>
    simp only [Prog.op_bind, faultyWp]
    exact and_congr (forall_congr' fun x => ih _ _) (forall_congr' fun r => imp_congr_right fun _ =>
      and_congr_right fun _ => and_congr (ih r _) (forall_congr' fun x => ih _ _))

theorem faultyWp_tryCatch (p : Prog E ε α) (f : ε → Prog E ε α) (Q : Except ε α → List A → Prop)
    (h : List A) : T.faultyWp P (tryCatch p f) Q h ↔
      T.faultyWp P p (after (fun x => T.faultyWp P (f x) Q) fun a => Q (.ok a)) h := by
  induction p generalizing h with
  | ret r => cases r <;> rfl
  | op e k ih =>
    change ((∀ x, T.faultyWp P (tryCatch (k (.error x)) f) Q _) ∧ ∀ r, _ → _ ∧
      T.faultyWp P (tryCatch (k r) f) Q _ ∧ ∀ x, T.faultyWp P (tryCatch (k (.error x)) f) Q _) ↔ _
    exact and_congr (forall_congr' fun x => ih _ _) (forall_congr' fun r => imp_congr_right fun _ =>
      and_congr_right fun _ => and_congr (ih r _) (forall_congr' fun x => ih _ _))

theorem faultyWp_ensure (p : Prog E ε α) (cleanup : E Unit) (Q : Except ε α → List A → Prop)
    (h : List A) : T.faultyWp P (p.ensure cleanup) Q h ↔
      T.faultyWp P p (fun r h' => T.faultyWp P (.perform cleanup) (fun _ => Q r) h') h := by
  induction p generalizing h with
  | ret r => rfl
  | op e k ih =>
    change ((∀ x, T.faultyWp P ((k (.error x)).ensure cleanup) Q _) ∧ ∀ r, _ → _ ∧
      T.faultyWp P ((k r).ensure cleanup) Q _ ∧
        ∀ x, T.faultyWp P ((k (.error x)).ensure cleanup) Q _) ↔ _
    exact and_congr (forall_congr' fun x => ih _ _) (forall_congr' fun r => imp_congr_right fun _ =>
      and_congr_right fun _ => and_congr (ih r _) (forall_congr' fun x => ih _ _))

theorem faultyWp_map (p : Prog E ε α) (f : α → β) (Q : Except ε β → List A → Prop) (h : List A) :
    T.faultyWp P (f <$> p) Q h ↔ T.faultyWp P p (fun r => Q (r.map f)) h := by
  rw [map_eq_pure_bind, faultyWp_bind]
  constructor <;> intro hp <;> refine faultyWp_mono hp (fun _ => id) fun r h' => ?_ <;>
    cases r <;> exact id

theorem faultyWp_perform {e : E β} {f : β → Prog E ε α} (hbad : ∀ x, Q (.error x) h)
    (hok : ∀ r, T.valid h e r → P (h ++ [T.event e r]) ∧ (∀ x, Q (.error x) (h ++ [T.event e r])) ∧
      ∀ b, r = .ok b → T.faultyWp P (f b) Q (h ++ [T.event e r])) :
    T.faultyWp P (.perform e >>= f) Q h := by
  refine ⟨hbad, fun r hv => ?_⟩
  obtain ⟨hP, herr, hb⟩ := hok r hv
  refine ⟨hP, ?_, herr⟩
  cases r with
  | ok b => exact hb b rfl
  | error x => exact herr x

/-- A run with failures ends as its record says, if `I` ties the states to the records. -/
theorem faultyWp_run {S : Sem E ε σ χ} {i : Nat} {I : σ → List A → Prop}
    (hstep : ∀ {β : Type} (e : E β) c s h r s', I s h → S.step i c s e = some (r, s') →
      T.valid h e r ∧ (P (h ++ [T.event e r]) → I s' (h ++ [T.event e r])))
    {cs : List (Fault ε × χ)} {s s' : σ} {r : Except ε α} (hi : I s h) (hp : T.faultyWp P p Q h)
    (hr : S.faulty.run i cs p s = some (r, s')) : ∃ h', I s' h' ∧ Q r h' := by
  induction p generalizing cs s h with
  | ret r₀ =>
    simp only [Sem.run_ret, Option.some.injEq, Prod.mk.injEq] at hr
    obtain ⟨rfl, rfl⟩ := hr
    exact ⟨h, hi, hp⟩
  | op e k ih =>
    match cs with
    | [] => simp [Sem.run] at hr
    | (f, c) :: cs =>
      cases f with
      | before x => exact ih _ hi (hp.1 x) hr
      | none =>
        cases he : S.step i c s e with
        | none => simp [Sem.run, Sem.faulty, he] at hr
        | some y =>
          simp only [Sem.run, Sem.faulty, he] at hr
          obtain ⟨hv, hi'⟩ := hstep e c s h y.1 y.2 hi he
          obtain ⟨hP, hok, -⟩ := hp.2 y.1 hv
          exact ih _ (hi' hP) hok hr
      | after x =>
        cases he : S.step i c s e with
        | none => simp [Sem.run, Sem.faulty, he] at hr
        | some y =>
          simp only [Sem.run, Sem.faulty, he, Option.map_some] at hr
          obtain ⟨hv, hi'⟩ := hstep e c s h y.1 y.2 hi he
          obtain ⟨hP, -, herr⟩ := hp.2 y.1 hv
          exact ih _ (hi' hP) (herr x) hr

end Trace

theorem Only.faultyWp {asks : {β : Type} → E β → Prop} {T : Trace E ε A} {P I : List A → Prop}
    {p : Prog E ε α} (hp : Only asks p) (hI : ∀ h, I h → P h)
    (hstep : ∀ {β : Type} (e : E β) h r, asks e → T.valid h e r → I h → I (h ++ [T.event e r]))
    {h : List A} (h0 : I h) : T.faultyWp P p (fun _ => I) h := by
  induction p generalizing h with
  | ret r => exact h0
  | op e k ih =>
    refine ⟨fun x => ih _ (hp.2 _ trivial) h0, fun r hv => ?_⟩
    have hi := hstep e h r hp.1 hv h0
    exact ⟨hI _ hi, ih r (hp.2 r trivial) hi, fun x => ih _ (hp.2 _ trivial) hi⟩

theorem Contract.Kept.faulty_run {κ Out : Type} {S : Service E ε σ χ κ Out} {C : Contract S A}
    (K : C.Kept) {J : σ → Prop} {m : Nat → Option κ} {i : Nat} {k : κ}
    (hJ : ∀ {β : Type} (e : E β) c s r s', C.inv m s → J s → S.step i c s e = some (r, s') →
      C.lawful k (C.hist s i ++ [C.event e r]) → J s')
    {p : Prog E ε α} {Q : Except ε α → List A → Prop} {cs : List (Fault ε × χ)} {s s' : σ}
    {r : Except ε α} (hm : m i = some k) (hinv : C.inv m s) (hj : J s)
    (hp : C.faultyWp (C.lawful k) p Q (C.hist s i)) (hr : S.faulty.run i cs p s = some (r, s')) :
    C.inv m s' ∧ Q r (C.hist s' i) ∧ (∀ j, j ≠ i → C.hist s' j = C.hist s j) ∧ J s' := by
  obtain ⟨h', ⟨hi, rfl, hj, hJ'⟩, hq⟩ := Trace.faultyWp_run (K.sole hJ hm)
    ⟨hinv, rfl, fun _ _ => rfl, hj⟩ hp hr
  exact ⟨hi, hq, hj, hJ'⟩

end Effect
