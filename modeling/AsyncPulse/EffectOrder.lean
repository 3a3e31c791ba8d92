import AsyncPulse.EffectTerms
set_option autoImplicit false

/-! Programs that keep to certain effects. -/

namespace Effect

variable {E : Type → Type} {ε A α β : Type}

def Only (asks : {β : Type} → E β → Prop) (p : Prog E ε α) : Prop :=
  Terms.Keeps ⟨asks, fun _ _ => True⟩ (fun _ => True) p

namespace Only

variable {asks : {β : Type} → E β → Prop} {p : Prog E ε α}

theorem ret {r : Except ε α} : Only asks (.ret r : Prog E ε α) := trivial

theorem pure {a : α} : Only asks (Pure.pure a : Prog E ε α) := trivial

theorem throw {x : ε} : Only asks (MonadExcept.throw x : Prog E ε α) := trivial

theorem perform {e : E α} (he : asks e) : Only asks (.perform e : Prog E ε α) :=
  Terms.Keeps.perform he fun _ _ => trivial

theorem bind {f : α → Prog E ε β} (hp : Only asks p) (hf : ∀ a, Only asks (f a)) :
    Only asks (p >>= f) :=
  Terms.Keeps.bind hp (fun a _ => hf a) fun _ _ => trivial

theorem map {f : α → β} (hp : Only asks p) : Only asks (f <$> p) := by
  rw [map_eq_pure_bind]
  exact hp.bind fun _ => pure

theorem tryCatch {f : ε → Prog E ε α} (hp : Only asks p) (hf : ∀ x, Only asks (f x)) :
    Only asks (tryCatch p f) :=
  Terms.Keeps.tryCatch hp (fun _ _ => trivial) fun x _ => hf x

theorem suppress {p : Prog E ε Unit} (hp : Only asks p) : Only asks p.suppress :=
  Terms.Keeps.suppress hp trivial

theorem raiseIf {c : Prop} [Decidable c] {x : ε} : Only asks (Prog.raiseIf c x : Prog E ε Unit) :=
  Terms.Keeps.raiseIf trivial trivial

theorem forM {xs : List β} {f : β → Prog E ε Unit} (hf : ∀ b, Only asks (f b)) :
    Only asks (xs.forM f) :=
  Terms.Keeps.forM trivial fun b _ => hf b

theorem mono {asks' : {β : Type} → E β → Prop} (hp : Only asks p)
    (h : ∀ {β : Type} (e : E β), asks e → asks' e) : Only asks' p := by
  induction p with
  | ret r => trivial
  | op e k ih => exact ⟨h e hp.1, fun r _ => ih r (hp.2 r trivial)⟩

theorem wp_and {T : Trace E ε A} {P I : List A → Prop} {Q : Except ε α → Prop}
    (hp : Terms.Keeps ⟨asks, fun _ _ => True⟩ Q p) (hI : ∀ h, I h → P h)
    (hstep : ∀ {β : Type} (e : E β) h r, asks e → I h → I (h ++ [T.event e r])) {h : List A}
    (h0 : I h) : T.wp P p (fun r h => Q r ∧ I h) h := by
  induction p generalizing h with
  | ret r => exact ⟨hp, h0⟩
  | op e k ih =>
    intro r _
    have hi := hstep e h r hp.1 h0
    exact ⟨hI _ hi, ih r (hp.2 r trivial) hi⟩

theorem wp {T : Trace E ε A} {P I : List A → Prop} (hp : Only asks p)
    (hI : ∀ h, I h → P h)
    (hstep : ∀ {β : Type} (e : E β) h r, asks e → I h → I (h ++ [T.event e r])) {h : List A}
    (h0 : I h) : T.wp P p (fun _ => I) h :=
  Trace.wp_mono T (wp_and hp hI hstep h0) fun _ _ hi => hi.2

end Only

namespace Trace

variable {T : Trace E ε A} {P : List A → Prop}

theorem wp_then {p : Prog E ε α} {f : α → Prog E ε β} {R R' : List A → Prop} {h : List A}
    (hp : T.wp P p (fun _ => R) h) (hR : ∀ h, R h → R' h)
    (hf : ∀ a h, R h → T.wp P (f a) (fun _ => R') h) : T.wp P (p >>= f) (fun _ => R') h := by
  refine (T.wp_bind p f _ h).mpr (T.wp_mono hp ?_)
  rintro (x | a) h' hr
  · exact hR h' hr
  · exact hf a h' hr

end Trace

end Effect
