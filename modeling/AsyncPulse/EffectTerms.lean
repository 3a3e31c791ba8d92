import AsyncPulse.EffectTrace
set_option autoImplicit false

namespace Effect

structure Terms (E : Type → Type) (ε : Type) where
  asks : {β : Type} → E β → Prop
  answers : {β : Type} → E β → Except ε β → Prop

namespace Terms

variable {E : Type → Type} {ε A α β : Type} {T : Terms E ε} {Q : Except ε α → Prop}

/-- As long as it is answered on these terms, the program asks on them, and its outcome
satisfies `Q`. -/
def Keeps (T : Terms E ε) (Q : Except ε α → Prop) : Prog E ε α → Prop
  | .ret r => Q r
  | .op e k => T.asks e ∧ ∀ r, T.answers e r → T.Keeps Q (k r)

namespace Keeps

variable {p : Prog E ε α}

theorem perform {e : E α} (he : T.asks e) (hq : ∀ r, T.answers e r → Q r) :
    T.Keeps Q (.perform e) := ⟨he, hq⟩

theorem mono {R : Except ε α → Prop} (hp : T.Keeps R p) (hq : ∀ r, R r → Q r) : T.Keeps Q p := by
  induction p with
  | ret r => exact hq r hp
  | op e k ih => exact ⟨hp.1, fun r hr => ih r (hp.2 r hr)⟩

theorem bind {R : Except ε β → Prop} {p : Prog E ε β} {f : β → Prog E ε α} (hp : T.Keeps R p)
    (hok : ∀ b, R (.ok b) → T.Keeps Q (f b)) (herr : ∀ x, R (.error x) → Q (.error x)) :
    T.Keeps Q (p >>= f) := by
  induction p with
  | ret r =>
    cases r with
    | ok b => exact hok b hp
    | error x => exact herr x hp
  | op e k ih => exact ⟨hp.1, fun r hr => ih r (hp.2 r hr)⟩

theorem tryCatch {R : Except ε α → Prop} {f : ε → Prog E ε α} (hp : T.Keeps R p)
    (hok : ∀ a, R (.ok a) → Q (.ok a)) (herr : ∀ x, R (.error x) → T.Keeps Q (f x)) :
    T.Keeps Q (tryCatch p f) := by
  induction p with
  | ret r =>
    cases r with
    | ok a => exact hok a hp
    | error x => exact herr x hp
  | op e k ih => exact ⟨hp.1, fun r hr => ih r (hp.2 r hr)⟩

theorem suppress {Q R : Except ε Unit → Prop} {p : Prog E ε Unit} (hp : T.Keeps R p)
    (hq : Q (.ok ())) : T.Keeps Q p.suppress :=
  hp.tryCatch (fun _ _ => hq) fun _ _ => hq

theorem raiseIf {Q : Except ε Unit → Prop} {c : Prop} [Decidable c] {x : ε} (herr : Q (.error x))
    (hok : Q (.ok ())) : T.Keeps Q (Prog.raiseIf c x) := by
  unfold Prog.raiseIf
  split
  · exact herr
  · exact hok

theorem forM {Q : Except ε Unit → Prop} {xs : List β} {f : β → Prog E ε Unit} (hok : Q (.ok ()))
    (hf : ∀ b ∈ xs, T.Keeps Q (f b)) : T.Keeps Q (xs.forM f) := by
  induction xs with
  | nil => exact hok
  | cons b xs ih =>
    apply bind (hf b (by simp))
    · exact fun _ _ => ih fun b hb => hf b (by simp [hb])
    · exact fun _ hx => hx

theorem wp {S : Trace E ε A} {I : List A → Prop}
    (hstep : ∀ {β : Type} (e : E β) h r, I h → T.asks e → S.valid h e r →
      T.answers e r ∧ I (h ++ [S.event e r]))
    (hp : T.Keeps Q p) {h : List A} (hi : I h) :
    S.wp (fun _ => True) p (fun r h' => Q r ∧ I h') h := by
  induction p generalizing h with
  | ret r => exact ⟨hp, hi⟩
  | op e k ih =>
    intro r hr
    obtain ⟨hanswer, hi'⟩ := hstep e h r hi hp.1 hr
    exact ⟨trivial, ih r (hp.2 r hanswer) hi'⟩

end Keeps

end Terms

end Effect
