import AsyncPulse.EffectTrace
set_option autoImplicit false

/-! Which exceptions a program can raise. -/

namespace Effect.Trace

variable {E : Type → Type} {ε A α β : Type} (T : Trace E ε A)

theorem wp_of_forall {P : List A → Prop} {Q : Except ε α → List A → Prop} (hP : ∀ h, P h)
    (hQ : ∀ r h, Q r h) (p : Prog E ε α) (h : List A) : T.wp P p Q h := by
  induction p generalizing h with
  | ret r => exact hQ r h
  | op e k ih => exact fun r _ => ⟨hP _, ih r _⟩

/-- However its effects turn out, `p` raises only exceptions that satisfy `S`; where it returns,
`F` holds. -/
def Raising (p : Prog E ε α) (S : ε → Prop) (F : α → List A → Prop) (h : List A) : Prop :=
  T.wp (fun _ => True) p (after (fun x _ => S x) F) h

namespace Raising

variable {T} {p : Prog E ε α} {S R : ε → Prop} {F F' : α → List A → Prop} {h : List A}

theorem mono (hp : T.Raising p S F h) (hS : ∀ x, S x → R x) (hF : ∀ a h', F a h' → F' a h') :
    T.Raising p R F' h := by
  apply T.wp_mono hp
  rintro (x | a) h' hr
  · exact hS x hr
  · exact hF a h' hr

theorem bind {f : α → Prog E ε β} {G : β → List A → Prop} (hp : T.Raising p S F h)
    (hf : ∀ a l, F a (h ++ l) → T.Raising (f a) S G (h ++ l)) : T.Raising (p >>= f) S G h := by
  refine T.wp_seq trivial hp ?_ ?_
  · exact fun a l _ ha => hf a l ha
  · exact fun x l _ hx => hx

theorem seq {f : α → Prog E ε β} {G : β → List A → Prop} (hp : T.Raising p R F h)
    (hS : ∀ x, R x → S x) (hf : ∀ a l, F a (h ++ l) → T.Raising (f a) S G (h ++ l)) :
    T.Raising (p >>= f) S G h :=
  bind (hp.mono hS fun _ _ => id) hf

theorem step {f : α → Prog E ε β} {G : β → List A → Prop}
    (hp : T.Raising p (fun _ => False) F h)
    (hf : ∀ a l, F a (h ++ l) → T.Raising (f a) S G (h ++ l)) : T.Raising (p >>= f) S G h :=
  hp.seq (fun _ => False.elim) hf

theorem map {f : α → β} {G : β → List A → Prop} (hp : T.Raising p S F h)
    (hf : ∀ a h', F a h' → G (f a) h') : T.Raising (f <$> p) S G h := by
  rw [map_eq_pure_bind]
  exact bind hp fun a l ha => hf a _ ha

theorem throw {x : ε} (hx : S x) : T.Raising (MonadExcept.throw x : Prog E ε α) S F h := hx

theorem raiseIf {c : Prop} [Decidable c] {x : ε} {F : Unit → List A → Prop} (hx : c → S x)
    (hc : ¬ c → F () h) : T.Raising (Prog.raiseIf c x) S F h :=
  (T.wp_raiseIf c x _ h).mpr ⟨hx, hc⟩

theorem suppress (p : Prog E ε Unit) : T.Raising p.suppress S (fun _ _ => True) h :=
  (T.wp_suppress p _ h).mpr (T.wp_of_forall (fun _ => trivial) (fun _ _ => trivial) p h)

theorem tryCatch {f : ε → Prog E ε α} (hp : T.Raising p R F h)
    (hf : ∀ x h', R x → T.Raising (f x) S F h') : T.Raising (tryCatch p f) S F h := by
  refine (T.wp_tryCatch p f _ h).mpr (T.wp_mono hp ?_)
  rintro (x | a) h' hr
  · exact hf x h' hr
  · exact hr

theorem forM {I : List A → Prop} {xs : List α} {f : α → Prog E ε Unit}
    (hI : ∀ h l, I h → I (h ++ l)) (h0 : I h)
    (hf : ∀ a ∈ xs, ∀ h, I h → T.Raising (f a) S (fun _ _ => True) h) :
    T.Raising (xs.forM f) S (fun _ _ => True) h := by
  induction xs generalizing h with
  | nil => trivial
  | cons a xs ih =>
    change T.Raising (f a >>= fun _ => xs.forM f) S _ h
    refine bind (hf a List.mem_cons_self h h0) fun _ l _ => ?_
    exact ih (hI h l h0) fun b hb => hf b (List.mem_cons_of_mem a hb)

theorem ensure {cleanup : E Unit} {F : α → List A → Prop} (hp : T.Raising p S F h) :
    T.Raising (p.ensure cleanup) S (fun _ _ => True) h := by
  refine (T.wp_ensure p cleanup _ h).mpr (T.wp_mono hp ?_)
  rintro (x | a) h' hr
  · exact fun _ _ => ⟨trivial, hr⟩
  · exact fun _ _ => ⟨trivial, trivial⟩

end Raising

end Effect.Trace
