import AsyncPulse.EffectFaults
import AsyncPulse.EffectOrder
set_option autoImplicit false

/-! Programs that commit once, and return only with their work saved. -/

namespace Effect

theorem Prepares.only {E : Type → Type} {ε α : Type} {inner commits : (β : Type) → E β → Bool}
    {p : Prog E ε α} (hp : Prepares inner commits p) :
    Only (fun {β} (e : E β) => commits β e = false ∨ inner β e = true) p := by
  induction hp with
  | ret r => trivial
  | outer hi hc _ herr ih =>
    refine ⟨.inl hc, fun r _ => ?_⟩
    cases r with
    | ok a => exact ih a
    | error x =>
      obtain ⟨y, hy⟩ := herr x
      rw [hy]
      trivial
  | inner hi _ hok herr ih =>
    refine ⟨.inr hi, fun r _ => ?_⟩
    cases r with
    | ok a => exact (hok a).symm ▸ ih
    | error x =>
      rcases herr x with hq | ⟨y, hy⟩
      · exact hq.symm ▸ ih
      · rw [hy]
        trivial

/-- Which effects make work, which one saves it, and what effects may answer. -/
structure Works (E : Type → Type) (ε : Type) where
  writes : {β : Type} → E β → Prop
  commits : {β : Type} → E β → Prop
  answers : {β : Type} → E β → Except ε β → Prop

namespace Works

variable {E : Type → Type} {ε A α β : Type} (W : Works E ε)

def Idle (e : E β) : Prop := ¬ W.writes e ∧ ¬ W.commits e

def Past (S : ε → Prop) (p : Prog E ε α) : Prop :=
  Terms.Keeps ⟨W.Idle, W.answers⟩ (fun r => ∀ x, r = .error x → S x) p

/-- The program commits at most once and writes nothing afterwards, it raises only exceptions from
`S` then, and it does not return while there is work that is not saved. `unsaved` tells whether
there may be such work at its start. -/
inductive Once (S : ε → Prop) : Bool → Prog E ε α → Prop where
  | returns (a : α) : Once S false (.ret (.ok a))
  | raises {unsaved : Bool} (x : ε) : Once S unsaved (.ret (.error x))
  | idle {unsaved : Bool} {β : Type} {e : E β} {k : Except ε β → Prog E ε α} : W.Idle e →
      (∀ r, W.answers e r → Once S unsaved (k r)) → Once S unsaved (.op e k)
  | works {unsaved : Bool} {β : Type} {e : E β} {k : Except ε β → Prog E ε α} : ¬ W.commits e →
      (∀ r, W.answers e r → Once S true (k r)) → Once S unsaved (.op e k)
  | commits {unsaved : Bool} {β : Type} {e : E β} {k : Except ε β → Prog E ε α} : W.commits e →
      (∀ r, W.answers e r → W.Past S (k r)) → Once S unsaved (.op e k)

variable {W} {S S' : ε → Prop} {unsaved : Bool} {p : Prog E ε α} {f : α → Prog E ε β}

namespace Past

theorem pure {a : α} : W.Past S (Pure.pure a : Prog E ε α) := fun _ hx => nomatch hx

theorem throw {x : ε} (hx : S x) : W.Past S (MonadExcept.throw x : Prog E ε α) := by
  rintro y ⟨rfl⟩
  exact hx

theorem bind (hp : W.Past S p) (hf : ∀ a, W.Past S (f a)) : W.Past S (p >>= f) := by
  refine Terms.Keeps.bind hp (fun a _ => hf a) fun x hx y hy => ?_
  cases hy
  exact hx x rfl

theorem perform {e : E α} (he : W.Idle e) (ha : ∀ r, W.answers e r → ∃ a, r = .ok a) :
    W.Past S (.perform e) := by
  refine Terms.Keeps.perform he fun r hr x hx => ?_
  obtain ⟨a, rfl⟩ := ha r hr
  cases hx

theorem suppress {p : Prog E ε Unit} (hp : Only W.Idle p) : W.Past S p.suppress := by
  have hany : Terms.Keeps ⟨W.Idle, W.answers⟩ (fun _ => True) p := by
    induction p with
    | ret r => trivial
    | op e k ih => exact ⟨hp.1, fun r _ => ih r (hp.2 r trivial)⟩
  exact hany.suppress fun _ hx => nomatch hx

theorem forM {xs : List α} {f : α → Prog E ε Unit} (hf : ∀ a, W.Past S (f a)) :
    W.Past S (xs.forM f) := by
  induction xs with
  | nil => exact pure
  | cons a xs ih => exact bind (hf a) fun _ => ih

theorem mono (hp : W.Past S p) (hS : ∀ x, S x → S' x) : W.Past S' p :=
  Terms.Keeps.mono hp fun _ hr x hx => hS x (hr x hx)

theorem once (hp : W.Past S p) : W.Once S false p := by
  induction p with
  | ret r =>
    cases r with
    | ok a => exact .returns a
    | error x => exact .raises x
  | op e k ih => exact .idle hp.1 fun r hr => ih r (hp.2 r hr)

end Past

namespace Once

theorem weaken (hp : W.Once S true p) : W.Once S unsaved p := by
  cases unsaved with
  | true => exact hp
  | false =>
    generalize hw : true = w at hp
    induction hp with
    | returns a => exact .returns a
    | raises x => exact .raises x
    | idle he _ ih => exact .idle he fun r hr => ih r hr hw
    | works he hk _ => exact .works he hk
    | commits he hk => exact .commits he hk

theorem look (hp : Only W.Idle p) (hf : ∀ a, W.Once S unsaved (f a)) :
    W.Once S unsaved (p >>= f) := by
  induction p with
  | ret r =>
    cases r with
    | ok a => exact hf a
    | error x => exact .raises x
  | op e k ih => exact .idle hp.1 fun r _ => ih r (hp.2 r trivial)

theorem work (hp : Only (fun e => ¬ W.commits e) p) (hf : ∀ a, W.Once S true (f a)) :
    W.Once S unsaved (p >>= f) := by
  refine weaken ?_
  induction p with
  | ret r =>
    cases r with
    | ok a => exact hf a
    | error x => exact .raises x
  | op e k ih => exact .works hp.1 fun r _ => ih r (hp.2 r trivial)

theorem commit {e : E α} (he : W.commits e) (ha : ∀ r, W.answers e r → ∃ a, r = .ok a)
    (hf : ∀ a, W.Past S (f a)) : W.Once S unsaved (.perform e >>= f) := by
  refine .commits he fun r hr => ?_
  obtain ⟨a, rfl⟩ := ha r hr
  exact hf a

theorem bind (hp : W.Once S unsaved p) (hf : ∀ a, W.Past S (f a)) :
    W.Once S unsaved (p >>= f) := by
  induction hp with
  | returns a => exact (hf a).once
  | raises x => exact .raises x
  | idle he _ ih => exact .idle he ih
  | works he _ ih => exact .works he ih
  | commits he hk => exact .commits he fun r hr => (hk r hr).bind hf

theorem map {f : α → β} (hp : W.Once S unsaved p) : W.Once S unsaved (f <$> p) := by
  rw [map_eq_pure_bind]
  exact hp.bind fun _ => Past.pure

theorem mono (hp : W.Once S unsaved p) (hS : ∀ x, S x → S' x) : W.Once S' unsaved p := by
  induction hp with
  | returns a => exact .returns a
  | raises x => exact .raises x
  | idle he _ ih => exact .idle he ih
  | works he _ ih => exact .works he ih
  | commits he hk => exact .commits he fun r hr => (hk r hr).mono hS

end Once

structure Marks (W : Works E ε) (T : Trace E ε A) where
  wrote : A → Prop
  committed : A → Prop
  answers : ∀ {β : Type} (e : E β) h r, T.valid h e r → W.answers e r
  idle : ∀ {β : Type} (e : E β) r, W.Idle e → ¬ wrote (T.event e r) ∧ ¬ committed (T.event e r)
  works : ∀ {β : Type} (e : E β) r, ¬ W.commits e → ¬ committed (T.event e r)
  commits : ∀ {β : Type} (e : E β) h r, W.commits e → T.valid h e r → committed (T.event e r)

namespace Marks

variable {T : Trace E ε A} (K : Marks W T)

/-- Nothing was saved, and the program has returned only if it had written nothing. Or all that it
had written was saved at once, and what it raised afterwards is in `S`. -/
inductive Outcome (S : ε → Prop) (r : Except ε α) (h : List A) : Prop where
  | unsaved : (∀ a ∈ h, ¬ K.committed a) → (∀ a, r = .ok a → ∀ b ∈ h, ¬ K.wrote b) →
      Outcome S r h
  | saved (l : List A) (c : A) (l' : List A) : h = l ++ c :: l' → K.committed c →
      (∀ a ∈ l, ¬ K.committed a) → (∀ a ∈ l', ¬ K.wrote a ∧ ¬ K.committed a) →
        (∀ x, r = .error x → S x) → Outcome S r h

variable {K}

theorem all_snoc {P : A → Prop} {h : List A} {a : A} (hh : ∀ b ∈ h, P b) (ha : P a) :
    ∀ b ∈ h ++ [a], P b := by
  intro b hb
  rcases List.mem_append.mp hb with hb | hb
  · exact hh b hb
  · exact List.mem_singleton.mp hb ▸ ha

theorem Outcome.snoc {r : Except ε α} {h : List A} {a : A} (ho : K.Outcome S r h)
    (ha : ¬ K.wrote a ∧ ¬ K.committed a) : K.Outcome S r (h ++ [a]) := by
  cases ho with
  | unsaved hc hw => exact .unsaved (all_snoc hc ha.2) fun x hx => all_snoc (hw x hx) ha.1
  | saved l c l' he hc hl hl' hS =>
    exact .saved l c (l' ++ [a]) (by rw [he]; simp) hc hl (all_snoc hl' ha) hS

/-- What a program that returns has written is saved after it. -/
theorem Outcome.followed {a : α} {b : A} {h l l' : List A} (ho : K.Outcome S (.ok a) h)
    (hapart : ∀ c, K.wrote c → ¬ K.committed c) (hh : h = l ++ b :: l') (hb : K.wrote b) :
    ∃ c ∈ l', K.committed c := by
  subst hh
  cases ho with
  | unsaved _ hw => exact absurd hb (hw a rfl b (by simp))
  | saved l₁ c l₂ he hc _ hl₂ _ =>
    refine ⟨c, ?_, hc⟩
    have hne : b ≠ c := fun hbc => hapart b hb (hbc ▸ hc)
    have hnot : b ∉ l₂ := fun hm => (hl₂ b hm).1 hb
    rcases List.append_eq_append_iff.mp he with ⟨m, rfl, hm⟩ | ⟨m, rfl, hm⟩
    -- `c` comes after `b`, since `b` neither is `c` nor comes after it.
    · cases m with
      | nil => exact absurd (List.cons.inj hm).1 hne
      | cons d m =>
        obtain ⟨-, rfl⟩ := List.cons.inj hm
        simp
    · cases m with
      | nil => exact absurd (List.cons.inj hm).1.symm hne
      | cons d m =>
        obtain ⟨-, rfl⟩ := List.cons.inj hm
        exact absurd (by simp) hnot

theorem past_wp (K : Marks W T) (hp : W.Past S p) (h : List A) :
    T.wp (fun _ => True) p (fun r h' => ∃ l, h' = h ++ l ∧
      (∀ a ∈ l, ¬ K.wrote a ∧ ¬ K.committed a) ∧ ∀ x, r = .error x → S x) h := by
  induction p generalizing h with
  | ret r => exact ⟨[], by simp, by simp, hp⟩
  | op e k ih =>
    intro r hr
    refine ⟨trivial, T.wp_mono (ih r (hp.2 r (K.answers e h r hr)) _) ?_⟩
    rintro r' h' ⟨l, rfl, hl, hS⟩
    refine ⟨T.event e r :: l, by simp, fun a ha => ?_, hS⟩
    rcases List.mem_cons.mp ha with rfl | ha
    · exact K.idle e r hp.1
    · exact hl a ha

theorem once_wp (K : Marks W T) (hp : W.Once S unsaved p) {h : List A}
    (hc : ∀ a ∈ h, ¬ K.committed a) (hw : unsaved = false → ∀ a ∈ h, ¬ K.wrote a) :
    T.wp (fun _ => True) p (K.Outcome S) h := by
  induction hp generalizing h with
  | returns a => exact .unsaved hc fun _ _ => hw rfl
  | raises x => exact .unsaved hc fun _ hx => nomatch hx
  | idle he _ ih =>
    intro r hr
    obtain ⟨hnw, hnc⟩ := K.idle _ r he
    exact ⟨trivial, ih r (K.answers _ h r hr) (all_snoc hc hnc) fun hu => all_snoc (hw hu) hnw⟩
  | works he _ ih =>
    intro r hr
    exact ⟨trivial, ih r (K.answers _ h r hr) (all_snoc hc (K.works _ r he)) fun hu => nomatch hu⟩
  | @commits _ _ e k he hk =>
    intro r hr
    refine ⟨trivial, T.wp_mono (K.past_wp (hk r (K.answers _ h r hr)) _) ?_⟩
    rintro r' h' ⟨l, rfl, hl, hS⟩
    exact .saved h _ l (by simp) (K.commits e h r he hr) hc hl hS

end Marks

end Works

end Effect
