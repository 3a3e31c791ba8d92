import AsyncPulse.EffectOrder
import AsyncPulse.EffectReplies
set_option autoImplicit false

namespace Effect

/-- An effect may raise instead of happening, or after it has happened. -/
inductive Fault (ε : Type) where
  | none
  | before (x : ε)
  | after (x : ε)

variable {E : Type → Type} {ε σ χ α β D A : Type}

def Sem.faulty (S : Sem E ε σ χ) : Sem E ε σ (Fault ε × χ) where
  step i c s e :=
    match c.1 with
    | .none => S.step i c.2 s e
    | .before x => some (.error x, s)
    | .after x => (S.step i c.2 s e).map fun y => (.error x, y.2)

theorem Sem.faulty_run {S : Sem E ε σ χ} {i : Nat} {p : Prog E ε α} {cs : List (Fault ε × χ)}
    {s : σ} (hcs : ∀ c ∈ cs, c.1 = .none) :
    S.faulty.run i cs p s = S.run i (cs.map Prod.snd) p s := by
  induction p generalizing cs s with
  | ret r => rw [Sem.run_ret, Sem.run_ret]
  | op e k ih =>
    cases cs with
    | nil => rfl
    | cons c cs =>
      obtain ⟨f, c⟩ := c
      obtain rfl : f = .none := hcs _ List.mem_cons_self
      have hrest : ∀ c ∈ cs, c.1 = .none := fun c hc => hcs c (List.mem_cons_of_mem _ hc)
      have hstep : S.faulty.step i (.none, c) s e = S.step i c s e := rfl
      rw [List.map_cons, Sem.run, Sem.run, hstep]
      cases S.step i c s e with
      | none => rfl
      | some y => exact ih y.1 hrest

theorem Sem.faulty_runWith {S : Sem E ε σ χ} {inner : (β : Type) → E β → Bool} {ρ : Replies E ε}
    {i n : Nat} {p : Prog E ε α} {cs : List χ} {s : σ} :
    S.faulty.runWith inner ρ i n (cs.map (Prod.mk .none)) p s = S.runWith inner ρ i n cs p s := by
  induction p generalizing n cs s with
  | ret r => simp only [Sem.runWith]
  | @op β e k ih =>
    rw [Sem.runWith.eq_def, Sem.runWith.eq_def]
    dsimp only
    split
    · exact ih _
    · cases cs with
      | nil => rfl
      | cons c cs =>
        rw [List.map_cons]
        have hstep : S.faulty.step i (.none, c) s e = S.step i c s e := rfl
        simp only [hstep]
        cases S.step i c s e with
        | none => rfl
        | some y => exact ih y.1

/-- A run with replies is one of the whole system too, from a state that differs only in what the
inner effects see, if they give these replies there. -/
theorem Sem.run_of_runWith {S : Sem E ε σ χ} {inner : (β : Type) → E β → Bool} {ρ : Replies E ε}
    {i n : Nat} {P : {β : Type} → E β → Prop} {R : σ → σ → Prop}
    (houter : ∀ {β : Type} (e : E β) c s t x s', inner β e = false → R s t →
      S.step i c s e = some (x, s') → ∃ t', S.step i c t e = some (x, t') ∧ R s' t')
    (hinner : ∀ {β : Type} (e : E β) n s t, P e → inner β e = true → R s t →
      ∃ c t', S.step i c t e = some (ρ n β e, t') ∧ R s t')
    {p : Prog E ε α} (hp : Only P p) {cs : List χ} {s s' t : σ} {r : Except ε α} (hst : R s t)
    (hr : S.runWith inner ρ i n cs p s = some (r, s')) :
    ∃ cs' t', S.run i cs' p t = some (r, t') ∧ R s' t' := by
  induction p generalizing n cs s t with
  | ret r₀ =>
    simp only [Sem.runWith, Option.some.injEq, Prod.mk.injEq] at hr
    obtain ⟨rfl, rfl⟩ := hr
    exact ⟨[], t, Sem.run_ret _ _ _, hst⟩
  | @op β e k ih =>
    cases hi : inner β e with
    | true =>
      rw [Sem.runWith_inner hi] at hr
      obtain ⟨c, t₁, hx, hst₁⟩ := hinner e n s t hp.1 hi hst
      obtain ⟨cs', t', hrun, hst'⟩ := ih _ (hp.2 _ trivial) hst₁ hr
      exact ⟨c :: cs', t', (Sem.run_op hx).trans hrun, hst'⟩
    | false =>
      obtain ⟨c, cs₁, x, s₁, rfl, hx, hr⟩ := (Sem.runWith_outer hi).mp hr
      obtain ⟨t₁, hx', hst₁⟩ := houter e c s t x s₁ hi hst hx
      obtain ⟨cs', t', hrun, hst'⟩ := ih x (hp.2 x trivial) hst₁ hr
      exact ⟨c :: cs', t', (Sem.run_op hx').trans hrun, hst'⟩

def Healthy (inner : (β : Type) → E β → Bool) (ρ : Replies E ε) : Prop :=
  ∀ n β (e : E β), inner β e = true → ∃ a, ρ n β e = .ok a

section

variable (inner commits : (β : Type) → E β → Bool)

def Quiet : Prog E ε α → Prop
  | .ret _ => True
  | .op e k => commits _ e = false ∧ ∀ x, Quiet (k x)

/-- Only inner effects are left, and unless they fail the outcome satisfies `Q`. -/
def Settles (Q : Except ε α → Prop) : Prog E ε α → Prop
  | .ret r => Q r
  | .op e k => inner _ e = true ∧ ∀ a, Settles Q (k (.ok a))

/-- A program on the way to its commit. Inner effects either do not matter, or their failure
ends it. -/
inductive Staged (Q : Except ε α → Prop) : Prog E ε α → Prop where
  | quiet {p : Prog E ε α} : Quiet commits p → Staged Q p
  | commit {β : Type} {e : E β} {k : Except ε β → Prog E ε α} : inner β e = false →
      commits β e = true → (∀ x, Quiet commits (k x)) → (∀ a, Settles inner Q (k (.ok a))) →
        Staged Q (.op e k)
  | outer {β : Type} {e : E β} {k : Except ε β → Prog E ε α} : inner β e = false →
      commits β e = false → (∀ a, Staged Q (k (.ok a))) → (∀ x, Quiet commits (k (.error x))) →
        Staged Q (.op e k)
  | inner {β : Type} {e : E β} {k : Except ε β → Prog E ε α} {q : Prog E ε α} :
      inner β e = true → Staged Q q → (∀ a, k (.ok a) = q) →
        (∀ x, k (.error x) = q ∨ Quiet commits (k (.error x))) → Staged Q (.op e k)

inductive Prepares : Prog E ε α → Prop where
  | ret (r : Except ε α) : Prepares (.ret r)
  | outer {β : Type} {e : E β} {k : Except ε β → Prog E ε α} : inner β e = false →
      commits β e = false → (∀ a, Prepares (k (.ok a))) →
        (∀ x, ∃ y, k (.error x) = .ret (.error y)) → Prepares (.op e k)
  | inner {β : Type} {e : E β} {k : Except ε β → Prog E ε α} {q : Prog E ε α} :
      inner β e = true → Prepares q → (∀ a, k (.ok a) = q) →
        (∀ x, k (.error x) = q ∨ ∃ y, k (.error x) = .ret (.error y)) → Prepares (.op e k)

end

variable {inner commits : (β : Type) → E β → Bool} {Q : Except ε α → Prop}

namespace Quiet

theorem bind {p : Prog E ε α} {f : α → Prog E ε β} (hp : Quiet commits p)
    (hf : ∀ a, Quiet commits (f a)) : Quiet commits (p >>= f) := by
  induction p with
  | ret r =>
    cases r with
    | ok a => exact hf a
    | error x => exact trivial
  | op e k ih => exact ⟨hp.1, fun x => ih x (hp.2 x)⟩

theorem map {p : Prog E ε α} {f : α → β} (hp : Quiet commits p) : Quiet commits (f <$> p) := by
  rw [map_eq_pure_bind]
  exact hp.bind fun a => trivial

theorem tryCatch {p : Prog E ε α} {f : ε → Prog E ε α} (hp : Quiet commits p)
    (hf : ∀ x, Quiet commits (f x)) : Quiet commits (tryCatch p f) := by
  induction p with
  | ret r =>
    cases r with
    | ok a => exact trivial
    | error x => exact hf x
  | op e k ih => exact ⟨hp.1, fun x => ih x (hp.2 x)⟩

theorem forM {xs : List α} {f : α → Prog E ε Unit} (hf : ∀ a, Quiet commits (f a)) :
    Quiet commits (xs.forM f) := by
  induction xs with
  | nil => exact trivial
  | cons x xs ih => exact (hf x).bind fun _ => ih

theorem mono {commits' : (β : Type) → E β → Bool} {p : Prog E ε α} (hp : Quiet commits p)
    (hle : ∀ β (e : E β), commits' β e = true → commits β e = true) : Quiet commits' p := by
  induction p with
  | ret r => exact trivial
  | op e k ih =>
    refine ⟨?_, fun x => ih x (hp.2 x)⟩
    cases he : commits' _ e with
    | false => rfl
    | true => exact absurd (hle _ e he) (by simp [hp.1])

theorem wp {T : Trace E ε A} (marked : A → Prop)
    (hev : ∀ β (e : E β) x, commits β e = false → ¬ marked (T.event e x)) {p : Prog E ε α}
    (hp : Quiet commits p) (h : List A) :
    T.wp (fun _ => True) p (fun _ h' => ∃ l, h' = h ++ l ∧ ∀ a ∈ l, ¬ marked a) h := by
  induction p generalizing h with
  | ret r => exact ⟨[], by simp⟩
  | op e k ih =>
    intro x _
    refine ⟨trivial, T.wp_mono (ih x (hp.2 x) _) ?_⟩
    intro r h' hr
    obtain ⟨l, rfl, hl⟩ := hr
    refine ⟨T.event e x :: l, by simp, fun a ha => ?_⟩
    cases List.mem_cons.mp ha with
    | inl he => exact he ▸ hev _ e x hp.1
    | inr ha => exact hl a ha

end Quiet

namespace Settles

theorem bind {p : Prog E ε α} {f : α → Prog E ε β} {Q' : Except ε β → Prop}
    (hp : Settles inner (fun r => ∃ a, r = .ok a) p) (hf : ∀ a, Settles inner Q' (f a)) :
    Settles inner Q' (p >>= f) := by
  induction p with
  | ret r =>
    obtain ⟨a, rfl⟩ := hp
    exact hf a
  | op e k ih => exact ⟨hp.1, fun a => ih (.ok a) (hp.2 a)⟩

theorem map {p : Prog E ε α} {f : α → β} {Q : Except ε β → Prop}
    (hp : Settles inner (fun r => Q (r.map f)) p) : Settles inner Q (f <$> p) := by
  rw [map_eq_pure_bind]
  induction p with
  | ret r => cases r <;> exact hp
  | op e k ih => exact ⟨hp.1, fun a => ih (.ok a) (hp.2 a)⟩

theorem forM {xs : List α} {f : α → Prog E ε Unit}
    (hf : ∀ a, Settles inner (fun r => ∃ u, r = .ok u) (f a)) :
    Settles inner (fun r => ∃ u, r = .ok u) (xs.forM f) := by
  induction xs with
  | nil => exact ⟨(), rfl⟩
  | cons x xs ih => exact (hf x).bind fun _ => ih

theorem suppress {e : E Unit} (he : inner Unit e = true) :
    Settles inner (fun r => ∃ u, r = .ok u) (Prog.suppress (.perform e) : Prog E ε Unit) :=
  ⟨he, fun u => ⟨u, rfl⟩⟩

theorem run {S : Sem E ε σ χ} {i : Nat} {p : Prog E ε α} (hp : Settles inner Q p)
    {ρ : Replies E ε} (hρ : Healthy inner ρ) (n : Nat) (s : σ) :
    ∃ r, S.runWith inner ρ i n [] p s = some (r, s) ∧ Q r := by
  induction p generalizing n with
  | ret r => exact ⟨r, rfl, hp⟩
  | @op β e k ih =>
    obtain ⟨he, hk⟩ := hp
    obtain ⟨a, ha⟩ := hρ n β e he
    obtain ⟨r, hr, hq⟩ := ih (.ok a) (hk a) (n + 1)
    refine ⟨r, ?_, hq⟩
    rw [Sem.runWith_inner he, ha]
    exact hr

end Settles

namespace Prepares

theorem bind {p : Prog E ε α} {f : α → Prog E ε β} (hp : Prepares inner commits p)
    (hf : ∀ a, Prepares inner commits (f a)) : Prepares inner commits (p >>= f) := by
  induction hp with
  | ret r =>
    cases r with
    | ok a => exact hf a
    | error x => exact .ret _
  | @outer _ e k hi hc _ herr ih =>
    refine .outer hi hc ih fun x => ?_
    obtain ⟨y, hy⟩ := herr x
    exact ⟨y, by change (k (.error x) >>= f) = _; rw [hy]; rfl⟩
  | @inner _ e k q hi _ hok herr ih =>
    refine .inner hi ih (fun a => ?_) fun x => ?_
    · change (k (.ok a) >>= f) = _
      rw [hok a]
    · change (k (.error x) >>= f) = _ ∨ ∃ y, (k (.error x) >>= f) = _
      obtain hq | ⟨y, hy⟩ := herr x
      · rw [hq]
        exact .inl rfl
      · rw [hy]
        exact .inr ⟨y, rfl⟩

theorem forM {xs : List α} {f : α → Prog E ε Unit} (hf : ∀ a, Prepares inner commits (f a)) :
    Prepares inner commits (xs.forM f) := by
  induction xs with
  | nil => exact .ret _
  | cons x xs ih => exact (hf x).bind fun _ => ih

theorem perform {e : E Unit} (he : inner Unit e = true) :
    Prepares inner commits (.perform e : Prog E ε Unit) :=
  .inner he (.ret (.ok ())) (fun _ => rfl) fun x => .inr ⟨x, rfl⟩

theorem suppress {e : E Unit} (he : inner Unit e = true) :
    Prepares inner commits (Prog.suppress (.perform e) : Prog E ε Unit) :=
  .inner he (.ret (.ok ())) (fun _ => rfl) fun _ => .inl rfl

theorem staged {p : Prog E ε α} {f : α → Prog E ε β} {Q : Except ε β → Prop}
    (hp : Prepares inner commits p) (hf : ∀ a, Staged inner commits Q (f a)) :
    Staged inner commits Q (p >>= f) := by
  induction hp with
  | ret r =>
    cases r with
    | ok a => exact hf a
    | error x => exact .quiet trivial
  | @outer _ e k hi hc _ herr ih =>
    refine .outer hi hc ih fun x => ?_
    obtain ⟨y, hy⟩ := herr x
    change Quiet commits (k (.error x) >>= f)
    rw [hy]
    exact trivial
  | @inner _ e k q hi _ hok herr ih =>
    refine .inner hi ih (fun a => ?_) fun x => ?_
    · change (k (.ok a) >>= f) = _
      rw [hok a]
    · change (k (.error x) >>= f) = _ ∨ Quiet commits (k (.error x) >>= f)
      obtain hq | ⟨y, hy⟩ := herr x
      · rw [hq]
        exact .inl rfl
      · rw [hy]
        exact .inr trivial

end Prepares

theorem Plain.prepares {p : Prog E ε α} (hp : Plain inner commits p) :
    Prepares inner commits p := by
  induction p with
  | ret r => exact .ret r
  | op e k ih =>
    obtain ⟨hi, hc, hok, herr⟩ := hp
    exact .outer hi hc (fun a => ih (.ok a) (hok a)) herr

theorem Plain.quiet {p : Prog E ε α} (hp : Plain inner commits p) : Quiet commits p := by
  induction p with
  | ret r => trivial
  | op e k ih =>
    obtain ⟨-, hc, hok, herr⟩ := hp
    refine ⟨hc, fun x => ?_⟩
    cases x with
    | ok a => exact ih (.ok a) (hok a)
    | error x =>
      obtain ⟨y, hy⟩ := herr x
      rw [hy]
      trivial

theorem Settles.mono {p : Prog E ε α} {Q' : Except ε α → Prop} (hp : Settles inner Q p)
    (hQ : ∀ r, Q r → Q' r) : Settles inner Q' p := by
  induction p with
  | ret r => exact hQ r hp
  | op e k ih => exact ⟨hp.1, fun a => ih (.ok a) (hp.2 a)⟩

theorem Staged.mono {p : Prog E ε α} {Q' : Except ε α → Prop} (hp : Staged inner commits Q p)
    (hQ : ∀ r, Q r → Q' r) : Staged inner commits Q' p := by
  induction hp with
  | quiet hq => exact .quiet hq
  | commit hi hc hquiet hset => exact .commit hi hc hquiet fun a => (hset a).mono hQ
  | outer hi hc _ herr ih => exact .outer hi hc ih herr
  | inner hi _ hok herr ih => exact .inner hi ih hok herr

theorem Staged.map {p : Prog E ε α} {f : α → β} {Q : Except ε β → Prop}
    (hp : Staged inner commits (fun r => Q (r.map f)) p) : Staged inner commits Q (f <$> p) := by
  induction hp with
  | quiet hq => exact .quiet hq.map
  | commit hi hc hquiet hset => exact .commit hi hc (fun x => (hquiet x).map) fun a => (hset a).map
  | outer hi hc _ herr ih => exact .outer hi hc ih fun x => (herr x).map
  | @inner _ e k q hi _ hok herr ih =>
    refine .inner hi ih (fun a => ?_) fun x => ?_
    · change f <$> k (.ok a) = _
      rw [hok]
    · exact (herr x).imp (fun hq => congrArg (f <$> ·) hq) fun hq => hq.map

/-- However the program fails in `s` with the replies `ρ`, the store is left as it was, or as runs
without any failure leave it, with an outcome in `Q`. -/
def Sem.Atomic (S : Sem E ε σ χ) (inner : (β : Type) → E β → Bool) (store : σ → D)
    (Q : Except ε α → Prop) (ρ : Replies E ε) (i n : Nat) (p : Prog E ε α) (s : σ) : Prop :=
  ∀ cs r s', S.faulty.runWith inner ρ i n cs p s = some (r, s') →
    store s' = store s ∨ ∀ ρ', Healthy inner ρ' → ∀ n', ∃ cs' r' s'',
      S.runWith inner ρ' i n' cs' p s = some (r', s'') ∧ store s'' = store s' ∧ Q r'

theorem Sem.Atomic.mono {S : Sem E ε σ χ} {store : σ → D} {Q' : Except ε α → Prop}
    {ρ : Replies E ε} {i n : Nat} {p : Prog E ε α} {s : σ} (h : S.Atomic inner store Q ρ i n p s)
    (hQ : ∀ r, Q r → Q' r) : S.Atomic inner store Q' ρ i n p s := by
  intro cs r s' hr
  refine (h cs r s' hr).imp_right fun hdone ρ' hρ n' => ?_
  obtain ⟨cs', r', s'', hr', hstore, hq⟩ := hdone ρ' hρ n'
  exact ⟨cs', r', s'', hr', hstore, hQ r' hq⟩

theorem Sem.Atomic.map {S : Sem E ε σ χ} {store : σ → D} {ρ : Replies E ε} {i n : Nat}
    {p : Prog E ε α} {f : α → β} {Q : Except ε β → Prop} {s : σ}
    (h : S.Atomic inner store (fun r => Q (r.map f)) ρ i n p s) :
    S.Atomic inner store Q ρ i n (f <$> p) s := by
  intro cs r s' hr
  rw [Sem.runWith_map] at hr
  obtain ⟨⟨r₁, s₁⟩, hr₁, heq⟩ := Option.map_eq_some_iff.mp hr
  simp only [Prod.mk.injEq] at heq
  obtain ⟨rfl, rfl⟩ := heq
  refine (h cs r₁ s₁ hr₁).imp_right fun hdone ρ' hρ n' => ?_
  obtain ⟨cs', r', s'', hr', hstore, hq⟩ := hdone ρ' hρ n'
  exact ⟨cs', r'.map f, s'', by rw [Sem.runWith_map, hr']; rfl, hstore, hq⟩

section

variable {S : Sem E ε σ χ} {store : σ → D} {i : Nat}
  (hkeep : ∀ {β : Type} (e : E β) c s x s', commits β e = false →
    S.step i c s e = some (x, s') → store s' = store s)
include hkeep

theorem Sem.faulty_keeps {β : Type} {e : E β} {c : Fault ε × χ} {s s' : σ} {x : Except ε β}
    (he : commits β e = false) (hs : S.faulty.step i c s e = some (x, s')) :
    store s' = store s := by
  obtain ⟨f, c⟩ := c
  cases f with
  | none => exact hkeep e c s x s' he hs
  | before y =>
    simp only [Sem.faulty, Option.some.injEq, Prod.mk.injEq] at hs
    rw [hs.2]
  | after y =>
    obtain ⟨⟨x₁, s₁⟩, h₁, heq⟩ := Option.map_eq_some_iff.mp hs
    simp only [Prod.mk.injEq] at heq
    rw [← heq.2]
    exact hkeep e c s x₁ s₁ he h₁

theorem Quiet.run {p : Prog E ε α} (hp : Quiet commits p) {ρ : Replies E ε} {n : Nat}
    {cs : List (Fault ε × χ)} {s s' : σ} {r : Except ε α}
    (hr : S.faulty.runWith inner ρ i n cs p s = some (r, s')) : store s' = store s := by
  induction p generalizing n cs s with
  | ret r₀ =>
    simp only [Sem.runWith, Option.some.injEq, Prod.mk.injEq] at hr
    rw [hr.2]
  | @op β e k ih =>
    cases hi : inner β e with
    | true =>
      rw [Sem.runWith_inner hi] at hr
      exact ih _ (hp.2 _) hr
    | false =>
      obtain ⟨c, cs', x, s₁, rfl, hx, hr⟩ := (Sem.runWith_outer hi).mp hr
      exact (ih x (hp.2 x) hr).trans (Sem.faulty_keeps hkeep hp.1 hx)

theorem Terms.Keeps.atomic {T : Terms E ε} {P : Except ε α → Prop} {p : Prog E ε α} {s : σ}
    {n : Nat} {ρ : Replies E ε} (hp : T.Keeps P p)
    (hasks : ∀ {β : Type} (e : E β), T.asks e → commits β e = false)
    (hinner : ∀ {β : Type} (e : E β) x, inner β e = true → T.answers e x)
    (herror : ∀ {β : Type} (e : E β) y, T.answers e (.error y))
    (hstep : ∀ {β : Type} (e : E β) c s x s', S.step i c s e = some (x, s') → T.answers e x) :
    S.Atomic inner store Q ρ i n p s := by
  intro cs r s' hr
  left
  induction p generalizing n cs s with
  | ret r₀ =>
    simp only [Sem.runWith, Option.some.injEq, Prod.mk.injEq] at hr
    rw [hr.2]
  | @op β e k ih =>
    cases hi : inner β e with
    | true =>
      rw [Sem.runWith_inner hi] at hr
      exact ih _ (hp.2 _ (hinner e _ hi)) _ hr
    | false =>
      obtain ⟨⟨f, c⟩, cs', x, s₁, rfl, hx, hr⟩ := (Sem.runWith_outer hi).mp hr
      have hs₁ := Sem.faulty_keeps hkeep (hasks e hp.1) hx
      have hx' : T.answers e x := by
        cases f with
        | none => exact hstep e c s x s₁ hx
        | before y =>
          simp only [Sem.faulty, Option.some.injEq, Prod.mk.injEq] at hx
          exact hx.1 ▸ herror e y
        | after y =>
          obtain ⟨y', -, heq⟩ := Option.map_eq_some_iff.mp hx
          simp only [Prod.mk.injEq] at heq
          exact heq.1 ▸ herror e y
      exact (ih x (hp.2 x hx') _ hr).trans hs₁

theorem Quiet.atomic {p : Prog E ε α} (hp : Quiet commits p) {ρ : Replies E ε} {n : Nat} {s : σ} :
    S.Atomic inner store Q ρ i n p s :=
  fun _ _ _ hr => .inl (hp.run hkeep hr)

theorem Sem.Atomic.outer {β : Type} {e : E β} {k : Except ε β → Prog E ε α} {ρ : Replies E ε}
    {n : Nat} {s : σ} (hi : inner β e = false) (hc : commits β e = false)
    (herr : ∀ x, Quiet commits (k (.error x)))
    (hok : ∀ c a s₁, S.step i c s e = some (.ok a, s₁) →
      S.Atomic inner store Q ρ i n (k (.ok a)) s₁) :
    S.Atomic inner store Q ρ i n (.op e k) s := by
  intro cs r s' hr
  obtain ⟨⟨f, c⟩, cs', x, s₁, rfl, hx, hr⟩ := (Sem.runWith_outer hi).mp hr
  have hs₁ := Sem.faulty_keeps hkeep hc hx
  cases x with
  | error y => exact .inl (((herr y).run hkeep hr).trans hs₁)
  | ok a =>
    have hclean : S.step i c s e = some (.ok a, s₁) := by
      cases f with
      | none => exact hx
      | before y => simp [Sem.faulty] at hx
      | after y => simp [Sem.faulty] at hx
    obtain heq | hrun := hok c a s₁ hclean cs' r s' hr
    · exact .inl (heq.trans hs₁)
    · right
      intro ρ' hρ n'
      obtain ⟨cs'', r', s'', hr', hq⟩ := hrun ρ' hρ n'
      exact ⟨c :: cs'', r', s'',
        (Sem.runWith_outer hi).mpr ⟨c, cs'', _, s₁, rfl, hclean, hr'⟩, hq⟩

theorem Staged.atomic {p : Prog E ε α} (hp : Staged inner commits Q p)
    (hcommit : ∀ {β : Type} (e : E β) c s x s', commits β e = true →
      S.step i c s e = some (x, s') → ∃ a, x = .ok a)
    {ρ : Replies E ε} {n : Nat} {s : σ} : S.Atomic inner store Q ρ i n p s := by
  induction hp generalizing n s with
  | quiet hq => exact hq.atomic hkeep
  | @commit β e k hi hc hquiet hset =>
    intro cs r s' hr
    obtain ⟨⟨f, c⟩, cs', x, s₁, rfl, hx, hr⟩ := (Sem.runWith_outer hi).mp hr
    have hs' := (hquiet x).run hkeep hr
    have hdone : ∀ x₁ s₂, S.step i c s e = some (x₁, s₂) → s₂ = s₁ →
        ∀ ρ', Healthy inner ρ' → ∀ n', ∃ cs' r' s'',
          S.runWith inner ρ' i n' cs' (.op e k) s = some (r', s'') ∧ store s'' = store s' ∧
            Q r' := by
      intro x₁ s₂ h₁ hs₂ ρ' hρ n'
      obtain ⟨a, rfl⟩ := hcommit e c s x₁ s₂ hc h₁
      obtain ⟨r', hr', hq⟩ := (hset a).run (S := S) (i := i) hρ n' s₂
      exact ⟨[c], r', s₂, (Sem.runWith_outer hi).mpr ⟨c, [], _, s₂, rfl, h₁, hr'⟩, by rw [hs', hs₂],
        hq⟩
    cases f with
    | none => exact .inr (hdone x s₁ hx rfl)
    | before y =>
      simp only [Sem.faulty, Option.some.injEq, Prod.mk.injEq] at hx
      rw [← hx.2] at hs'
      exact .inl hs'
    | after y =>
      obtain ⟨⟨x₁, s₂⟩, h₁, heq⟩ := Option.map_eq_some_iff.mp hx
      simp only [Prod.mk.injEq] at heq
      exact .inr (hdone x₁ s₂ h₁ heq.2)
  | outer hi hc _ herr ih => exact .outer hkeep hi hc herr fun _ a _ _ => ih a
  | @inner β e k q hi _ hok herr ih =>
    intro cs r s' hr
    rw [Sem.runWith_inner hi] at hr
    have hq : S.faulty.runWith inner ρ i (n + 1) cs q s = some (r, s') →
        store s' = store s ∨ ∀ ρ', Healthy inner ρ' → ∀ n', ∃ cs' r' s'',
          S.runWith inner ρ' i n' cs' (.op e k) s = some (r', s'') ∧ store s'' = store s' ∧
            Q r' := by
      intro hr
      refine (ih cs r s' hr).imp_right fun hrun ρ' hρ n' => ?_
      obtain ⟨a, ha⟩ := hρ n' β e hi
      obtain ⟨cs', r', s'', hr', hq⟩ := hrun ρ' hρ (n' + 1)
      refine ⟨cs', r', s'', ?_, hq⟩
      rw [Sem.runWith_inner hi, ha, hok]
      exact hr'
    cases hx : ρ n β e with
    | ok a =>
      rw [hx, hok] at hr
      exact hq hr
    | error x =>
      rw [hx] at hr
      obtain heq | hquiet := herr x
      · rw [heq] at hr
        exact hq hr
      · exact .inl (hquiet.run hkeep hr)

end

end Effect
