import AsyncPulse.EffectSystem
set_option autoImplicit false

namespace Effect

/-- What a collaborator answers to the `n`-th thing it is asked, exceptions included. -/
abbrev Replies (E : Type → Type) (ε : Type) := Nat → (β : Type) → E β → Except ε β

variable {E : Type → Type} {ε σ χ α β A : Type}

def Sem.runWith (S : Sem E ε σ χ) (inner : (β : Type) → E β → Bool) (ρ : Replies E ε) (i : Nat) :
    Nat → List χ → Prog E ε α → σ → Option (Except ε α × σ)
  | _, _, .ret r, s => some (r, s)
  | n, cs, .op e k, s =>
    if inner _ e = true then S.runWith inner ρ i (n + 1) cs (k (ρ n _ e)) s
    else
      match cs with
      | [] => none
      | c :: cs =>
        match S.step i c s e with
        | some (r, s') => S.runWith inner ρ i n cs (k r) s'
        | none => none

section RunWith

variable {S : Sem E ε σ χ} {inner : (β : Type) → E β → Bool} {ρ : Replies E ε} {i n : Nat}
  {cs : List χ} {e : E β} {k : Except ε β → Prog E ε α} {s s' : σ} {r : Except ε α}

theorem Sem.runWith_inner (he : inner β e = true) :
    S.runWith inner ρ i n cs (.op e k) s = S.runWith inner ρ i (n + 1) cs (k (ρ n β e)) s := by
  rw [Sem.runWith.eq_def]
  exact if_pos he

theorem Sem.runWith_outer (he : inner β e = false) :
    S.runWith inner ρ i n cs (.op e k) s = some (r, s') ↔ ∃ c cs' x s₁, cs = c :: cs' ∧
      S.step i c s e = some (x, s₁) ∧ S.runWith inner ρ i n cs' (k x) s₁ = some (r, s') := by
  rw [Sem.runWith.eq_def]
  simp only [he, Bool.false_eq_true, if_false]
  constructor
  · intro h
    cases cs with
    | nil => simp at h
    | cons c cs =>
      simp only at h
      split at h
      · rename_i x s₁ hs
        exact ⟨c, cs, x, s₁, rfl, hs, h⟩
      · simp at h
  · intro h
    obtain ⟨c, cs', x, s₁, rfl, hs, h⟩ := h
    simp only [hs]
    exact h

theorem Sem.runWith_map {f : α → β} {p : Prog E ε α} {n : Nat} {cs : List χ} {s : σ} :
    S.runWith inner ρ i n cs (f <$> p) s =
      (S.runWith inner ρ i n cs p s).map fun y => (y.1.map f, y.2) := by
  induction p generalizing n cs s with
  | ret r => cases r <;> simp only [Sem.runWith] <;> rfl
  | op e k ih =>
    change S.runWith inner ρ i n cs (.op e fun r => f <$> k r) s = _
    rw [Sem.runWith.eq_def, Sem.runWith.eq_def]
    dsimp only
    split
    · exact ih _
    · cases cs with
      | nil => rfl
      | cons c cs =>
        dsimp only
        cases S.step i c s e with
        | none => rfl
        | some y => exact ih y.1

/-- Where every outer effect can happen, every program has a run. -/
theorem Sem.exists_runWith {I : σ → Prop}
    (hstep : ∀ {β : Type} (e : E β) s, inner β e = false → I s →
      ∃ c x s', S.step i c s e = some (x, s') ∧ I s') (p : Prog E ε α) (n : Nat) {s : σ}
    (hs : I s) : ∃ cs r s', S.runWith inner ρ i n cs p s = some (r, s') := by
  induction p generalizing n s with
  | ret r => exact ⟨[], r, s, rfl⟩
  | @op β e k ih =>
    cases hi : inner β e with
    | true =>
      obtain ⟨cs, r, s', hr⟩ := ih (ρ n β e) (n + 1) hs
      exact ⟨cs, r, s', (Sem.runWith_inner hi).trans hr⟩
    | false =>
      obtain ⟨c, x, s₁, hx, hs₁⟩ := hstep e s hi hs
      obtain ⟨cs, r, s', hr⟩ := ih x n hs₁
      exact ⟨c :: cs, r, s', (Sem.runWith_outer hi).mpr ⟨c, cs, x, s₁, rfl, hx, hr⟩⟩

end RunWith

def Plain (inner commits : (β : Type) → E β → Bool) : Prog E ε α → Prop
  | .ret _ => True
  | .op e k => inner _ e = false ∧ commits _ e = false ∧ (∀ a, Plain inner commits (k (.ok a))) ∧
      ∀ x, ∃ y, k (.error x) = .ret (.error y)

namespace Plain

variable {inner commits : (β : Type) → E β → Bool}

theorem perform {e : E α} (hi : inner α e = false) (hc : commits α e = false) :
    Plain inner commits (.perform e : Prog E ε α) :=
  ⟨hi, hc, fun _ => trivial, fun x => ⟨x, rfl⟩⟩

theorem raiseIf {c : Prop} [Decidable c] {x : ε} :
    Plain inner commits (.raiseIf c x : Prog E ε Unit) := by
  unfold Prog.raiseIf
  split <;> exact trivial

theorem bind {p : Prog E ε α} {f : α → Prog E ε β} (hp : Plain inner commits p)
    (hf : ∀ a, Plain inner commits (f a)) : Plain inner commits (p >>= f) := by
  induction p with
  | ret r =>
    cases r with
    | ok a => exact hf a
    | error x => exact trivial
  | op e k ih =>
    obtain ⟨hi, hc, hok, herr⟩ := hp
    refine ⟨hi, hc, fun a => ih (.ok a) (hok a), fun x => ?_⟩
    obtain ⟨y, hy⟩ := herr x
    exact ⟨y, by change (k (.error x) >>= f) = _; rw [hy]; rfl⟩

theorem tryCatch {p : Prog E ε α} {f : ε → Prog E ε α} (hp : Plain inner commits p)
    (hf : ∀ x, ∃ y, f x = .ret (.error y)) : Plain inner commits (tryCatch p f) := by
  induction p with
  | ret r =>
    cases r with
    | ok a => exact trivial
    | error x =>
      obtain ⟨y, hy⟩ := hf x
      change Plain inner commits (f x)
      rw [hy]
      exact trivial
  | op e k ih =>
    obtain ⟨hi, hc, hok, herr⟩ := hp
    refine ⟨hi, hc, fun a => ih (.ok a) (hok a), fun x => ?_⟩
    obtain ⟨y, hy⟩ := herr x
    obtain ⟨z, hz⟩ := hf y
    refine ⟨z, ?_⟩
    change MonadExcept.tryCatch (k (.error x)) f = _
    rw [hy]
    exact hz

theorem forM {xs : List α} {f : α → Prog E ε Unit} (hf : ∀ a, Plain inner commits (f a)) :
    Plain inner commits (xs.forM f) := by
  induction xs with
  | nil => exact trivial
  | cons x xs ih => exact (hf x).bind fun _ => ih

end Plain

/-- Whatever the replies to their inner effects, the two programs go through the same outer
effects, on top of the record `h`, and `R` relates their outcomes to the record at the end. -/
inductive Agree (T : Trace E ε A) (inner : (β : Type) → E β → Bool)
    (R : List A → Except ε α → Except ε α → Prop) :
    List A → Prog E ε α → Prog E ε α → Prop where
  | ret {h : List A} {r r' : Except ε α} : R h r r' → Agree T inner R h (.ret r) (.ret r')
  | outer {h : List A} {β : Type} {e : E β} {k k' : Except ε β → Prog E ε α} :
    inner β e = false → (∀ x, Agree T inner R (h ++ [T.event e x]) (k x) (k' x)) →
      Agree T inner R h (.op e k) (.op e k')
  | left {h : List A} {β : Type} {e : E β} {k : Except ε β → Prog E ε α} {p : Prog E ε α} :
    inner β e = true → (∀ x, Agree T inner R h (k x) p) → Agree T inner R h (.op e k) p
  | right {h : List A} {β : Type} {e : E β} {k : Except ε β → Prog E ε α} {p : Prog E ε α} :
    inner β e = true → (∀ x, Agree T inner R h p (k x)) → Agree T inner R h p (.op e k)

def Oblivious (T : Trace E ε A) (inner : (β : Type) → E β → Bool) (p : Prog E ε α) : Prop :=
  ∀ h, Agree T inner (fun _ r r' => r = r') h p p

def Idle (inner : (β : Type) → E β → Bool) : Prog E ε α → Prop
  | .ret _ => True
  | .op e k => inner _ e = true ∧ ∀ x, Idle inner (k x)

namespace Idle

variable {inner : (β : Type) → E β → Bool}

theorem bind {p : Prog E ε α} {f : α → Prog E ε β} (hp : Idle inner p)
    (hf : ∀ a, Idle inner (f a)) : Idle inner (p >>= f) := by
  induction p with
  | ret r =>
    cases r with
    | ok a => exact hf a
    | error x => exact trivial
  | op e k ih => exact ⟨hp.1, fun x => ih x (hp.2 x)⟩

theorem tryCatch {p : Prog E ε α} {f : ε → Prog E ε α} (hp : Idle inner p)
    (hf : ∀ x, Idle inner (f x)) : Idle inner (tryCatch p f) := by
  induction p with
  | ret r =>
    cases r with
    | ok a => exact trivial
    | error x => exact hf x
  | op e k ih => exact ⟨hp.1, fun x => ih x (hp.2 x)⟩

end Idle

namespace Agree

variable {T : Trace E ε A} {inner : (β : Type) → E β → Bool}
  {R : List A → Except ε β → Except ε β → Prop}

theorem bind {h : List A} {p p' : Prog E ε α} {f : α → Prog E ε β}
    (hp : Agree T inner (fun _ r r' => r = r') h p p') (hf : ∀ a h', Agree T inner R h' (f a) (f a))
    (hR : ∀ x h', R h' (.error x) (.error x)) : Agree T inner R h (p >>= f) (p' >>= f) := by
  induction hp with
  | @ret h r r' hr =>
    subst hr
    cases r with
    | ok a => exact hf a h
    | error x => exact .ret (hR x h)
  | outer hi _ ih => exact .outer hi ih
  | left hi _ ih => exact .left hi ih
  | right hi _ ih => exact .right hi ih

theorem map {h : List A} {p p' : Prog E ε α} {f : α → β}
    (hp : Agree T inner (fun h r r' => R h (r.map f) (r'.map f)) h p p') :
    Agree T inner R h (f <$> p) (f <$> p') := by
  induction hp with
  | @ret h r r' hr => cases r <;> cases r' <;> exact .ret hr
  | outer hi _ ih => exact .outer hi ih
  | left hi _ ih => exact .left hi ih
  | right hi _ ih => exact .right hi ih

theorem mono {R' : List A → Except ε β → Except ε β → Prop} {h : List A} {p p' : Prog E ε β}
    (hp : Agree T inner R h p p') (hR : ∀ h r r', R h r r' → R' h r r') :
    Agree T inner R' h p p' := by
  induction hp with
  | ret hr => exact .ret (hR _ _ _ hr)
  | outer hi _ ih => exact .outer hi ih
  | left hi _ ih => exact .left hi ih
  | right hi _ ih => exact .right hi ih

theorem idle {h : List A} {p p' : Prog E ε β} (hp : Idle inner p) (hp' : Idle inner p')
    (hR : ∀ r r', R h r r') : Agree T inner R h p p' := by
  induction p with
  | ret r =>
    induction p' with
    | ret r' => exact .ret (hR r r')
    | op e k ih => exact .right hp'.1 fun x => ih x (hp'.2 x)
  | op e k ih => exact .left hp.1 fun x => ih x (hp.2 x)

/-- Two runs of programs that agree, with different replies to the inner effects. -/
theorem run {S : Sem E ε σ χ} {i : Nat} {record : σ → List A}
    {R : List A → Except ε α → Except ε α → Prop}
    (hrec : ∀ {β : Type} (e : E β) c s x s', S.step i c s e = some (x, s') →
      record s' = record s ++ [T.event e x]) {ρ ρ' : Replies E ε} {h : List A}
    {p p' : Prog E ε α} (hp : Agree T inner R h p p') {n n' : Nat} {cs : List χ} {s s' : σ}
    {r : Except ε α} (hs : record s = h) (hr : S.runWith inner ρ i n cs p s = some (r, s')) :
    ∃ r', S.runWith inner ρ' i n' cs p' s = some (r', s') ∧ R (record s') r r' := by
  induction hp generalizing n n' cs s with
  | @ret h r₀ r' hR =>
    simp only [Sem.runWith, Option.some.injEq, Prod.mk.injEq] at hr
    obtain ⟨rfl, rfl⟩ := hr
    exact ⟨r', rfl, hs ▸ hR⟩
  | outer hi _ ih =>
    obtain ⟨c, cs', x, s₁, rfl, hx, hr⟩ := (Sem.runWith_outer hi).mp hr
    obtain ⟨r', hr', hR⟩ := @ih x n n' cs' s₁ ((hrec _ _ _ _ _ hx).trans (by rw [hs])) hr
    exact ⟨r', (Sem.runWith_outer hi).mpr ⟨c, cs', x, s₁, rfl, hx, hr'⟩, hR⟩
  | left hi _ ih =>
    rw [Sem.runWith_inner hi] at hr
    exact ih _ hs hr
  | right hi _ ih =>
    obtain ⟨r', hr', hR⟩ := ih _ hs hr
    exact ⟨r', (Sem.runWith_inner hi).trans hr', hR⟩

end Agree

namespace Oblivious

variable {T : Trace E ε A} {inner : (β : Type) → E β → Bool}

theorem ret (r : Except ε α) : Oblivious T inner (.ret r) := fun _ => .ret rfl

theorem bind {p : Prog E ε α} {f : α → Prog E ε β} (hp : Oblivious T inner p)
    (hf : ∀ a, Oblivious T inner (f a)) : Oblivious T inner (p >>= f) :=
  fun h => (hp h).bind (fun a h' => hf a h') fun _ _ => rfl

theorem map {p : Prog E ε α} {f : α → β} (hp : Oblivious T inner p) :
    Oblivious T inner (f <$> p) := by
  rw [map_eq_pure_bind]
  exact hp.bind fun a => ret _

theorem outer {e : E α} (he : inner α e = false) : Oblivious T inner (.perform e : Prog E ε α) :=
  fun _ => .outer he fun _ => .ret rfl

theorem suppress {e : E Unit} (he : inner Unit e = true) :
    Oblivious T inner (Prog.suppress (.perform e) : Prog E ε Unit) := by
  have hret : ∀ x : Except ε Unit,
      (MonadExcept.tryCatch (Prog.ret x) (fun _ => pure ()) : Prog E ε Unit) = .ret (.ok ()) := by
    intro x
    cases x <;> rfl
  intro h
  apply Agree.left he
  intro x
  apply Agree.right he
  intro x'
  change Agree T inner _ h (MonadExcept.tryCatch (Prog.ret x) _)
    (MonadExcept.tryCatch (Prog.ret x') _)
  rw [hret, hret]
  exact .ret rfl

theorem forM {xs : List α} {f : α → Prog E ε Unit} (hf : ∀ a, Oblivious T inner (f a)) :
    Oblivious T inner (xs.forM f) := by
  induction xs with
  | nil => exact ret _
  | cons x xs ih => exact (hf x).bind fun _ => ih

end Oblivious

theorem Plain.oblivious {T : Trace E ε A} {inner commits : (β : Type) → E β → Bool}
    {p : Prog E ε α} (hp : Plain inner commits p) : Oblivious T inner p := by
  induction p with
  | ret r => exact .ret r
  | op e k ih =>
    obtain ⟨hi, -, hok, herr⟩ := hp
    intro h
    apply Agree.outer hi
    intro x
    cases x with
    | ok a => exact ih (.ok a) (hok a) _
    | error x =>
      obtain ⟨y, hy⟩ := herr x
      rw [hy]
      exact .ret rfl

end Effect
