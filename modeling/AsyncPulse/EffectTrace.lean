import AsyncPulse.EffectProgram
set_option autoImplicit false

namespace Effect

/-- Effects as a record shows them: the entry that an effect and its outcome leave behind,
and the outcomes that are possible after a given record. -/
structure Trace (E : Type → Type) (ε A : Type) where
  event : {β : Type} → E β → Except ε β → A
  valid : {β : Type} → List A → E β → Except ε β → Prop

/-- Continue an outcome: exceptions skip `f`. -/
def after {ε σ α : Type} (post : ε → σ → Prop) (f : α → σ → Prop) : Except ε α → σ → Prop
  | .ok a, s => f a s
  | .error e, s => post e s

namespace Trace

variable {E : Type → Type} {ε A α β : Type} (T : Trace E ε A) (P : List A → Prop)

@[simp] theorem after_ok {σ : Type} (post : ε → σ → Prop) (f : α → σ → Prop) (a : α) (s : σ) :
    after post f (.ok a) s = f a s := rfl

@[simp] theorem after_error {σ : Type} (post : ε → σ → Prop) (f : α → σ → Prop) (e : ε) (s : σ) :
    after post f (.error e) s = post e s := rfl

/-- However the effects of `p` turn out, the record grows from `h` through records that
satisfy `P`, and at the end of `p` it meets `Q`. -/
def wp : Prog E ε α → (Except ε α → List A → Prop) → List A → Prop
  | .ret r, Q, h => Q r h
  | .op e k, Q, h => ∀ r, T.valid h e r → P (h ++ [T.event e r]) ∧ wp (k r) Q (h ++ [T.event e r])

variable {P}

theorem wp_mono {p : Prog E ε α} {Q Q' : Except ε α → List A → Prop} {h : List A}
    (hp : T.wp P p Q h) (hQ : ∀ r h', Q r h' → Q' r h') : T.wp P p Q' h := by
  induction p generalizing h with
  | ret r => exact hQ r h hp
  | op e k ih => exact fun r hv => ⟨(hp r hv).1, ih r (hp r hv).2⟩

theorem wp_and {P' : List A → Prop} {p : Prog E ε α} {Q Q' : Except ε α → List A → Prop}
    {h : List A} (hp : T.wp P p Q h) (hp' : T.wp P' p Q' h) :
    T.wp P p (fun r h' => Q r h' ∧ Q' r h') h := by
  induction p generalizing h with
  | ret r => exact ⟨hp, hp'⟩
  | op e k ih => exact fun r hv => ⟨(hp r hv).1, ih r (hp r hv).2 (hp' r hv).2⟩

theorem wp_record {p : Prog E ε α} {Q : Except ε α → List A → Prop} {h : List A}
    (h0 : P h) (hp : T.wp P p Q h) :
    T.wp P p (fun r h' => (P h' ∧ ∃ l, h' = h ++ l) ∧ Q r h') h := by
  suffices H : ∀ l, P (h ++ l) → T.wp P p Q (h ++ l) →
      T.wp P p (fun r h' => (P h' ∧ ∃ l, h' = h ++ l) ∧ Q r h') (h ++ l) by
    simpa using H [] (by simpa using h0) (by simpa using hp)
  clear hp h0
  intro l hP hp
  induction p generalizing l with
  | ret r => exact ⟨⟨hP, l, rfl⟩, hp⟩
  | op e k ih =>
    intro r hv
    obtain ⟨h1, h2⟩ := hp r hv
    refine ⟨h1, ?_⟩
    rw [List.append_assoc] at h1 h2 ⊢
    exact ih r _ h1 h2

theorem wp_bind (p : Prog E ε α) (f : α → Prog E ε β) (Q : Except ε β → List A → Prop)
    (h : List A) :
    T.wp P (p >>= f) Q h ↔ T.wp P p (after (fun e => Q (.error e)) fun a => T.wp P (f a) Q) h := by
  induction p generalizing h with
  | ret r => cases r <;> rfl
  | op e k ih =>
    simp only [Prog.op_bind, wp]
    exact forall_congr' fun r => imp_congr_right fun _ => and_congr_right fun _ => ih r _

theorem wp_seq {p : Prog E ε α} {f : α → Prog E ε β} {R : Except ε α → List A → Prop}
    {Q : Except ε β → List A → Prop} {h : List A} (h0 : P h) (hp : T.wp P p R h)
    (hok : ∀ a l, P (h ++ l) → R (.ok a) (h ++ l) → T.wp P (f a) Q (h ++ l))
    (herr : ∀ e l, P (h ++ l) → R (.error e) (h ++ l) → Q (.error e) (h ++ l)) :
    T.wp P (p >>= f) Q h := by
  rw [wp_bind]
  refine T.wp_mono (T.wp_record h0 hp) ?_
  rintro r h' ⟨⟨hP, l, rfl⟩, hR⟩
  cases r with
  | ok a => exact hok a l hP hR
  | error e => exact herr e l hP hR

theorem wp_map (p : Prog E ε α) (f : α → β) (Q : Except ε β → List A → Prop) (h : List A) :
    T.wp P (f <$> p) Q h ↔ T.wp P p (fun r => Q (r.map f)) h := by
  rw [map_eq_pure_bind, wp_bind]
  constructor <;> intro hp <;> refine T.wp_mono hp fun r h' => ?_ <;> cases r <;> exact id

theorem wp_tryCatch (p : Prog E ε α) (f : ε → Prog E ε α) (Q : Except ε α → List A → Prop)
    (h : List A) :
    T.wp P (tryCatch p f) Q h ↔
      T.wp P p (after (fun e => T.wp P (f e) Q) fun a => Q (.ok a)) h := by
  induction p generalizing h with
  | ret r => cases r <;> rfl
  | op e k ih =>
    change (∀ r, _ → _ ∧ T.wp P (tryCatch (k r) f) Q _) ↔ _
    exact forall_congr' fun r => imp_congr_right fun _ => and_congr_right fun _ => ih r _

theorem wp_ensure (p : Prog E ε α) (cleanup : E Unit) (Q : Except ε α → List A → Prop)
    (h : List A) :
    T.wp P (p.ensure cleanup) Q h ↔
      T.wp P p (fun r h' => T.wp P (.perform cleanup) (fun _ => Q r) h') h := by
  induction p generalizing h with
  | ret r => rfl
  | op e k ih =>
    change (∀ r, _ → _ ∧ T.wp P ((k r).ensure cleanup) Q _) ↔ _
    exact forall_congr' fun r => imp_congr_right fun _ => and_congr_right fun _ => ih r _

@[simp] theorem wp_ret (r : Except ε α) (Q : Except ε α → List A → Prop) (h : List A) :
    T.wp P (.ret r) Q h ↔ Q r h := Iff.rfl

@[simp] theorem wp_pure (a : α) (Q : Except ε α → List A → Prop) (h : List A) :
    T.wp P (pure a) Q h ↔ Q (.ok a) h := Iff.rfl

@[simp] theorem wp_throw (e : ε) (Q : Except ε α → List A → Prop) (h : List A) :
    T.wp P (throw e : Prog E ε α) Q h ↔ Q (.error e) h := Iff.rfl

theorem wp_raiseIf (c : Prop) [Decidable c] (e : ε) (Q : Except ε Unit → List A → Prop)
    (h : List A) :
    T.wp P (Prog.raiseIf c e) Q h ↔ (c → Q (.error e) h) ∧ (¬ c → Q (.ok ()) h) := by
  unfold Prog.raiseIf
  split <;> simp_all

theorem wp_suppress (p : Prog E ε Unit) (Q : Except ε Unit → List A → Prop) (h : List A) :
    T.wp P p.suppress Q h ↔ T.wp P p (fun _ => Q (.ok ())) h := by
  rw [Prog.suppress, wp_tryCatch]
  constructor <;> intro hp <;> refine T.wp_mono hp fun r h' => ?_ <;> cases r <;> exact id

/-- The loop rule: `Inv done h` holds after the elements of `done` have been processed. -/
theorem wp_forM (Inv : List α → List A → Prop) {xs : List α} {f : α → Prog E ε Unit}
    {Q : Except ε Unit → List A → Prop} {h : List A} (h0 : Inv [] h)
    (hstep : ∀ done x rest h, xs = done ++ x :: rest → Inv done h →
      T.wp P (f x) (after (fun e => Q (.error e)) fun _ => Inv (done ++ [x])) h)
    (hend : ∀ h, Inv xs h → Q (.ok ()) h) : T.wp P (xs.forM f) Q h := by
  suffices H : ∀ rest done h, xs = done ++ rest → Inv done h →
      T.wp P (rest.forM f) Q h from H xs [] h rfl h0
  intro rest
  induction rest with
  | nil =>
    intro done h hx hi
    rw [List.append_nil] at hx
    exact hend h (hx ▸ hi)
  | cons x rest ih =>
    intro done h hx hi
    change T.wp P (f x >>= fun _ => rest.forM f) Q h
    rw [wp_bind]
    refine T.wp_mono (hstep done x rest h hx hi) fun r h' hr => ?_
    cases r with
    | error e => exact hr
    | ok u => exact ih (done ++ [x]) h' (by simp [hx]) hr

end Trace

end Effect
