import Mathlib.Logic.Basic
set_option autoImplicit false

/-! Transactions under two-phase locking, over a table with a unique index. -/

namespace Locking

variable {κ ρ ν ι : Type}

def Unique (value : ρ → ν) (f : κ → Option ρ) : Prop :=
  ∀ a b x y, f a = some x → f b = some y → value x = value y → a = b

/-- What is committed, what each transaction sees, and who has locked which row and which
entry of the index. -/
structure Table (κ ρ ν ι : Type) where
  base : κ → Option ρ
  view : ι → κ → Option ρ
  row : κ → Option ι
  entry : ν → Option ι

namespace Table

/-- A transaction changes only rows that it has locked, and an entry that it adds to the index
it has locked as well. -/
structure Guarded (T : Table κ ρ ν ι) (value : ρ → ν) : Prop where
  base : Unique value T.base
  view : ∀ i, Unique value (T.view i)
  untouched : ∀ i a, T.row a ≠ some i → T.view i a = T.base a
  claimed : ∀ i a x, T.view i a = some x → (∀ y, T.base a = some y → value y ≠ value x) →
    T.entry (value x) = some i

structure Keeps (T T' : Table κ ρ ν ι) (i : ι) : Prop where
  row : ∀ j a, j ≠ i → T.row a = some j → T'.row a = some j
  entry : ∀ j v, j ≠ i → T.entry v = some j → T'.entry v = some j

namespace Guarded

variable {T T' : Table κ ρ ν ι} {value : ρ → ν} {i : ι}

theorem others (h : T.Guarded value) (hk : T.Keeps T' i) (hb : T'.base = T.base)
    (hv : ∀ j, j ≠ i → T'.view j = T.view j) {j : ι} (hj : j ≠ i) :
    Unique value (T'.view j) ∧ (∀ a, T'.row a ≠ some j → T'.view j a = T'.base a) ∧
      ∀ a x, T'.view j a = some x → (∀ y, T'.base a = some y → value y ≠ value x) →
        T'.entry (value x) = some j := by
  rw [hv j hj, hb]
  refine ⟨h.view j, fun a ha => h.untouched j a fun hr => ha (hk.row j a hj hr), ?_⟩
  intro a x hx hy
  exact hk.entry j _ hj (h.claimed j a x hx hy)

/-- A transaction writes the row `a`: the row keeps its value, or gets one that the transaction
has locked and sees nowhere else. -/
theorem put (h : T.Guarded value) (hk : T.Keeps T' i) {a : κ} (hb : T'.base = T.base)
    (hv : ∀ j, j ≠ i → T'.view j = T.view j) (hrest : ∀ b, b ≠ a → T'.view i b = T.view i b)
    (hrow : ∀ b, T.row b = some i → T'.row b = some i) (ha : T'.row a = some i)
    (hentry : ∀ v, T.entry v = some i → T'.entry v = some i)
    (hnew : ∀ x, T'.view i a = some x → (∃ y, T.view i a = some y ∧ value y = value x) ∨
      T'.entry (value x) = some i ∧ ∀ b y, b ≠ a → T.view i b = some y → value y ≠ value x) :
    T'.Guarded value := by
  -- Another row does not have the value that the row at `a` gets.
  have hapart : ∀ b x y, b ≠ a → T'.view i a = some x → T'.view i b = some y →
      value x ≠ value y := by
    intro b x y hba hx hy he
    rw [hrest b hba] at hy
    rcases hnew x hx with ⟨z, hz, hzx⟩ | ⟨-, hfree⟩
    · exact hba (h.view i b a y z hy hz (he.symm.trans hzx.symm))
    · exact hfree b y hba hy he.symm
  refine ⟨hb ▸ h.base, fun j => ?_, fun j b => ?_, fun j b => ?_⟩
  · by_cases hj : j = i
    · subst hj
      intro b c x y hx hy he
      by_cases hba : b = a <;> by_cases hca : c = a
      · rw [hba, hca]
      · exact absurd he (hapart c x y hca (hba ▸ hx) hy)
      · exact absurd he.symm (hapart b y x hba (hca ▸ hy) hx)
      · rw [hrest b hba] at hx
        rw [hrest c hca] at hy
        exact h.view j b c x y hx hy he
    · exact (h.others hk hb hv hj).1
  · by_cases hj : j = i
    · subst hj
      intro hr
      have hba : b ≠ a := fun hba => hr (hba ▸ ha)
      rw [hrest b hba, hb]
      exact h.untouched j b fun hr' => hr (hrow b hr')
    · exact (h.others hk hb hv hj).2.1 b
  · by_cases hj : j = i
    · subst hj
      intro x hx hy
      rw [hb] at hy
      by_cases hba : b = a
      · subst hba
        rcases hnew x hx with ⟨z, hz, hzx⟩ | ⟨hent, -⟩
        · rw [← hzx]
          exact hentry _ (h.claimed j b z hz fun y hby => hzx ▸ hy y hby)
        · exact hent
      · rw [hrest b hba] at hx
        exact hentry _ (h.claimed j b x hx hy)
    · exact (h.others hk hb hv hj).2.2 b

theorem mono (h : T.Guarded value) (hb : T'.base = T.base) (hv : T'.view = T.view)
    (hrow : ∀ j a, T.row a = some j → T'.row a = some j)
    (hentry : ∀ j v, T.entry v = some j → T'.entry v = some j) : T'.Guarded value := by
  refine ⟨hb ▸ h.base, fun j => hv ▸ h.view j, fun j a hr => ?_, fun j a x hx hy => ?_⟩
  · rw [hv, hb]
    exact h.untouched j a fun hr' => hr (hrow j a hr')
  · rw [hv] at hx
    rw [hb] at hy
    exact hentry j _ (h.claimed j a x hx hy)

theorem rollback (h : T.Guarded value) (hk : T.Keeps T' i) (hb : T'.base = T.base)
    (hv : ∀ j, j ≠ i → T'.view j = T.view j) (hi : T'.view i = T'.base) : T'.Guarded value := by
  refine ⟨hb ▸ h.base, fun j => ?_, fun j a => ?_, fun j a => ?_⟩
  · by_cases hj : j = i
    · rw [hj, hi, hb]
      exact h.base
    · exact (h.others hk hb hv hj).1
  · by_cases hj : j = i
    · rw [hj, hi]
      exact fun _ => rfl
    · exact (h.others hk hb hv hj).2.1 a
  · by_cases hj : j = i
    · subst hj
      intro x hx hy
      rw [hi] at hx
      exact absurd rfl (hy x hx)
    · exact (h.others hk hb hv hj).2.2 a

/-- A transaction commits under the eyes of another one: the rows that the other has locked look
as before, all other rows look as committed. No value appears twice. -/
theorem unique_of_commit (h : T.Guarded value) {j : ι} (hj : j ≠ i) {g : κ → Option ρ}
    (hown : ∀ a, T.row a = some j → g a = T.view j a)
    (hrest : ∀ a, T.row a ≠ some j → g a = T.view i a) : Unique value g := by
  -- A row of `j` and a row that `j` has not locked.
  have hmixed : ∀ a b x y, T.row a = some j → T.row b ≠ some j → T.view j a = some x →
      T.view i b = some y → value x ≠ value y := by
    intro a b x y ha hb hx hy he
    have hia : T.view i a = T.base a :=
      h.untouched i a fun hr => hj (Option.some.inj (ha.symm.trans hr))
    have hjb : T.view j b = T.base b := h.untouched j b hb
    have hab : a ≠ b := fun hab => hb (hab ▸ ha)
    have hxj : T.entry (value x) = some j := by
      apply h.claimed j a x hx
      intro z hz hzx
      exact hab (h.view i a b z y (hia.trans hz) hy (hzx.trans he))
    have hyi : T.entry (value y) = some i := by
      apply h.claimed i b y hy
      intro z hz hzy
      exact hab (h.view j a b x z hx (hjb.trans hz) (he.trans hzy.symm))
    rw [← he, hxj] at hyi
    exact hj (Option.some.inj hyi)
  intro a b x y hx hy he
  by_cases ha : T.row a = some j <;> by_cases hb : T.row b = some j
  · rw [hown a ha] at hx
    rw [hown b hb] at hy
    exact h.view j a b x y hx hy he
  · rw [hown a ha] at hx
    rw [hrest b hb] at hy
    exact absurd he (hmixed a b x y ha hb hx hy)
  · rw [hrest a ha] at hx
    rw [hown b hb] at hy
    exact absurd he.symm (hmixed b a y x hb ha hy hx)
  · rw [hrest a ha] at hx
    rw [hrest b hb] at hy
    exact h.view i a b x y hx hy he

theorem commit (h : T.Guarded value) (hk : T.Keeps T' i) (hb : T'.base = T.view i)
    (hi : T'.view i = T.view i)
    (hown : ∀ j a, j ≠ i → T.row a = some j → T'.view j a = T.view j a)
    (hrest : ∀ j a, j ≠ i → T.row a ≠ some j → T'.view j a = T.view i a) : T'.Guarded value := by
  refine ⟨hb ▸ h.view i, fun j => ?_, fun j a hr => ?_, fun j a x hx hy => ?_⟩
  · by_cases hj : j = i
    · rw [hj, hi]
      exact h.view i
    · exact h.unique_of_commit hj (fun a => hown j a hj) fun a => hrest j a hj
  · rw [hb]
    by_cases hj : j = i
    · rw [hj, hi]
    · exact hrest j a hj fun hr' => hr (hk.row j a hj hr')
  · rw [hb] at hy
    by_cases hj : j = i
    · subst hj
      rw [hi] at hx
      exact absurd rfl (hy x hx)
    · by_cases hr : T.row a = some j
      · rw [hown j a hj hr] at hx
        have hia : T.view i a = T.base a :=
          h.untouched i a fun hr' => hj (Option.some.inj (hr.symm.trans hr'))
        exact hk.entry j _ hj (h.claimed j a x hx fun z hz => hy z (hia.trans hz))
      · rw [hrest j a hj hr] at hx
        exact absurd rfl (hy x hx)

end Guarded

end Table

end Locking
