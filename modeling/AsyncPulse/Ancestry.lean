import Mathlib.Logic.Relation
set_option autoImplicit false

namespace Ancestry

open Relation

variable {α : Type} {up : α → α → Prop}

def Top (up : α → α → Prop) (y : α) : Prop := ∀ z, ¬ up y z

def Grounded (up : α → α → Prop) (x : α) : Prop := ∃ y, ReflTransGen up x y ∧ Top up y

theorem Top.eq_of_reaches {x y : α} (hx : Top up x) (h : ReflTransGen up x y) : x = y := by
  cases h.cases_head with
  | inl h => exact h
  | inr h =>
    obtain ⟨z, hz, -⟩ := h
    exact absurd hz (hx z)

section Unique

variable (hu : Relator.RightUnique up)
include hu

theorem top_unique {x y y' : α} (hy : ReflTransGen up x y) (ht : Top up y)
    (hy' : ReflTransGen up x y') (ht' : Top up y') : y = y' := by
  cases ReflTransGen.total_of_right_unique hu hy hy' with
  | inl h => exact ht.eq_of_reaches h
  | inr h => exact (ht'.eq_of_reaches h).symm

theorem Grounded.acc {x : α} (h : Grounded up x) : Acc (fun z x => up x z) x := by
  obtain ⟨y, hy, ht⟩ := h
  induction hy using ReflTransGen.head_induction_on with
  | refl => exact .intro _ fun z hz => absurd hz (ht z)
  | head hab _ ih =>
    refine .intro _ fun z hz => ?_
    rw [hu hz hab]
    exact ih

theorem wellFounded (h : ∀ x, Grounded up x) : WellFounded fun z x => up x z :=
  ⟨fun x => (h x).acc hu⟩

end Unique

end Ancestry
