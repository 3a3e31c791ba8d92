import Mathlib.Data.List.Induction
set_option autoImplicit false

namespace LastWriter

variable {W S α : Type}

/-- What a log of writes leaves in a register that held `a`, if `sets` tells what a write puts
there. -/
def last (sets : W → Option α) (ws : List W) (a : α) : α := (ws.filterMap sets).getLast?.getD a

@[simp] theorem last_nil (sets : W → Option α) (a : α) : last sets [] a = a := rfl

theorem last_cons (sets : W → Option α) (w : W) (ws : List W) (a : α) :
    last sets (w :: ws) a = last sets ws ((sets w).getD a) := by
  unfold last
  rw [List.filterMap_cons]
  cases sets w with
  | none => rfl
  | some b =>
    rw [List.getLast?_cons]
    rfl

theorem last_snoc (sets : W → Option α) (ws : List W) (w : W) (a : α) :
    last sets (ws ++ [w]) a = (sets w).getD (last sets ws a) := by
  induction ws generalizing a with
  | nil => rw [List.nil_append, last_cons, last_nil, last_nil]
  | cons v ws ih => rw [List.cons_append, last_cons, ih, last_cons]

theorem last_map {V : Type} (sets : W → Option α) (f : V → W) (vs : List V) (a : α) :
    last sets (vs.map f) a = last (sets ∘ f) vs a := by
  rw [last, List.filterMap_map, last]

theorem last_cases (sets : W → Option α) (ws : List W) (a : α) :
    (last sets ws a = a ∧ ∀ w ∈ ws, sets w = none) ∨
      ∃ ws₁ w ws₂, ws = ws₁ ++ w :: ws₂ ∧ sets w = some (last sets ws a) ∧
        ∀ w' ∈ ws₂, sets w' = none := by
  induction ws using List.reverseRecOn with
  | nil => exact .inl ⟨rfl, by simp⟩
  | append_singleton ws w ih =>
    rw [last_snoc]
    cases hw : sets w with
    | some b => exact .inr ⟨ws, w, [], rfl, by simp [hw], by simp⟩
    | none =>
      obtain ⟨heq, hnone⟩ | ⟨ws₁, v, ws₂, hws, hv, hnone⟩ := ih
      · refine .inl ⟨heq, fun v hv => ?_⟩
        cases List.mem_append.mp hv with
        | inl hv => exact hnone v hv
        | inr hv => rw [List.mem_singleton.mp hv, hw]
      · refine .inr ⟨ws₁, v, ws₂ ++ [w], by simp [hws], hv, fun v' hv' => ?_⟩
        cases List.mem_append.mp hv' with
        | inl hv' => exact hnone v' hv'
        | inr hv' => rw [List.mem_singleton.mp hv', hw]

theorem read_foldl {apply : S → W → S} {read : S → Option α} {sets : W → Option α}
    (happly : ∀ s w a, read s = some a → read (apply s w) = some ((sets w).getD a)) {s : S} {a : α}
    (hs : read s = some a) (ws : List W) :
    read (ws.foldl apply s) = some (last sets ws a) := by
  induction ws generalizing s a with
  | nil => exact hs
  | cons w ws ih =>
    rw [List.foldl_cons, last_cons]
    exact ih (happly s w a hs)

end LastWriter
