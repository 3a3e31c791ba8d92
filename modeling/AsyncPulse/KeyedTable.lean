import Mathlib.Data.List.Nodup
set_option autoImplicit false

structure Keyed (κ ρ : Type) (key : ρ → κ) where
  rows : List ρ
  nodup : (rows.map key).Nodup

namespace Keyed

variable {κ ρ : Type} {key : ρ → κ}

theorem eq_of_key (t : Keyed κ ρ key) {r r' : ρ} (h : r ∈ t.rows) (h' : r' ∈ t.rows)
    (hk : key r = key r') : r = r' :=
  List.inj_on_of_nodup_map t.nodup h h' hk

def empty : Keyed κ ρ key := ⟨[], List.nodup_nil⟩

variable [DecidableEq κ]

def get (t : Keyed κ ρ key) (k : κ) : Option ρ := t.rows.find? fun r => key r = k

theorem get_eq_some {t : Keyed κ ρ key} {k : κ} {r : ρ} :
    t.get k = some r ↔ r ∈ t.rows ∧ key r = k := by
  constructor
  · intro h
    exact ⟨List.mem_of_find?_eq_some h, by simpa using List.find?_some h⟩
  · rintro ⟨h, rfl⟩
    cases hg : t.get (key r) with
    | none =>
      have := List.find?_eq_none.mp hg r h
      simp at this
    | some r' =>
      have hk : key r' = key r := by simpa using List.find?_some hg
      rw [t.eq_of_key (List.mem_of_find?_eq_some hg) h hk]

theorem get_eq_none {t : Keyed κ ρ key} {k : κ} : t.get k = none ↔ ∀ r ∈ t.rows, key r ≠ k := by
  simp [get]

theorem key_of_get {t : Keyed κ ρ key} {k : κ} {r : ρ} (h : t.get k = some r) : key r = k :=
  (get_eq_some.mp h).2

theorem mem_of_get {t : Keyed κ ρ key} {k : κ} {r : ρ} (h : t.get k = some r) : r ∈ t.rows :=
  (get_eq_some.mp h).1

theorem get_of_mem {t : Keyed κ ρ key} {r : ρ} (h : r ∈ t.rows) : t.get (key r) = some r :=
  get_eq_some.mpr ⟨h, rfl⟩

@[simp] theorem get_empty (k : κ) : (empty : Keyed κ ρ key).get k = none := rfl

/-- Adds a row at the end. A row whose key is taken is dropped: a database would have
refused it. -/
def insert (t : Keyed κ ρ key) (r : ρ) : Keyed κ ρ key :=
  if h : key r ∈ t.rows.map key then t
  else ⟨t.rows ++ [r], by
    rw [List.map_append, List.map_singleton]
    exact List.Nodup.append t.nodup (List.nodup_singleton _) (by simpa using h)⟩

theorem rows_insert {t : Keyed κ ρ key} {r : ρ} (h : t.get (key r) = none) :
    (t.insert r).rows = t.rows ++ [r] := by
  have hk : key r ∉ t.rows.map key := by
    rw [List.mem_map]
    rintro ⟨r', hr, he⟩
    exact get_eq_none.mp h r' hr he
  simp only [insert, dif_neg hk]

theorem get_insert {t : Keyed κ ρ key} {r : ρ} (h : t.get (key r) = none) (k : κ) :
    (t.insert r).get k = if k = key r then some r else t.get k := by
  have hr := rows_insert h
  unfold get at h ⊢
  rw [hr, List.find?_append]
  by_cases hk : k = key r
  · subst hk
    simp [h]
  · have hk' : ¬ key r = k := fun he => hk he.symm
    simp [hk, hk']

theorem insert_of_taken {t : Keyed κ ρ key} {r r' : ρ} (h : t.get (key r) = some r') :
    t.insert r = t := by
  have hk : key r ∈ t.rows.map key :=
    List.mem_map.mpr ⟨r', mem_of_get h, key_of_get h⟩
  simp only [insert, dif_pos hk]

theorem get_insert_of_get {t : Keyed κ ρ key} {k : κ} {x : ρ} (h : t.get k = some x) (r : ρ) :
    (t.insert r).get k = some x := by
  cases hr : t.get (key r) with
  | none =>
    have hk : k ≠ key r := by
      rintro rfl
      rw [hr] at h
      cases h
    rw [get_insert hr, if_neg hk, h]
  | some r' => rw [insert_of_taken hr, h]

theorem get_of_get_insert {t : Keyed κ ρ key} {k : κ} {x r : ρ} (h : t.get k = none)
    (hx : (t.insert r).get k = some x) : x = r ∧ key r = k := by
  cases hr : t.get (key r) with
  | none =>
    rw [get_insert hr] at hx
    split at hx
    · rename_i hk
      exact ⟨(Option.some.inj hx).symm, hk.symm⟩
    · rw [h] at hx
      cases hx
  | some r' =>
    rw [insert_of_taken hr, h] at hx
    cases hx

def modify (t : Keyed κ ρ key) (k : κ) (f : ρ → ρ) (hf : ∀ r, key (f r) = key r) :
    Keyed κ ρ key :=
  ⟨t.rows.map fun r => if key r = k then f r else r, by
    have hm : (t.rows.map fun r => if key r = k then f r else r).map key = t.rows.map key := by
      rw [List.map_map]
      refine List.map_congr_left fun r _ => ?_
      simp only [Function.comp_apply]
      split
      · exact hf r
      · rfl
    rw [hm]
    exact t.nodup⟩

theorem get_modify (t : Keyed κ ρ key) (k : κ) (f : ρ → ρ) (hf : ∀ r, key (f r) = key r)
    (k' : κ) : (t.modify k f hf).get k' = if k' = k then (t.get k').map f else t.get k' := by
  cases hg : t.get k' with
  | none =>
    have hn : (t.modify k f hf).get k' = none := by
      rw [get_eq_none] at hg ⊢
      intro r hr
      obtain ⟨r₀, hr₀, rfl⟩ := List.mem_map.mp hr
      split
      · rw [hf]
        exact hg r₀ hr₀
      · exact hg r₀ hr₀
    simp [hn]
  | some r =>
    obtain ⟨hr, rfl⟩ := get_eq_some.mp hg
    have hm : (t.modify k f hf).get (key r) = some (if key r = k then f r else r) := by
      refine get_eq_some.mpr ⟨List.mem_map.mpr ⟨r, hr, rfl⟩, ?_⟩
      split
      · exact hf r
      · rfl
    rw [hm]
    split <;> rfl

def Distinct {β : Type} (f : ρ → β) (t : Keyed κ ρ key) : Prop :=
  ∀ r ∈ t.rows, ∀ r' ∈ t.rows, f r = f r' → r = r'

variable {β : Type} {f : ρ → β} {t : Keyed κ ρ key}

theorem Distinct.insert (h : t.Distinct f) {r : ρ} (hr : t.get (key r) = none)
    (hfree : ∀ r' ∈ t.rows, f r' ≠ f r) : (t.insert r).Distinct f := by
  have hmem : ∀ r', r' ∈ (t.insert r).rows → r' ∈ t.rows ∨ r' = r := by
    intro r' hr'
    rw [rows_insert hr, List.mem_append, List.mem_singleton] at hr'
    exact hr'
  intro x hx y hy he
  cases hmem x hx with
  | inl hx =>
    cases hmem y hy with
    | inl hy => exact h x hx y hy he
    | inr hy => exact absurd (hy ▸ he) (hfree x hx)
  | inr hx =>
    cases hmem y hy with
    | inl hy => exact absurd (hx ▸ he.symm) (hfree y hy)
    | inr hy => rw [hx, hy]

theorem Distinct.modify (h : t.Distinct f) {k : κ} {g : ρ → ρ} (hg : ∀ r, key (g r) = key r)
    (hfree : ∀ r ∈ t.rows, key r = k → ∀ r' ∈ t.rows, key r' ≠ k → f (g r) ≠ f r') :
    (t.modify k g hg).Distinct f := by
  intro x hx y hy he
  obtain ⟨x, hx', rfl⟩ := List.mem_map.mp hx
  obtain ⟨y, hy', rfl⟩ := List.mem_map.mp hy
  by_cases hxk : key x = k
  · by_cases hyk : key y = k
    · rw [t.eq_of_key hx' hy' (hxk.trans hyk.symm)]
    · rw [if_pos hxk, if_neg hyk] at he
      exact absurd he (hfree x hx' hxk y hy' hyk)
  · by_cases hyk : key y = k
    · rw [if_neg hxk, if_pos hyk] at he
      exact absurd he.symm (hfree y hy' hyk x hx' hxk)
    · rw [if_neg hxk, if_neg hyk] at he ⊢
      exact h x hx' y hy' he

end Keyed
