import Mathlib.Data.List.Basic
set_option autoImplicit false

/-- A cache known only by what it may answer: `holds g k v` when some later `get` of `k` may
still return `v`. Entries may be lost at any time, and every entry was once written. The
number is the client asking, and times are in the clock's own unit. -/
structure MayCache (κ ν γ χ : Type) where
  get : Nat → χ → Int → κ → γ → Option ν × γ
  set : Nat → χ → Int → κ → ν → Option Int → γ → γ
  delete : Nat → χ → Int → κ → γ → γ
  holds : γ → κ → ν → Prop
  get_holds : ∀ i c t k g v, (get i c t k g).1 = some v → holds g k v
  holds_get : ∀ i c t k g k' v, holds (get i c t k g).2 k' v → holds g k' v
  holds_set : ∀ i c t k v ttl g k' v', holds (set i c t k v ttl g) k' v' →
    holds g k' v' ∨ k' = k ∧ v' = v
  holds_delete : ∀ i c t k g k' v, holds (delete i c t k g) k' v → holds g k' v

namespace MayCache

variable {κ ν γ χ : Type}

/-- Every delete succeeds: nobody can be served the deleted entry again. -/
def Exact (C : MayCache κ ν γ χ) : Prop :=
  ∀ i c t k g v, ¬ C.holds (C.delete i c t k g) k v

end MayCache

abbrev TimedStore (κ ν : Type) := List (κ × ν × Option Int)

namespace TimedStore

variable {κ ν : Type} [DecidableEq κ]

def get (gone : Int → Bool) (k : κ) (g : TimedStore κ ν) : Option ν :=
  match g.lookup k with
  | some (v, some e) => if gone e then none else some v
  | some (v, none) => some v
  | none => none

def set (k : κ) (v : ν) (e : Option Int) (g : TimedStore κ ν) : TimedStore κ ν :=
  (k, v, e) :: g.filter fun x => x.1 ≠ k

def delete (k : κ) (g : TimedStore κ ν) : TimedStore κ ν := g.filter fun x => x.1 ≠ k

def Has (g : TimedStore κ ν) (k : κ) (v : ν) : Prop := ∃ e, (k, v, e) ∈ g

theorem has_set {k k' : κ} {v v' : ν} {e : Option Int} {g : TimedStore κ ν}
    (h : (g.set k v e).Has k' v') : g.Has k' v' ∨ k' = k ∧ v' = v := by
  obtain ⟨e', h⟩ := h
  rcases List.mem_cons.mp h with he | hm
  · simp only [Prod.mk.injEq] at he
    exact .inr ⟨he.1, he.2.1⟩
  · exact .inl ⟨e', (List.mem_filter.mp hm).1⟩

theorem has_delete {k k' : κ} {v : ν} {g : TimedStore κ ν} (h : (g.delete k).Has k' v) :
    g.Has k' v ∧ k' ≠ k := by
  obtain ⟨e, h⟩ := h
  obtain ⟨hm, hk⟩ := List.mem_filter.mp h
  exact ⟨⟨e, hm⟩, by simpa using hk⟩

def live (gone : Int → Bool) (g : TimedStore κ ν) : TimedStore κ ν :=
  g.filter fun x => !x.2.2.any gone

omit [DecidableEq κ] in
theorem live_sub {gone gone' : Int → Bool} (h : ∀ e, gone e = true → gone' e = true)
    {g : TimedStore κ ν} {x : κ × ν × Option Int} (hx : x ∈ g.live gone') : x ∈ g.live gone := by
  obtain ⟨hm, hl⟩ := List.mem_filter.mp hx
  refine List.mem_filter.mpr ⟨hm, ?_⟩
  cases he : x.2.2 with
  | none => rfl
  | some e =>
    cases hg : gone e with
    | false => simp [hg]
    | true => simp [he, h e hg] at hl

theorem live_of_get {gone : Int → Bool} {g : TimedStore κ ν} {k : κ} {v : ν}
    (h : g.get gone k = some v) : ∃ e, (k, v, e) ∈ g.live gone := by
  have hm : ∀ x, g.lookup k = some x → (k, x) ∈ g := fun x hx => by
    obtain ⟨l₁, l₂, rfl, -⟩ := List.lookup_eq_some_iff.mp hx
    simp
  unfold get at h
  split at h
  · rename_i v' e hl
    split at h
    · cases h
    · rename_i hgone
      cases h
      exact ⟨some e, List.mem_filter.mpr ⟨hm _ hl, by simpa using hgone⟩⟩
  · rename_i v' hl
    cases h
    exact ⟨none, List.mem_filter.mpr ⟨hm _ hl, rfl⟩⟩
  · cases h

theorem has_of_get {gone : Int → Bool} {k : κ} {v : ν} {g : TimedStore κ ν}
    (h : g.get gone k = some v) : g.Has k v := by
  obtain ⟨e, he⟩ := live_of_get h
  exact ⟨e, (List.mem_filter.mp he).1⟩

theorem mem_live_set {gone : Int → Bool} {g : TimedStore κ ν} {k : κ} {v : ν} {e : Option Int}
    {x : κ × ν × Option Int} (hx : x ∈ (g.set k v e).live gone) :
    (x.1 = k ∧ x.2.1 = v) ∨ x ∈ g.live gone ∧ x.1 ≠ k := by
  obtain ⟨hm, hl⟩ := List.mem_filter.mp hx
  cases List.mem_cons.mp hm with
  | inl he => exact .inl (by rw [he]; exact ⟨rfl, rfl⟩)
  | inr hm =>
    obtain ⟨hm, hk⟩ := List.mem_filter.mp hm
    exact .inr ⟨List.mem_filter.mpr ⟨hm, hl⟩, by simpa using hk⟩

theorem mem_live_delete {gone : Int → Bool} {g : TimedStore κ ν} {k : κ} {x : κ × ν × Option Int}
    (hx : x ∈ (g.delete k).live gone) : x ∈ g.live gone ∧ x.1 ≠ k := by
  obtain ⟨hm, hl⟩ := List.mem_filter.mp hx
  obtain ⟨hm, hk⟩ := List.mem_filter.mp hm
  exact ⟨List.mem_filter.mpr ⟨hm, hl⟩, by simpa using hk⟩

def reliable : MayCache κ ν (TimedStore κ ν) Unit where
  get _ _ t k g := (g.get (fun e => e ≤ t) k, g)
  set _ _ t k v ttl g := g.set k v (ttl.map (t + ·))
  delete _ _ _ k g := g.delete k
  holds := Has
  get_holds _ _ _ _ _ _ h := has_of_get h
  holds_get _ _ _ _ _ _ _ h := h
  holds_set _ _ _ _ _ _ _ _ _ h := has_set h
  holds_delete _ _ _ _ _ _ _ h := (has_delete h).1

theorem reliable_exact : (reliable : MayCache κ ν _ _).Exact :=
  fun _ _ _ _ _ _ h => (has_delete h).2 rfl

end TimedStore
