import Mathlib.Data.List.Nodup
import Mathlib.Data.List.Pairwise
import Mathlib.Data.List.Perm.Basic
import Mathlib.Order.Basic
import Mathlib.Order.Lattice
set_option autoImplicit false

/-! Pages of lists that are sorted by a key. Elements with the same key may come in another order
each time a page is asked for. -/
namespace Paged

variable {α κ : Type}

def page (size p : Nat) (l : List α) : List α := (l.drop (p * size)).take size

def pages (size n : Nat) : Nat := (n + size - 1) / size

theorem lt_pages {size n p : Nat} (hs : 0 < size) : p < pages size n ↔ p * size < n := by
  unfold pages
  rw [Nat.lt_iff_add_one_le, Nat.le_div_iff_mul_le hs, Nat.succ_mul]
  omega

theorem length_page {size p : Nat} {l : List α} (h : (p + 1) * size ≤ l.length) :
    (page size p l).length = size := by
  rw [page, List.length_take, List.length_drop]
  rw [Nat.succ_mul] at h
  omega

theorem page_sublist (size p : Nat) (l : List α) : (page size p l).Sublist l :=
  (List.take_sublist _ _).trans (List.drop_sublist _ _)

theorem mem_page {size p j : Nat} {l : List α} {a : α} (hs : 0 < size) (hnd : l.Nodup)
    (ha : l[j]? = some a) : a ∈ page size p l ↔ j / size = p := by
  obtain ⟨hj, hja⟩ := List.getElem?_eq_some_iff.mp ha
  have hdiv : j / size = p ↔ p * size ≤ j ∧ j < p * size + size := by
    rw [Nat.div_eq_iff hs]
    omega
  rw [hdiv, page, List.mem_take_iff_getElem]
  constructor
  · intro h
    obtain ⟨i, hi, hia⟩ := h
    rw [List.getElem_drop, ← hja] at hia
    have hij := (List.Nodup.getElem_inj_iff hnd).mp hia
    omega
  · intro h
    refine ⟨j - p * size, ?_, ?_⟩
    · rw [List.length_drop]
      omega
    · rw [List.getElem_drop, ← hja]
      congr 1
      omega

variable [LinearOrder κ] (key : α → κ)

def ahead (l : List α) (a : α) : Nat := l.countP fun x => key a < key x

def tied (l : List α) (a : α) : Nat := l.countP fun x => key x = key a

/-- No page ends between two elements with the same key. -/
def Unsplit (size : Nat) (l : List α) : Prop :=
  ∀ a ∈ l, ahead key l a / size = (ahead key l a + tied key l a - 1) / size

instance (size : Nat) (l : List α) : Decidable (Unsplit key size l) :=
  inferInstanceAs (Decidable (∀ _ ∈ _, _))

variable {l s : List α} {j : Nat} {a : α}

theorem tied_pos (ha : a ∈ l) : 0 < tied key l a :=
  List.countP_pos_iff.mpr ⟨a, ha, by simp⟩

theorem countP_split (p : α → Bool) (s : List α) (j : Nat) :
    s.countP p = (s.take j).countP p + (s.drop j).countP p := by
  rw [← List.countP_append, List.take_append_drop]

theorem countP_ahead_or_tied (l : List α) (a : α) :
    l.countP (fun x => key a ≤ key x) = ahead key l a + tied key l a := by
  unfold ahead tied
  induction l with
  | nil => rfl
  | cons x l ih =>
    simp only [List.countP_cons, ih, decide_eq_true_eq]
    rcases lt_trichotomy (key a) (key x) with h | h | h
    · simp only [le_of_lt h, h, ne_of_gt h, if_true, if_false]
      omega
    · simp only [h, le_refl, lt_irrefl, if_true, if_false]
      omega
    · simp only [not_le_of_gt h, not_lt_of_gt h, ne_of_lt h, if_false, Nat.add_zero]

theorem ahead_add_tied_le (l : List α) (a : α) : ahead key l a + tied key l a ≤ l.length := by
  rw [← countP_ahead_or_tied]
  exact List.countP_le_length

variable {key}

theorem ahead_perm (hp : s.Perm l) : ahead key s a = ahead key l a := hp.countP_eq _

theorem tied_perm (hp : s.Perm l) : tied key s a = tied key l a := hp.countP_eq _

theorem sorted_around {R : α → α → Prop} (hs : s.Pairwise R) (ha : s[j]? = some a) :
    (∀ x ∈ s.take j, R x a) ∧ ∀ x ∈ s.drop (j + 1), R a x := by
  obtain ⟨hj, hja⟩ := List.getElem?_eq_some_iff.mp ha
  have hsplit : s.take j ++ a :: s.drop (j + 1) = s := by
    rw [← hja, ← List.drop_eq_getElem_cons, List.take_append_drop]
  rw [← hsplit, List.pairwise_append] at hs
  obtain ⟨-, hcons, hbefore⟩ := hs
  exact ⟨fun x hx => hbefore x hx a List.mem_cons_self, (List.pairwise_cons.mp hcons).1⟩

theorem drop_eq (ha : s[j]? = some a) : s.drop j = a :: s.drop (j + 1) := by
  obtain ⟨hj, hja⟩ := List.getElem?_eq_some_iff.mp ha
  rw [← hja, ← List.drop_eq_getElem_cons]

theorem take_succ_eq (ha : s[j]? = some a) : s.take (j + 1) = s.take j ++ [a] := by
  rw [List.take_add_one, ha, Option.toList_some]

theorem ahead_le (hp : s.Perm l) (hs : s.Pairwise fun x y => key y ≤ key x)
    (ha : s[j]? = some a) : ahead key l a ≤ j := by
  have hnone : (s.drop j).countP (fun x => key a < key x) = 0 := by
    rw [List.countP_eq_zero, drop_eq ha]
    intro x hx
    cases List.mem_cons.mp hx with
    | inl he => simp [he]
    | inr hx => simpa using (sorted_around hs ha).2 x hx
  rw [← ahead_perm hp, ahead, countP_split _ s j, hnone, Nat.add_zero]
  exact Nat.le_trans List.countP_le_length (List.length_take_le _ _)

theorem lt_ahead_add_tied (hp : s.Perm l) (hs : s.Pairwise fun x y => key y ≤ key x)
    (ha : s[j]? = some a) : j < ahead key l a + tied key l a := by
  obtain ⟨hj, -⟩ := List.getElem?_eq_some_iff.mp ha
  have hall : (s.take (j + 1)).countP (fun x => key a ≤ key x) = j + 1 := by
    have hlen : (s.take (j + 1)).length = j + 1 := by
      rw [List.length_take]
      omega
    refine Eq.trans (List.countP_eq_length.mpr ?_) hlen
    intro x hx
    rw [take_succ_eq ha, List.mem_append, List.mem_singleton] at hx
    cases hx with
    | inl hx => simpa using (sorted_around hs ha).1 x hx
    | inr he => simp [he]
  rw [← ahead_perm hp, ← tied_perm hp, ← countP_ahead_or_tied, countP_split _ s (j + 1), hall]
  omega

theorem index_first (hp : s.Perm l) (hs : s.Pairwise fun x y => key y ≤ key x)
    (hfirst : s.Pairwise fun x y => y = a → key x ≠ key a) (ha : s[j]? = some a) :
    j = ahead key l a := by
  obtain ⟨hj, -⟩ := List.getElem?_eq_some_iff.mp ha
  have hall : (s.take j).countP (fun x => key a < key x) = j := by
    have hlen : (s.take j).length = j := by
      rw [List.length_take]
      omega
    refine Eq.trans (List.countP_eq_length.mpr ?_) hlen
    intro x hx
    have hne := (sorted_around hfirst ha).1 x hx rfl
    simpa using lt_of_le_of_ne ((sorted_around hs ha).1 x hx) hne.symm
  apply Nat.le_antisymm _ (ahead_le hp hs ha)
  rw [← ahead_perm hp, ahead, countP_split _ s j, hall]
  omega

theorem index_last (hp : s.Perm l) (hs : s.Pairwise fun x y => key y ≤ key x)
    (hlast : s.Pairwise fun x y => x = a → key y ≠ key a) (ha : s[j]? = some a) :
    j + 1 = ahead key l a + tied key l a := by
  have hnone : (s.drop (j + 1)).countP (fun x => key a ≤ key x) = 0 := by
    rw [List.countP_eq_zero]
    intro x hx
    have hne := (sorted_around hlast ha).2 x hx rfl
    simpa using lt_of_le_of_ne ((sorted_around hs ha).2 x hx) hne
  apply Nat.le_antisymm (lt_ahead_add_tied hp hs ha)
  rw [← ahead_perm hp, ← tied_perm hp, ← countP_ahead_or_tied, countP_split _ s (j + 1), hnone,
    Nat.add_zero]
  exact Nat.le_trans List.countP_le_length (List.length_take_le _ _)

/-- Where no tie is split, the pages contain every element once, however each of them is
sorted. -/
theorem flatMap_pages_perm {size : Nat} (hsize : 0 < size) (hl : l.Nodup)
    (hu : Unsplit key size l) {sorted : Nat → List α} (hp : ∀ p, (sorted p).Perm l)
    (hs : ∀ p, (sorted p).Pairwise fun x y => key y ≤ key x) :
    ((List.range (pages size l.length)).flatMap fun p => page size p (sorted p)).Perm l := by
  have hmem : ∀ a ∈ l, ∀ p, a ∈ page size p (sorted p) ↔ ahead key l a / size = p := by
    intro a ha p
    obtain ⟨j, hj⟩ := List.mem_iff_getElem?.mp ((hp p).mem_iff.mpr ha)
    rw [mem_page hsize ((hp p).nodup_iff.mpr hl) hj]
    have hlow := ahead_le (hp p) (hs p) hj
    have hhigh := lt_ahead_add_tied (hp p) (hs p) hj
    have h₁ : ahead key l a / size ≤ j / size := Nat.div_le_div_right hlow
    have h₂ : j / size ≤ (ahead key l a + tied key l a - 1) / size :=
      Nat.div_le_div_right (by omega)
    rw [← hu a ha] at h₂
    rw [Nat.le_antisymm h₂ h₁]
  have hsub : ∀ p, ∀ a ∈ page size p (sorted p), a ∈ l :=
    fun p a ha => (hp p).mem_iff.mp ((page_sublist size p (sorted p)).mem ha)
  rw [List.perm_ext_iff_of_nodup _ hl]
  · intro a
    rw [List.mem_flatMap]
    constructor
    · intro h
      obtain ⟨p, -, ha⟩ := h
      exact hsub p a ha
    · intro ha
      refine ⟨ahead key l a / size, ?_, (hmem a ha _).mpr rfl⟩
      rw [List.mem_range, lt_pages hsize]
      have hlt := Nat.div_mul_le_self (ahead key l a) size
      have hle := ahead_add_tied_le key l a
      have hpos := tied_pos key ha
      omega
  · rw [List.nodup_flatMap]
    refine ⟨fun p _ => (page_sublist size p _).nodup ((hp p).nodup_iff.mpr hl), ?_⟩
    refine List.Pairwise.imp ?_ List.nodup_range
    intro p q hpq a hap haq
    rw [hmem a (hsub p a hap)] at hap
    rw [hmem a (hsub q a haq)] at haq
    exact hpq (hap.symm.trans haq)

/-- An element whose ties are split can come on two pages. -/
theorem not_nodup_of_split {size : Nat} (hsize : 0 < size) (hl : l.Nodup) (ha : a ∈ l)
    (hsplit : ahead key l a / size ≠ (ahead key l a + tied key l a - 1) / size)
    {sorted : Nat → List α} (hp : ∀ p, (sorted p).Perm l)
    (hs : ∀ p, (sorted p).Pairwise fun x y => key y ≤ key x)
    (hfirst : (sorted (ahead key l a / size)).Pairwise fun x y => y = a → key x ≠ key a)
    (hlast : (sorted ((ahead key l a + tied key l a - 1) / size)).Pairwise
      fun x y => x = a → key y ≠ key a) :
    ¬ ((List.range (pages size l.length)).flatMap fun p => page size p (sorted p)).Nodup := by
  intro hnd
  have hpos := tied_pos key ha
  have hle := ahead_add_tied_le key l a
  have hindex : ∀ p, ∃ j, (sorted p)[j]? = some a :=
    fun p => List.mem_iff_getElem?.mp ((hp p).mem_iff.mpr ha)
  have hin : ∀ j p, (sorted p)[j]? = some a → j / size = p → a ∈ page size p (sorted p) :=
    fun j p hj hjp => (mem_page hsize ((hp p).nodup_iff.mpr hl) hj).mpr hjp
  have hrange : ∀ j, j < l.length → j / size ∈ List.range (pages size l.length) := by
    intro j hj
    rw [List.mem_range, lt_pages hsize]
    exact Nat.lt_of_le_of_lt (Nat.div_mul_le_self j size) hj
  obtain ⟨j, hj⟩ := hindex (ahead key l a / size)
  obtain ⟨j', hj'⟩ := hindex ((ahead key l a + tied key l a - 1) / size)
  have hjf := index_first (hp _) (hs _) hfirst hj
  have hjl := index_last (hp _) (hs _) hlast hj'
  have hsymm : Std.Symm (Function.onFun List.Disjoint fun p => page size p (sorted p)) :=
    ⟨fun _ _ h a ha hb => h hb ha⟩
  have hdisj := (List.nodup_flatMap.mp hnd).2.forall (hrange _ (by omega)) (hrange _ (by omega))
    hsplit
  exact hdisj (hin j _ hj (by rw [hjf])) (hin j' _ hj' (by rw [← hjl, Nat.add_sub_cancel]))

end Paged
