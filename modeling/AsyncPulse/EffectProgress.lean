import AsyncPulse.EffectSystem
import Mathlib.Algebra.BigOperators.Group.Finset.Basic
import Mathlib.Data.Fintype.Card
import Mathlib.Logic.Hydra
import Mathlib.Logic.Relation
set_option autoImplicit false

namespace Effect
open Relation

universe u

/-- Whichever `R` step is taken, and whichever after it, `P` comes about, and before that there is
always a step to take. -/
inductive Eventually {σ : Type u} (R : σ → σ → Prop) (P : σ → Prop) : σ → Prop where
  | here {s : σ} : P s → Eventually R P s
  | later {s : σ} : (∃ s', R s s') → (∀ s', R s s' → Eventually R P s') → Eventually R P s

namespace Eventually

variable {σ : Type u} {R : σ → σ → Prop} {P : σ → Prop} {s : σ}

/-- Steps come to an end, and none is left only where `P` holds. -/
theorem of_acc {I : σ → Prop} (hacc : Acc (fun s' s => R s s') s)
    (hkeep : ∀ s s', I s → R s s' → I s') (hmove : ∀ s, I s → P s ∨ ∃ s', R s s') (hi : I s) :
    Eventually R P s := by
  induction hacc with
  | intro s _ ih =>
    rcases hmove s hi with hp | hm
    · exact .here hp
    · exact .later hm fun s' hs => ih s' hs (hkeep s s' hi hs)

end Eventually

/-- Where everybody of a finite set waits for somebody of it, some wait for each other in a ring. -/
theorem exists_ring {α : Type u} {U : Set α} {W : α → α → Prop} (hfin : U.Finite)
    (hne : U.Nonempty) (hw : ∀ a ∈ U, ∃ b ∈ U, W a b) : ∃ a ∈ U, TransGen W a a := by
  by_contra hno
  have hirr : ∀ a : U, ¬ TransGen W a a := fun a ha => hno ⟨a, a.2, ha⟩
  have : Finite U := hfin
  have : IsTrans U fun b a => TransGen W a b := ⟨fun _ _ _ hba hcb => hcb.trans hba⟩
  have : Std.Irrefl fun b a : U => TransGen W a b := ⟨hirr⟩
  obtain ⟨a, ha⟩ := hne
  obtain ⟨m, -, hm⟩ := (Finite.wellFounded_of_trans_of_irrefl
    fun b a : U => TransGen W a b).has_min Set.univ ⟨⟨a, ha⟩, trivial⟩
  obtain ⟨b, hb, hmb⟩ := hw m m.2
  exact hm ⟨b, hb⟩ trivial (.single hmb)

namespace Prog

variable {E : Type → Type} {ε α : Type}

inductive Left : Prog E ε α → Prog E ε α → Prop where
  | op {β : Type} (e : E β) (f : Except ε β → Prog E ε α) (r : Except ε β) : Left (f r) (.op e f)

theorem wellFounded_left : WellFounded (Left (E := E) (ε := ε) (α := α)) := by
  refine ⟨fun p => ?_⟩
  induction p with
  | ret r => exact ⟨_, fun q hq => nomatch hq⟩
  | op e f ih =>
    refine ⟨_, fun q hq => ?_⟩
    cases hq
    exact ih _

end Prog

namespace Sys

variable {E : Type → Type} {ε σ κ Out : Type} {s : Sys E ε σ κ Out} {n i : Nat}

def Within (s : Sys E ε σ κ Out) (n : Nat) : Prop := ∀ i, n ≤ i → s.calls i = none

def Unfinished (s : Sys E ε σ κ Out) (i : Nat) : Prop :=
  (s.script i).isSome = true ∧ s.answer i = none

def Settled (s : Sys E ε σ κ Out) : Prop := ∀ i k, s.script i = some k → ∃ r, s.answer i = some r

theorem unfinished_iff : s.Unfinished i ↔
    ∃ k β, ∃ e : E β, ∃ f, s.calls i = some (k, .op e f) := by
  unfold Unfinished script answer
  constructor
  · rintro ⟨hs, ha⟩
    rw [Option.isSome_map] at hs
    obtain ⟨⟨k, p⟩, hc⟩ := Option.isSome_iff_exists.mp hs
    rw [hc] at ha
    cases p with
    | ret r => cases ha
    | op e f => exact ⟨k, _, e, f, hc⟩
  · rintro ⟨k, β, e, f, hc⟩
    rw [hc]
    exact ⟨rfl, rfl⟩

theorem settled_iff : s.Settled ↔ ∀ i, ¬ s.Unfinished i := by
  constructor
  · rintro h i ⟨hs, ha⟩
    obtain ⟨k, hk⟩ := Option.isSome_iff_exists.mp hs
    obtain ⟨r, hr⟩ := h i k hk
    rw [hr] at ha
    cases ha
  · intro h i k hk
    cases hr : s.answer i with
    | some r => exact ⟨r, rfl⟩
    | none => exact absurd ⟨by rw [hk]; rfl, hr⟩ (h i)

theorem Within.lt (h : s.Within n) (hi : s.Unfinished i) : i < n := by
  obtain ⟨k, β, e, f, hc⟩ := unfinished_iff.mp hi
  by_contra hn
  rw [h i (Nat.le_of_not_lt hn)] at hc
  cases hc

theorem Within.update {m : Nat} (h : s.Within n) (hm : n ≤ m) (hi : i < m) (w : σ)
    (x : Option (κ × Prog E ε Out)) : Within ⟨w, Function.update s.calls i x⟩ m := by
  intro j hj
  have hne : j ≠ i := by omega
  exact (Function.update_of_ne hne _ _).trans (h j (hm.trans hj))

def left (s : Sys E ε σ κ Out) (i : Nat) : Multiset (Prog E ε Out) :=
  (s.calls i).elim 0 fun c => {c.2}

def remaining (s : Sys E ε σ κ Out) (n : Nat) : Multiset (Prog E ε Out) :=
  ∑ i ∈ Finset.range n, s.left i

theorem remaining_update {k : κ} {p q : Prog E ε Out} (hi : i < n) (hc : s.calls i = some (k, p))
    (hq : Prog.Left q p) (w : σ) : CutExpand Prog.Left
      (remaining ⟨w, Function.update s.calls i (some (k, q))⟩ n) (s.remaining n) := by
  have hmem : i ∈ Finset.range n := Finset.mem_range.mpr hi
  have hp : s.left i = {p} := by rw [left, hc]; rfl
  have hnew : left ⟨w, Function.update s.calls i (some (k, q))⟩ i = {q} := by
    simp [left]
  have hrest : ∀ j ∈ (Finset.range n).erase i,
      left ⟨w, Function.update s.calls i (some (k, q))⟩ j = s.left j := by
    intro j hj
    simp [left, Function.update_of_ne (Finset.ne_of_mem_erase hj)]
  unfold remaining
  rw [← Finset.add_sum_erase _ _ hmem, ← Finset.add_sum_erase _ s.left hmem, hp, hnew,
    Finset.sum_congr rfl hrest]
  exact cutExpand_single_add hq _

end Sys

namespace Service

variable {E : Type → Type} {ε σ χ κ Out : Type} (S : Service E ε σ χ κ Out)

/-- The surroundings move, and then some call performs its next effect, by a choice that `allow`
lets through. -/
def Advances (allow : Sys E ε σ κ Out → Nat → χ → Prop) (s s' : Sys E ε σ κ Out) : Prop :=
  ∃ (ds : List χ) (i : Nat) (c : χ) (s₁ : Sys E ε σ κ Out),
    S.execs (ds.map Label.tick) s = some s₁ ∧ allow s₁ i c ∧
    S.exec (.step i c) s₁ = some s'

variable {S} {allow : Sys E ε σ κ Out → Nat → χ → Prop} {s s' : Sys E ε σ κ Out} {n : Nat}

theorem exec_step {i : Nat} {c : χ} {k : κ} {β : Type} {e : E β} {f : Except ε β → Prog E ε Out}
    {x : Except ε β × σ} (hc : s.calls i = some (k, .op e f)) (he : S.step i c s.world e = some x) :
    S.exec (.step i c) s = some ⟨x.2, Function.update s.calls i (some (k, f x.1))⟩ := by
  simp only [exec, hc, he]

theorem calls_of_ticks {ds : List χ} (h : S.execs (ds.map Label.tick) s = some s') :
    s'.calls = s.calls := by
  induction ds generalizing s with
  | nil =>
    simp only [List.map_nil, execs, Option.some.injEq] at h
    rw [h]
  | cons d ds ih =>
    simp only [List.map_cons, execs] at h
    split at h
    · rename_i s₁ hs
      cases S.exec_move hs with
      | @tick d _ w hw => exact ih (s := ⟨w, s.calls⟩) h
    · cases h

theorem Advances.within (h : S.Advances allow s s') (hn : s.Within n) : s'.Within n := by
  obtain ⟨ds, i, c, s₁, hds, -, hs⟩ := h
  have hcalls := calls_of_ticks hds
  cases S.exec_move hs with
  | step hc he =>
    rw [hcalls] at hc
    have hi : i < n := hn.lt (Sys.unfinished_iff.mpr ⟨_, _, _, _, hc⟩)
    rw [hcalls]
    exact hn.update (Nat.le_refl n) hi _ _

theorem Advances.remaining (h : S.Advances allow s s') (hn : s.Within n) :
    CutExpand Prog.Left (s'.remaining n) (s.remaining n) := by
  obtain ⟨ds, i, c, s₁, hds, -, hs⟩ := h
  have hcalls := calls_of_ticks hds
  cases S.exec_move hs with
  | step hc he =>
    rw [hcalls] at hc
    have hi : i < n := hn.lt (Sys.unfinished_iff.mpr ⟨_, _, _, _, hc⟩)
    rw [hcalls]
    exact Sys.remaining_update hi hc (.op _ _ _) _

/-- Calls cannot go on for ever. -/
theorem acc_advances (hn : s.Within n) : Acc (fun s' s => S.Advances allow s s') s := by
  have hwf := InvImage.wf (fun s : Sys E ε σ κ Out => s.remaining n)
    (WellFounded.cutExpand Prog.wellFounded_left)
  induction s using hwf.induction with
  | h s ih =>
    exact ⟨_, fun s' hs => ih s' (hs.remaining hn) (hs.within hn)⟩

theorem execs_within {ls : List (Label κ χ)} (hn : s.Within n) (h : S.execs ls s = some s') :
    ∃ m, s'.Within m := by
  induction ls generalizing s n with
  | nil =>
    simp only [execs, Option.some.injEq] at h
    exact ⟨n, h ▸ hn⟩
  | cons l ls ih =>
    simp only [execs] at h
    split at h
    · rename_i s₁ hs
      cases S.exec_move hs with
      | @call i k _ hc ha =>
        exact ih (hn.update (le_max_left n (i + 1)) (le_max_right n (i + 1)) _ _) h
      | @step i c _ k β e f r w hc he =>
        exact ih (hn.update (le_max_left n (i + 1)) (le_max_right n (i + 1)) _ _) h
      | @tick d _ w hw => exact ih (s := ⟨w, s.calls⟩) hn h
    · cases h

/-- Unless all calls have been answered, one of them can go on, or some wait for each other in a
ring. -/
theorem progress {W : Nat → Nat → Prop} (hn : s.Within n) (hstep : ∀ i, s.Unfinished i →
      (∃ c s', allow s i c ∧ S.exec (.step i c) s = some s') ∨ ∃ j, s.Unfinished j ∧ W i j) :
    s.Settled ∨ (∃ s', S.Advances allow s s') ∨ ∃ i, s.Unfinished i ∧ TransGen W i i := by
  by_cases hall : s.Settled
  · exact .inl hall
  · refine .inr ?_
    rw [Sys.settled_iff, not_forall] at hall
    obtain ⟨i, hi⟩ := hall
    by_cases hgo : ∃ s', S.Advances allow s s'
    · exact .inl hgo
    · have hfin : {i | s.Unfinished i}.Finite :=
        (Set.finite_lt_nat n).subset fun i hi => hn.lt hi
      refine .inr (exists_ring hfin ⟨i, not_not.mp hi⟩ fun a ha => ?_)
      rcases hstep a ha with ⟨c, s', hallow, hs⟩ | hj
      · exact absurd ⟨s', [], a, c, s, rfl, hallow, hs⟩ hgo
      · exact hj

end Service

end Effect
