import AsyncPulse.LastWriter
import AsyncPulse.Lineage
set_option autoImplicit false

namespace AsyncPulse
open Effect

variable {γ χ : Type} {cfg : Config} {C : MayCache Key Json γ χ}

inductive Column where
  | email
  | name
  | username
  | hashedPassword
  | status
  | role
  | deletedAt
  | createdAt
  | updatedAt
  deriving DecidableEq, Repr

abbrev Column.Value : Column → Type
  | .email | .username | .hashedPassword => String
  | .name => Option String
  | .status => UserStatus
  | .role => UserRole
  | .deletedAt => Option Time
  | .createdAt | .updatedAt => Time

instance : (c : Column) → DecidableEq c.Value
  | .email | .username | .hashedPassword => inferInstanceAs (DecidableEq String)
  | .name => inferInstanceAs (DecidableEq (Option String))
  | .status => inferInstanceAs (DecidableEq UserStatus)
  | .role => inferInstanceAs (DecidableEq UserRole)
  | .deletedAt => inferInstanceAs (DecidableEq (Option Time))
  | .createdAt | .updatedAt => inferInstanceAs (DecidableEq Time)

def UserModel.get (x : UserModel) : (c : Column) → c.Value
  | .email => x.email
  | .name => x.name
  | .username => x.username
  | .hashedPassword => x.hashedPassword
  | .status => x.status
  | .role => x.role
  | .deletedAt => x.deletedAt
  | .createdAt => x.createdAt
  | .updatedAt => x.updatedAt

theorem UserModel.get_patch (l n x : UserModel) (c : Column) :
    (l.patch n x).get c = column (l.get c) (n.get c) (x.get c) := by
  cases c <;> rfl

def Column.ownedBy (k : Call) : Column → Bool
  | .email | .username =>
    match k with
    | .updateUser _ _ | .updateUserRoute _ _ _ => true
    | _ => false
  | .hashedPassword =>
    match k with
    | .setPassword _ _ => true
    | _ => false
  | .status =>
    match k with
    | .changeStatus _ _ => true
    | _ => false
  | .deletedAt =>
    match k with
    | .deleteUser _ | .deleteUserRoute _ _ => true
    | _ => false
  | .updatedAt =>
    match k with
    | .updateUser _ _ | .updateUserRoute _ _ _ | .setPassword _ _ | .changeStatus _ _
    | .deleteUser _ | .deleteUserRoute _ _ => true
    | _ => false
  | .name | .role | .createdAt => false

theorem Call.Alters.owned {k : Call} {h : List Act} {l n : UserModel} (ha : k.Alters h l n)
    {c : Column} (hc : n.get c ≠ l.get c) : c.ownedBy k = true := by
  have hrest : ∀ l' : UserModel, n = l' → l'.get c ≠ l.get c := by
    intro l' hn
    rw [← hn]
    exact hc
  cases k with
  | updateUser _ _ | updateUserRoute _ _ _ | setPassword _ _ | deleteUser _
  | deleteUserRoute _ _ =>
    have hne := hrest _ ha
    cases c <;> first | rfl | exact absurd rfl hne
  | changeStatus _ _ =>
    have hne := hrest _ ha.1
    cases c <;> first | rfl | exact absurd rfl hne
  | _ => exact ha.elim

def Write.sets (u : String) (c : Column) : Write → Option c.Value
  | .updateUser l n => if l.id = u ∧ n.get c ≠ l.get c then some (n.get c) else none
  | _ => none

theorem Write.sets_eq_some {u : String} {c : Column} {v : Write} {a : c.Value}
    (h : v.sets u c = some a) :
    ∃ l n, v = .updateUser l n ∧ l.id = u ∧ n.get c ≠ l.get c ∧ a = n.get c := by
  cases v with
  | updateUser l n =>
    simp only [sets, Option.ite_none_right_eq_some, Option.some.injEq] at h
    exact ⟨l, n, rfl, h.1.1, h.1.2, h.2.symm⟩
  | _ => cases h

theorem Database.apply_sets {u : String} (c : Column) (d : Database) (v : Write) (a : c.Value)
    (hd : (d.users.get u).map (fun x => x.get c) = some a) :
    ((d.apply v).users.get u).map (fun x => x.get c) = some ((v.sets u c).getD a) := by
  obtain ⟨x, hx, rfl⟩ := Option.map_eq_some_iff.mp hd
  cases v with
  | insertSession r => exact hd
  | updateSession l n => exact hd
  | insertUser r =>
    rw [Database.apply, Keyed.get_insert_of_get hx r]
    rfl
  | updateUser l n =>
    rw [Database.apply, Keyed.get_modify]
    by_cases hu : u = l.id
    · rw [if_pos hu, hx]
      simp only [Option.map_some, UserModel.get_patch, column, Write.sets]
      by_cases hn : n.get c = l.get c
      · simp [hn]
      · simp [hn, hu]
    · rw [if_neg hu, hx]
      simp [Write.sets, Ne.symm hu]

theorem Database.applyAll_sets {u : String} (c : Column) {d : Database} {ws : List Write}
    {x y : UserModel} (hx : d.users.get u = some x) (hy : (d.applyAll ws).users.get u = some y) :
    y.get c = LastWriter.last (Write.sets u c) ws (x.get c) := by
  have hread := LastWriter.read_foldl (Database.apply_sets c)
    (show (d.users.get u).map (fun z => z.get c) = some (x.get c) by rw [hx]; rfl) ws
  rw [← Database.applyAll, hy] at hread
  exact Option.some.inj hread

def commitOf (l : Label Call (Choice χ)) (s : State γ) : List (Nat × Write) :=
  match l with
  | .step i _ =>
    match s.calls i with
    | some (_, .op e _) => if e.isCommit = true then (s.world.pending i).map (i, ·) else []
    | _ => []
  | _ => []

def commitLog (cfg : Config) (C : MayCache Key Json γ χ) :
    List (Label Call (Choice χ)) → State γ → List (Nat × Write)
  | [], _ => []
  | l :: ls, s =>
    match (app cfg C).exec l s with
    | some s' => commitOf l s ++ commitLog cfg C ls s'
    | none => []

theorem commitLog_cons {l : Label Call (Choice χ)} {ls : List (Label Call (Choice χ))}
    {s s' : State γ} (hs : (app cfg C).exec l s = some s') :
    commitLog cfg C (l :: ls) s = commitOf l s ++ commitLog cfg C ls s' := by
  rw [commitLog, hs]

theorem exec_db {l : Label Call (Choice χ)} {s s' : State γ}
    (hs : (app cfg C).exec l s = some s') :
    s'.world.db = s.world.db.applyAll ((commitOf l s).map Prod.snd) := by
  cases Service.exec_move _ hs with
  | call hn ha => rfl
  | tick ht =>
    obtain ⟨-, rfl⟩ := app_tick ht
    rfl
  | @step i c s k β e f r w hc he =>
    have hmv := (semantics_step he).1
    simp only [commitOf, hc]
    rw [hmv.db]
    by_cases hcom : e.isCommit = true
    · rw [if_pos (semantics_commit hcom he).2, if_pos hcom]
      simp [World.view, Function.comp_def]
    · rw [if_neg fun ha => hcom (Eff.isCommit_of_act ha), if_neg hcom]
      rfl

/-- The committed tables are the old ones after the log, whatever the interleaving. -/
theorem execs_db {ls : List (Label Call (Choice χ))} {s s' : State γ}
    (hs : (app cfg C).execs ls s = some s') :
    s'.world.db = s.world.db.applyAll ((commitLog cfg C ls s).map Prod.snd) := by
  induction ls generalizing s with
  | nil =>
    cases hs
    rfl
  | cons l ls ih =>
    simp only [Service.execs] at hs
    split at hs
    · rename_i s₁ h₁
      rw [ih hs, exec_db h₁, commitLog_cons h₁, List.map_append, Database.applyAll_append]
    · cases hs

theorem exec_hist {l : Label Call (Choice χ)} {s s' : State γ}
    (hs : (app cfg C).exec l s = some s') {i : Nat} {a : Act} (ha : a ∈ s.world.hist i) :
    a ∈ s'.world.hist i := by
  cases Service.exec_move _ hs with
  | call hn hacc => exact ha
  | tick ht =>
    obtain ⟨-, rfl⟩ := app_tick ht
    exact ha
  | step hc he => exact (semantics_step he).1.mem_hist.mpr (.inl ha)

theorem commitLog_written {ls : List (Label Call (Choice χ))} {s s' : State γ}
    (hr : Reachable cfg C s) (hs : (app cfg C).execs ls s = some s') {i : Nat} {v : Write}
    (hv : (i, v) ∈ commitLog cfg C ls s) : .wrote v ∈ s'.world.hist i := by
  induction ls generalizing s with
  | nil => cases hv
  | cons l ls ih =>
    simp only [Service.execs] at hs
    split at hs
    swap
    · cases hs
    rename_i s₁ h₁
    rw [commitLog_cons h₁] at hv
    cases List.mem_append.mp hv with
    | inr hv => exact ih (hr.exec h₁) hs hv
    | inl hv =>
      have hpend : v ∈ s.world.pending i := by
        unfold commitOf at hv
        split at hv
        · split at hv
          · split at hv
            · obtain ⟨v', hv', heq⟩ := List.mem_map.mp hv
              cases heq
              exact hv'
            · cases hv
          · cases hv
        · cases hv
      rw [hr.provenance.pending i] at hpend
      have hwrote : .wrote v ∈ s.world.hist i := by
        split at hpend
        · exact mem_written.mp hpend
        · cases hpend
      refine (app cfg C).execs_invariant (P := fun s => .wrote v ∈ s.world.hist i)
        (A := fun _ _ => True) (fun l s s' hw _ he => exec_hist he hw) (exec_hist h₁ hwrote)
        (app cfg C).along_trivial hs

theorem Provenance.sets_owned {m : Nat → Option Call} {w : World γ} (h : Provenance cfg C m w)
    {i : Nat} {l n : UserModel} (hw : .wrote (.updateUser l n) ∈ w.hist i) :
    ∃ k, m i = some k ∧ ∀ c : Column, n.get c ≠ l.get c → c.ownedBy k = true := by
  obtain ⟨k, h₁, h₂, hm, -, -, -, -, -, -, -, halters⟩ := h.wrote hw
  exact ⟨k, hm, fun c hc => halters.owned hc⟩

/-- Every column of a user holds what the last committed statement that changed it has put there,
and that was sent by a call that owns the column. -/
theorem last_change_stands {s₀ s : State γ} {ls : List (Label Call (Choice χ))} {u : String}
    {x : UserModel} (hr : Reachable cfg C s₀) (hs : (app cfg C).execs ls s₀ = some s)
    (hx : s₀.world.db.users.get u = some x) :
    (∀ i l n, .wrote (.updateUser l n) ∈ s.world.hist i →
      ∃ k, s.script i = some k ∧ ∀ c : Column, n.get c ≠ l.get c → c.ownedBy k = true) ∧
    ∃ y, s.world.db.users.get u = some y ∧ ∀ c : Column,
      (y.get c = x.get c ∧ ∀ e ∈ commitLog cfg C ls s₀, e.2.sets u c = none) ∨
      ∃ log₁ i v log₂ k, commitLog cfg C ls s₀ = log₁ ++ (i, v) :: log₂ ∧
        v.sets u c = some (y.get c) ∧ (∀ e ∈ log₂, e.2.sets u c = none) ∧
        s.script i = some k ∧ c.ownedBy k = true := by
  have hp := (hr.execs hs).provenance
  refine ⟨fun i l n hw => hp.sets_owned hw, ?_⟩
  obtain ⟨y, hy, -⟩ := (hr.grows hs).users u x hx
  refine ⟨y, hy, fun c => ?_⟩
  have hlast : y.get c = LastWriter.last (fun e : Nat × Write => e.2.sets u c)
      (commitLog cfg C ls s₀) (x.get c) := by
    rw [Database.applyAll_sets c hx (execs_db hs ▸ hy), LastWriter.last_map]
    rfl
  obtain ⟨heq, hnone⟩ | ⟨log₁, ⟨i, v⟩, log₂, hlog, hv, hnone⟩ :=
    LastWriter.last_cases (fun e : Nat × Write => e.2.sets u c) (commitLog cfg C ls s₀) (x.get c)
  · exact .inl ⟨hlast.trans heq, hnone⟩
  · obtain ⟨l, n, rfl, -, hne, -⟩ := Write.sets_eq_some hv
    obtain ⟨k, hk, howned⟩ := hp.sets_owned
      (commitLog_written hr hs (i := i) (v := .updateUser l n) (by simp [hlog]))
    exact .inr ⟨log₁, i, _, log₂, k, hlog, hlast ▸ hv, hnone, hk, howned c hne⟩

/-- An administrator has loaded alice's row when she changes her address, and suspends her then. -/
def editAndSuspend : List (Label Call (Choice Unit)) :=
  .call 0 (.updateUser "alice" { email := some "a@example.org", username := none }) ::
    .call 1 (.changeStatus "alice" .suspended) :: effects 1 3 1 "" ++ effects 0 8 2 "" ++
    effects 1 8 3 ""

theorem last_change_stands_alice : ∃ (s : State (TimedStore Key Json)) (y : UserModel),
    sampleApp.execs editAndSuspend sampleState = some s ∧
    s.world.db.users.get "alice" = some y ∧ y.email = "a@example.org" ∧ y.status = .suspended ∧
    ∀ c : Column,
      (y.get c = alice.get c ∧ ∀ e ∈ commitLog sampleConfig TimedStore.reliable editAndSuspend
        sampleState, e.2.sets "alice" c = none) ∨
      ∃ log₁ i v log₂ k, commitLog sampleConfig TimedStore.reliable editAndSuspend sampleState =
          log₁ ++ (i, v) :: log₂ ∧ v.sets "alice" c = some (y.get c) ∧
        (∀ e ∈ log₂, e.2.sets "alice" c = none) ∧ s.script i = some k ∧ c.ownedBy k = true := by
  have hs : sampleApp.execs editAndSuspend sampleState =
      some (sampleApp.afterwards editAndSuspend sampleState) :=
    Service.execs_afterwards _ (by decide +kernel)
  obtain ⟨-, y, hy, hcolumns⟩ := last_change_stands (u := "alice") (x := alice)
    sampleState_reachable hs (by decide +kernel)
  have hrow : ((sampleApp.afterwards editAndSuspend sampleState).world.db.users.get "alice").map
      (fun z => (z.email, z.status)) = some ("a@example.org", .suspended) := by
    decide +kernel
  rw [hy] at hrow
  obtain ⟨hemail, hstatus⟩ := Prod.mk.inj (Option.some.inj hrow)
  exact ⟨_, y, hs, hy, hemail, hstatus, hcolumns⟩

end AsyncPulse
