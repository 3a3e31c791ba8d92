import AsyncPulse.Columns
set_option autoImplicit false

namespace AsyncPulse
open Effect

variable {γ χ : Type} {cfg : Config} {C : MayCache Key Json γ χ}

def Write.restates (u : String) : Write → Bool
  | .updateUser l n => l.id = u && n.status ≠ l.status
  | _ => false

def Act.showsStatus (x : UserModel) : Act → Bool
  | .readUsers (.byId u) rows => u ≠ x.id || rows.all fun a => a.status = x.status
  | _ => true

/-- A new status of `u` is committed only while the user still has the status that the call
has checked. -/
def Undisturbed (u : String) : Label Call (Choice χ) → State γ → Prop
  | .step i _, s => s.Next i fun _ e => e.isCommit = true →
      (s.world.pending i).any (Write.restates u) = true →
        ((s.world.db.users.get u).all fun x => (s.world.hist i).all (Act.showsStatus x)) = true
  | _, _ => True

instance (u : String) (l : Label Call (Choice χ)) (s : State γ) : Decidable (Undisturbed u l s) :=
  match l with
  | .step i _ => inferInstanceAs (Decidable (s.Next i _))
  | .call _ _ | .tick _ => .isTrue trivial

theorem Database.applyAll_status {d : Database} {ws : List Write} {u : String} {x y : UserModel}
    (hx : d.users.get u = some x) (hy : (d.applyAll ws).users.get u = some y) :
    y.status = x.status ∨ ∃ l n, .updateUser l n ∈ ws ∧ l.id = u ∧ n.status ≠ l.status ∧
      y.status = n.status := by
  have hlast := Database.applyAll_sets .status hx hy
  obtain ⟨hsame, -⟩ | ⟨ws₁, v, ws₂, hws, hv, -⟩ :=
    LastWriter.last_cases (Write.sets u .status) ws (x.get .status)
  · exact .inl (hlast.trans hsame)
  · obtain ⟨l, n, rfl, hid, hne, hn⟩ := Write.sets_eq_some hv
    exact .inr ⟨l, n, by simp [hws], hid, hne, hlast.trans hn⟩

theorem Call.Alters.status {k : Call} {h : List Act} {l n : UserModel} (ha : k.Alters h l n)
    (hs : n.status ≠ l.status) : ∃ x, .readUsers (.byId l.id) [x] ∈ h ∧
      (n.status = x.status ∨ n.status ∈ User.validTransitions x.status) := by
  cases k with
  | changeStatus u st =>
    obtain ⟨hn, rfl, x, hx, hst⟩ := ha
    rw [hn]
    exact ⟨x, hx, hst⟩
  | updateUser _ _ | updateUserRoute _ _ _ | setPassword _ _ | deleteUser _
  | deleteUserRoute _ _ =>
    rw [show n = _ from ha] at hs
    exact absurd rfl hs
  | _ => exact ha.elim

/-- One move of the system takes the status along one edge at most. -/
theorem Undisturbed.exec {u : String} {s s' : State γ} {l : Label Call (Choice χ)}
    (hr : Reachable cfg C s) (hu : Undisturbed u l s) (hs : (app cfg C).exec l s = some s')
    {x y : UserModel} (hx : s.world.db.users.get u = some x)
    (hy : s'.world.db.users.get u = some y) :
    y.status = x.status ∨ y.status ∈ User.validTransitions x.status := by
  have hp := hr.provenance
  have hsame : s'.world.db = s.world.db → y.status = x.status := by
    intro hdb
    rw [hdb, hx] at hy
    exact congrArg UserModel.status (Option.some.inj hy).symm
  cases hr.change hs with
  | idle _ t _ _ hw =>
    rw [hw] at hsame
    exact .inl (hsame rfl)
  | moved i c k β e f r _ hc _ hmv hl =>
    by_cases hcom : e.act r = .committed
    · have hlaw := (Lawful.snoc_iff.mp hl).2
      rw [hcom] at hlaw
      rw [hmv.db, if_pos hcom] at hy
      obtain hst | ⟨l, n, hm, hid, hne, hst⟩ := Database.applyAll_status hx hy
      · exact .inl hst
      · have hread := Sys.Next.apply hu hc (Eff.isCommit_of_act hcom)
          (List.any_eq_true.mpr ⟨_, hm, by simp [Write.restates, hid, hne]⟩)
        rw [hx, Option.all_some] at hread
        rw [hp.pending_eq hlaw.1, mem_written] at hm
        obtain ⟨k', h₁, h₂, -, he, -, -, -, -, -, -, halt⟩ := hp.wrote hm
        obtain ⟨z, hz, hedge⟩ := halt.status hne
        have hz' : .readUsers (.byId l.id) [z] ∈ s.world.hist i := by
          rw [he]
          exact List.mem_append_left _ hz
        have hzx : z.status = x.status := by
          have hshow := List.all_eq_true.mp hread _ hz'
          have hxu : x.id = u := Keyed.key_of_get hx
          simpa [Act.showsStatus, hid, hxu] using hshow
        rw [hst, ← hzx]
        exact hedge
    · rw [hmv.db, if_neg hcom] at hsame
      exact .inl (hsame rfl)

/-- Where no call commits a new status over another one, every committed status follows from the
one before it by an edge of the table, and a ban is final. -/
theorem status_moves {u : String} {s₀ s : State γ} {ls : List (Label Call (Choice χ))}
    (hr : Reachable cfg C s₀) (hu : (app cfg C).Along (Undisturbed u) ls s₀)
    (hs : (app cfg C).execs ls s₀ = some s) :
    (∀ ls₁ l ls₂ s₁ s₂, ls = ls₁ ++ l :: ls₂ → (app cfg C).execs ls₁ s₀ = some s₁ →
      (app cfg C).exec l s₁ = some s₂ → ∀ x y, s₁.world.db.users.get u = some x →
        s₂.world.db.users.get u = some y →
          y.status = x.status ∨ y.status ∈ User.validTransitions x.status) ∧
    ∀ x, s₀.world.db.users.get u = some x → x.status = .banned →
      ∃ y, s.world.db.users.get u = some y ∧ y.status = .banned := by
  constructor
  · intro ls₁ l ls₂ s₁ s₂ hls h₁ h₂ x y hx hy
    rw [hls] at hu
    have hl := ((app cfg C).along_append.mp hu).2 s₁ h₁
    exact hl.1.exec (hr.execs h₁) h₂ hx hy
  · intro x hx hban
    have hrun := (app cfg C).execs_invariant
      (P := fun s => Reachable cfg C s ∧
        ∃ y, s.world.db.users.get u = some y ∧ y.status = .banned) ?_ ⟨hr, x, hx, hban⟩ hu hs
    · exact hrun.2
    intro l s₁ s₂ hinv hl h₂
    obtain ⟨hr₁, y, hy, hyb⟩ := hinv
    obtain ⟨z, hz, -⟩ := (hr₁.grows
      (show (app cfg C).execs [l] s₁ = some s₂ by simp [Service.execs, h₂])).users u y hy
    refine ⟨hr₁.exec h₂, z, hz, ?_⟩
    have hedge := hl.exec hr₁ h₂ hy hz
    rw [hyb] at hedge
    simpa [User.validTransitions] using hedge

def suspendThenBan : List (Label Call (Choice Unit)) :=
  .call 0 (.changeStatus "alice" .suspended) :: effects 0 11 1 "" ++
    .call 1 (.changeStatus "alice" .banned) :: effects 1 11 2 ""

def reactivate : List (Label Call (Choice Unit)) :=
  .call 2 (.changeStatus "alice" .active) :: effects 2 2 3 ""

/-- The ban is committed by its ninth effect, and stays. -/
theorem status_moves_banned :
    (UserStatus.banned = .suspended ∨ .banned ∈ User.validTransitions .suspended) ∧
    ((sampleApp.afterwards reactivate (sampleApp.afterwards suspendThenBan sampleState)).answer
      2).any (fun r => !r.isOk) = true ∧
    ∃ y, (sampleApp.afterwards reactivate
      (sampleApp.afterwards suspendThenBan sampleState)).world.db.users.get "alice" = some y ∧
        y.status = .banned := by
  have hs : sampleApp.execs suspendThenBan sampleState =
      some (sampleApp.afterwards suspendThenBan sampleState) :=
    Service.execs_afterwards _ (by decide +kernel)
  have hmoves := (status_moves (u := "alice") sampleState_reachable (by decide +kernel) hs).1
  have hs' : sampleApp.execs reactivate (sampleApp.afterwards suspendThenBan sampleState) =
      some (sampleApp.afterwards reactivate (sampleApp.afterwards suspendThenBan sampleState)) :=
    Service.execs_afterwards _ (by decide +kernel)
  have hban := (status_moves (u := "alice") (sampleState_reachable.execs hs) (by decide +kernel)
    hs').2
  refine ⟨?_, by decide +kernel, ?_⟩
  · exact hmoves (.call 0 (.changeStatus "alice" .suspended) :: effects 0 11 1 "" ++
        .call 1 (.changeStatus "alice" .banned) :: effects 1 8 2 "") (.step 1 (moment 2 ""))
      (effects 1 2 2 "") _ _ rfl (Service.execs_afterwards _ (by decide +kernel))
      (Option.some_get (by decide +kernel)).symm
      { alice with status := .suspended, updatedAt := seconds 1 }
      { alice with status := .banned, updatedAt := seconds 2 } (by decide +kernel)
      (by decide +kernel)
  · exact hban { alice with status := .banned, updatedAt := seconds 2 } (by decide +kernel) rfl

/-- Two administrators find alice active. One of them bans her. -/
def banFirst : List (Label Call (Choice Unit)) :=
  .call 0 (.changeStatus "alice" .suspended) :: effects 0 1 1 "" ++
    .call 1 (.changeStatus "alice" .banned) :: effects 1 11 2 ""

/-- The other one goes on, and the ban is gone. -/
theorem ban_lifted : ∃ s₁ s₂, Reachable sampleConfig TimedStore.reliable sampleState ∧
    sampleApp.execs banFirst sampleState = some s₁ ∧
    (s₁.world.db.users.get "alice").map UserModel.status = some .banned ∧
    sampleApp.execs (effects 0 10 3 "") s₁ = some s₂ ∧
    (s₂.world.db.users.get "alice").map UserModel.status = some .suspended ∧
    UserStatus.suspended ∉ User.validTransitions .banned := by
  refine ⟨_, _, sampleState_reachable, Service.execs_afterwards _ (by decide +kernel),
    by decide +kernel, Service.execs_afterwards _ (by decide +kernel), by decide +kernel,
    by decide⟩

end AsyncPulse
