import AsyncPulse.ServiceErrors
import AsyncPulse.Uniqueness
set_option autoImplicit false

namespace AsyncPulse
open Effect Trace

variable {cfg : Config} {h : List Act}

def Call.Raises (cfg : Config) : Call → Exc → Prop
  | .createUser p, x => RegistrationErrors cfg p x
  | .getUser u, x => x = .userNotFound u
  | .listUsers _ _, _ => False
  | .updateUser u p, x => UpdateErrors u p x
  | .setPassword u pw, x => PasswordErrors cfg u pw x
  | .changeStatus u st, x => StatusErrors u st x
  | .deleteUser u, x => DeleteErrors u x
  | .authenticate _ pw d ip, x => LoginErrors cfg pw d ip x
  | .refreshToken _ ip, x => RefreshErrors ip x
  | .logout _, x | .logoutAll _, x => Aborted x
  | .getCurrentUser _, x => GateErrors x
  | .refreshRoute _ _ ip, x =>
    x = .invalidToken "Refresh token not provided" ∨ RefreshErrors ip x
  | .logoutRoute _, _ => False
  | .logoutAllRoute _, x => GateErrors x ∨ Aborted x
  | .updateUserRoute _ u p, x => GateErrors x ∨ UpdateErrors u p x ∨
      x = .insufficientPermissions "Cannot update other users' profile"
  | .deleteUserRoute _ u, x => GateErrors x ∨ DeleteErrors u x ∨
      x = .insufficientPermissions "Requires at least superuser role permissions"

theorem raising_body (k : Call) :
    (refusals cfg).Raising (k.body cfg) (k.Raises cfg) (fun _ _ => True) h := by
  cases k with
  | createUser p => exact raising_createUser.map fun _ _ _ => trivial
  | getUser u => exact raising_getUser.map fun _ _ _ => trivial
  | listUsers offset limit =>
    refine Raising.step (F := fun _ _ => True) ?_ fun _ _ _ => trivial
    refine Raising.step (F := fun _ _ => True) ?_ fun _ _ _ =>
      raising_selectUsers.step fun _ _ _ => trivial
    exact raising_reply fun _ ⟨n, hn⟩ _ => ⟨n, hn, trivial⟩
  | updateUser u p => exact raising_updateUser.map fun _ _ _ => trivial
  | setPassword u pw => exact raising_setPassword.map fun _ _ _ => trivial
  | changeStatus u st => exact raising_changeStatus.map fun _ _ _ => trivial
  | deleteUser u => exact raising_deleteUser.map fun _ _ _ => trivial
  | authenticate e pw d ip => exact raising_authenticate.map fun _ _ _ => trivial
  | refreshToken t ip => exact raising_refreshToken.map fun _ _ _ => trivial
  | logout s => exact raising_logout.map fun _ _ _ => trivial
  | logoutAll u => exact raising_logoutAll.map fun _ _ _ => trivial
  | getCurrentUser t => exact raising_getCurrentUser.map fun _ _ _ => trivial
  | refreshRoute b c ip =>
    refine Raising.map (F := fun _ _ => True) ?_ fun _ _ _ => trivial
    unfold refreshRoute
    cases chosenToken b c with
    | none => exact Raising.throw (.inl rfl)
    | some t => exact raising_refreshToken.mono (fun _ => .inr) fun _ _ => id
  | logoutRoute t =>
    exact (Raising.suppress _).map fun _ _ _ => trivial
  | logoutAllRoute t =>
    refine Raising.map (F := fun _ _ => True) ?_ fun _ _ _ => trivial
    exact raising_getCurrentUser.seq (fun _ => .inl) fun _ _ _ =>
      raising_logoutAll.mono (fun _ => .inr) fun _ _ => id
  | updateUserRoute t u p =>
    refine Raising.map (F := fun _ _ => True) ?_ fun _ _ _ => trivial
    refine raising_getCurrentUser.seq (fun _ => .inl) fun x l _ => ?_
    refine Raising.bind (F := fun _ _ => True)
      (Raising.raiseIf (fun _ => .inr (.inr rfl)) fun _ => trivial) fun _ _ _ => ?_
    exact raising_updateUser.mono (fun _ hx => .inr (.inl hx)) fun _ _ => id
  | deleteUserRoute t u =>
    refine Raising.map (F := fun _ _ => True) ?_ fun _ _ _ => trivial
    refine raising_getCurrentUser.seq (fun _ => .inl) fun x l _ => ?_
    refine Raising.bind (F := fun _ _ => True)
      (Raising.raiseIf (fun _ => .inr (.inr rfl)) fun _ => trivial) fun _ _ _ => ?_
    exact raising_deleteUser.mono (fun _ hx => .inr (.inl hx)) fun _ _ => id

section Runs

variable {γ χ : Type} {C : MayCache Key Json γ χ} {w : World γ} {s : State γ}
  {ls : List (Label Call (Choice χ))}

def refusalReview (cfg : Config) (γ : Type) : Review γ where
  world := Recorded
  answers h e r := Replies cfg h e r
  keeps _ _ := True
  ends k r _ := ∀ x, r = .error x → k.Raises cfg x

theorem refusalReview_sound (cfg : Config) (C : MayCache Key Json γ χ) :
    (refusalReview cfg γ).Sound cfg C where
  begin _ := trivial
  prog k := by
    have hbody : (refusals cfg).Raising (k.body cfg) (k.Raises cfg) (fun _ _ => True) [] :=
      raising_body k
    refine Trace.wp_mono _ hbody.ensure ?_
    rintro r l hr x rfl
    exact hr
  answer _ _ _ _ _ _ _ hprov hR he := hprov.replies hR he
  step _ _ _ _ _ _ _ _ _ hR _ he _ := hR.step he
  tick _ t hR _ := hR.tick t

/-- The unique indexes hold in every interleaving: among the committed users, soft-deleted ones
included, and in the eyes of every open transaction. A lookup by id, email or username finds at
most one row. -/
theorem indexes_hold (hw : Init C w) (hi : Indexed w.db.users)
    (hs : (app cfg C).execs ls ⟨w, fun _ => none⟩ = some s) :
    Indexed s.world.db.users ∧ (∀ i, Indexed (s.world.view i).users) ∧
    ∀ i q rows, .readUsers q rows ∈ s.world.hist i → q.single = true → rows.length ≤ 1 := by
  have hR : Recorded s.world :=
    ((refusalReview_sound cfg C).holds hw (Recorded.init hw hi) hs).inv.2
  refine ⟨indexed_iff.mpr fun x => ?_, fun i => indexed_iff.mpr (hR.indexes.distinct), hR.single⟩
  exact unique_iff.mp (hR.indexes.guarded x).base

/-- In no interleaving does a call end with an exception that is not one of its own. No
`KeyError`, `TypeError`, `NoResultFound` or `JWTError` gets out, `MultipleResultsFound` only of a
registration, and a refused key only of what writes emails and usernames. -/
theorem errors_confined (hw : Init C w) (hi : Indexed w.db.users)
    (hs : (app cfg C).execs ls ⟨w, fun _ => none⟩ = some s) {i : Nat} {k : Call} {x : Exc}
    (hk : s.script i = some k) (hx : s.answer i = some (.error x)) : k.Raises cfg x :=
  (((refusalReview_sound cfg C).holds hw (Recorded.init hw hi) hs).post hk hx).2 x rfl

end Runs

def overlap : List (Label Call (Choice Unit)) :=
  .call 0 (.createUser carol) :: .call 1 (.createUser carol) :: effects 0 1 1 "" ++
    effects 1 1 1 "" ++ effects 0 7 1 "u0" ++ effects 1 6 1 "u1"

theorem indexes_hold_overlap : ∃ s : State (TimedStore Key Json),
    sampleApp.execs overlap sampleState = some s ∧
    (s.world.db.users.rows.map UserModel.id) = ["alice", "u0"] ∧ Indexed s.world.db.users := by
  have hs : sampleApp.execs overlap sampleState = some (sampleApp.afterwards overlap sampleState) :=
    sampleApp.execs_afterwards (by decide +kernel)
  exact ⟨_, hs, by decide +kernel, (indexes_hold sampleWorld_init sampleWorld_indexed hs).1⟩

theorem errors_confined_overlap : ∃ s : State (TimedStore Key Json),
    sampleApp.execs overlap sampleState = some s ∧
    s.answer 1 = some (.error .integrityError) ∧
    (Call.createUser carol).Raises sampleConfig .integrityError := by
  have hs : sampleApp.execs overlap sampleState = some (sampleApp.afterwards overlap sampleState) :=
    sampleApp.execs_afterwards (by decide +kernel)
  have hx : (sampleApp.afterwards overlap sampleState).answer 1 =
      some (.error .integrityError) := by decide +kernel
  exact ⟨_, hs, hx, errors_confined sampleWorld_init sampleWorld_indexed hs (i := 1)
    (by decide +kernel) hx⟩

end AsyncPulse
