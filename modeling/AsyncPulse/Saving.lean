import AsyncPulse.Atomicity
import AsyncPulse.EffectCommit
import AsyncPulse.EffectRaising
import AsyncPulse.WriteOrder
set_option autoImplicit false

namespace AsyncPulse
open Effect

variable {cfg : Config} {α β : Type} {S : Exc → Prop} {unsaved : Bool}

def Eff.isWrite : {β : Type} → Eff β → Bool
  | _, .write _ => true
  | _, _ => false

def works (cfg : Config) : Works Eff Exc where
  writes e := e.isWrite = true
  commits e := e.isCommit = true
  answers e r := ∃ h, Answer cfg h e r

abbrev Saves (cfg : Config) (S : Exc → Prop) (unsaved : Bool) (p : M α) : Prop :=
  (works cfg).Once S unsaved p

abbrev AfterCommit (cfg : Config) (S : Exc → Prop) (p : M α) : Prop := (works cfg).Past S p

theorem Eff.Looks.idle {e : Eff β} (he : e.Looks) : (works cfg).Idle e := by
  cases e with
  | write v => exact he.elim
  | commit => exact he.elim
  | _ => exact ⟨Bool.false_ne_true, Bool.false_ne_true⟩

theorem only_idle {p : M α} (hp : Only Eff.Looks p) : Only (works cfg).Idle p :=
  hp.mono fun _ => Eff.Looks.idle

theorem Preparing.uncommitted {p : M α} (hp : Preparing p) :
    Only (fun e => ¬ (works cfg).commits e) p := by
  refine (Prepares.only hp).mono fun e he => ?_
  rcases he with he | he
  · exact fun hc => by rw [hc] at he; cases he
  · cases e <;> simp only [Eff.isCache, Bool.false_eq_true] at he
    all_goals exact Bool.false_ne_true

namespace Saves

theorem look {p : M α} {f : α → M β} (hp : Only Eff.Looks p) (hf : ∀ a, Saves cfg S unsaved (f a)) :
    Saves cfg S unsaved (p >>= f) :=
  Works.Once.look (only_idle hp) hf

theorem prepare {p : M α} {f : α → M β} (hp : Preparing p) (hf : ∀ a, Saves cfg S true (f a)) :
    Saves cfg S unsaved (p >>= f) :=
  Works.Once.work hp.uncommitted hf

theorem direct {p : M α} {f : α → M β} (hp : Direct p) (hf : ∀ a, Saves cfg S true (f a)) :
    Saves cfg S unsaved (p >>= f) :=
  prepare hp.prepares hf

theorem throw {x : Exc} : Saves cfg S unsaved (MonadExcept.throw x : M α) := .raises x

theorem pure {a : α} : Saves cfg S false (Pure.pure a : M α) := .returns a

theorem ret {r : Except Exc α} : Saves cfg S false (.ret r) := by
  cases r with
  | ok a => exact .returns a
  | error x => exact .raises x

theorem commit {f : Unit → M α} (hf : ∀ u, AfterCommit cfg S (f u)) :
    Saves cfg S unsaved (AsyncPulse.commit >>= f) :=
  Works.Once.commit rfl (fun _ ⟨_, hr⟩ => ⟨(), hr⟩) hf

end Saves

theorem over_suppress {p : M Unit} (hp : Only Eff.Looks p) : AfterCommit cfg S p.suppress :=
  .suppress (only_idle hp)

theorem over_suppressSet (key : Key) (v : Json) (ttl : Int) :
    AfterCommit cfg S (Prog.suppress (setJson key v ttl)) := over_suppress (Only.perform trivial)

theorem saves_signIn (user : User) (pw : String) (d ip : Option String) :
    Saves cfg (fun x => x = .validationError ∧ user.name = none) false (do
      let valid ← verifyPassword cfg pw user.hashedPassword
      Prog.raiseIf (valid = false) .invalidCredentials
      Prog.raiseIf (user.status = .suspended) .userSuspended
      Prog.raiseIf (user.status = .banned) .userBanned
      let activeSessions ← getActiveSessionsForUser user.id
      (toRevoke activeSessions).forM evict
      openSession cfg user d ip : M LoginResponse) := by
  refine .look Only.ret fun valid => .look Only.raiseIf fun _ => .look Only.raiseIf fun _ =>
    .look Only.raiseIf fun _ => ?_
  refine .direct (direct_getActiveSessionsForUser user.id) fun active => ?_
  refine .prepare (.forM preparing_evict) fun _ => ?_
  refine .direct direct_uuid4 fun s => .direct direct_now fun t => ?_
  refine .direct (direct_createToken ..) fun access => ?_
  refine .direct (direct_createToken ..) fun refresh => .direct (direct_create ..) fun session => ?_
  refine .direct (direct_createSession session) fun _ => ?_
  refine .commit fun _ => (over_suppressSet ..).bind fun _ => ?_
  unfold loginResponse
  cases hn : user.name with
  | none => exact .throw ⟨rfl, rfl⟩
  | some name => exact .pure

def Call.Late : Call → Exc → Prop
  | .authenticate _ _ _ _, x => x = .validationError
  | .refreshToken _ _, x | .refreshRoute _ _ _, x => x = tokenReuse
  | _, _ => False

def marks (cfg : Config) : (works cfg).Marks (records cfg) where
  wrote a := a.writes = true
  committed a := a = .committed
  answers _ h _ hr := ⟨h, hr⟩
  idle e r he := by
    cases e with
    | write v => exact absurd rfl he.1
    | commit => exact absurd rfl he.2
    | _ => cases r <;> exact ⟨Bool.false_ne_true, nofun⟩
  works e r he := by
    cases e with
    | commit => exact absurd rfl he
    | _ => cases r <;> exact nofun
  commits e h r he hr := by
    cases e <;> simp only [works, Eff.isCommit, Bool.false_eq_true] at he
    rw [show r = .ok () from hr]
    rfl

abbrev Outcome (cfg : Config) (k : Call) (r : Except Exc Out) (h : List Act) : Prop :=
  (marks cfg).Outcome k.Late r h

theorem nameless_authenticate {e pw : String} {d ip : Option String} :
    (records cfg).wp (fun _ => True) (authenticate cfg e pw d ip)
      (fun r h => r = .error .validationError → .committed ∈ h →
        ∃ x, SawUser h x ∧ x.email = e ∧ x.name = none) [] := by
  rintro r ⟨rows, rfl, hr⟩
  refine ⟨trivial, ?_⟩
  rcases rows with _ | ⟨x, _ | ⟨y, rest⟩⟩
  · intro hx
    cases hx
  · have hsel : x.email = e ∧ x.deletedAt = none := by
      simpa [UserQuery.selects] using hr.selects x (List.mem_singleton_self x)
    have hnew : ∀ a ∈ [Act.readUsers (.byEmail e) [x]], a ≠ .committed ∧ a.writes = false := by
      simp [Act.writes]
    have hsaved := (marks cfg).once_wp (saves_signIn x.toEntity pw d ip)
      (h := [.readUsers (.byEmail e) [x]]) (fun a ha => (hnew a ha).1)
      fun _ a ha => by simp [marks, (hnew a ha).2]
    refine Trace.wp_mono _ (Trace.wp_record _ trivial hsaved) ?_
    rintro r h ⟨⟨-, l, rfl⟩, ho⟩ rfl hc
    refine ⟨x, ⟨.byEmail e, [x], by simp [records, Eff.act], List.mem_singleton_self x⟩,
      hsel.1, ?_⟩
    cases ho with
    | unsaved hn _ => exact absurd rfl (hn _ hc)
    | saved _ _ _ _ _ _ _ hS => exact (hS _ rfl).2
  · intro hx
    cases hx

theorem Reachable.nameless {γ χ : Type} {C : MayCache Key Json γ χ} {s : State γ}
    (hr : Reachable cfg C s) {i : Nat} {e pw : String} {d ip : Option String}
    (hk : s.script i = some (.authenticate e pw d ip))
    (hi : s.answer i = some (.error .validationError)) (hc : .committed ∈ s.world.hist i) :
    ∃ x, SawUser (s.world.hist i) x ∧ x.email = e ∧ x.name = none := by
  have hprog : ∀ k : Call, (records cfg).wp (fun _ => True) (k.prog cfg)
      (fun r h => ∀ e pw d ip, k = .authenticate e pw d ip → r = .error .validationError →
        .committed ∈ h → ∃ x, SawUser h x ∧ x.email = e ∧ x.name = none) [] := by
    intro k
    cases k with
    | authenticate e pw d ip =>
      refine (Trace.wp_ensure _ _ _ _ _).mpr ((Trace.wp_map _ _ _ _ _).mpr ?_)
      refine Trace.wp_mono _ nameless_authenticate fun r h hn x hx => ⟨trivial, ?_⟩
      rintro e' pw' d' ip' ⟨⟩ hr hc
      rw [show x = .ok () from hx] at hc ⊢
      have hr : r = .error .validationError := by
        cases r with
        | ok a => cases hr
        | error y => exact congrArg _ (Except.error.inj hr)
      obtain ⟨y, hy, hname⟩ := hn hr (by simpa [records, Eff.act] using hc)
      exact ⟨y, hy.mono, hname⟩
    | _ =>
      refine Trace.wp_of_forall _ (fun _ => trivial) (fun _ _ e pw d ip hk => ?_) _ _
      cases hk
  exact hr.leaves hprog hk hi e pw d ip rfl rfl hc

end AsyncPulse
