import AsyncPulse.Atomicity
import AsyncPulse.Completion
import AsyncPulse.Eviction
import AsyncPulse.Sequence
set_option autoImplicit false

namespace AsyncPulse
open Effect

variable {γ χ α : Type} {cfg : Config} {C : MayCache Key Json γ χ} {i n : Nat} {w w' v : World γ}
  {ρ : Effect.Replies Eff Exc} {e p : String} {dev ip : Option String}

/-- A login that ends with a response that cannot be built: the credentials are right, the values
fit their columns, and the user's row has no name. -/
def Nameless (cfg : Config) (d : Database) : Call → Prop
  | .authenticate e p dev ip => (fitsOpt 255 dev = true ∧ fitsOpt 45 ip = true) ∧
      ∃ x, Credentials cfg d e p x ∧ x.name = none
  | _ => False

theorem semantics_keeps {β : Type} (e : Eff β) (c : Choice χ) (s : World γ) (x : Except Exc β)
    (s' : World γ) (he : e.isCommit = false)
    (hs : (semantics cfg C).step i c s e = some (x, s')) : s'.db = s.db := by
  rw [(semantics_step hs).1.db, if_neg fun ha => ?_]
  rw [Eff.isCommit_of_act ha] at he
  cases he

theorem semantics_overlong {β : Type} (e : Eff β) (c : Choice χ) (s : World γ) (x : Except Exc β)
    (s' : World γ) (hs : (semantics cfg C).step i c s e = some (x, s')) (he : e.isOverlong = true) :
    ∃ y, x = .error y := by
  obtain ⟨-, w₁, hh⟩ := semantics_step hs
  cases e <;> simp only [Eff.isOverlong, Bool.false_eq_true] at he
  rename_i v
  simp only [handle] at hh
  split at hh
  · split at hh
    · cases hh
      exact ⟨_, rfl⟩
    · cases hh
  · split at hh <;> cases hh <;> exact ⟨_, rfl⟩

theorem atomic_of_staged {p : M α} (hp : AllOrNothing Completes p) :
    (semantics cfg C).Atomic (fun _ e => e.isCache) World.db Completes ρ i n p w :=
  hp.atomic semantics_keeps fun _ _ _ _ _ he hs => (semantics_commit he hs).1

theorem atomic_of_futile {p : M α} (hp : Futile p) :
    (semantics cfg C).Atomic (fun _ e => e.isCache) World.db Completes ρ i n p w := by
  refine Terms.Keeps.atomic semantics_keeps hp (fun _ he => he) (fun e x hi ho => ?_)
    (fun _ y _ => ⟨y, rfl⟩) semantics_overlong
  cases e <;> simp only [Eff.isCache, Bool.false_eq_true] at hi <;> cases ho

theorem found_of_rows {d : Database} {rank : String → Nat} {x : UserModel}
    (h : (UserQuery.byEmail e).eval rank d.users = [x]) : Found d e x := by
  have hmem : ∀ y, y ∈ d.users.rows ∧ y.email = e ∧ y.deletedAt = none ↔ y = x := by
    intro y
    have hy : y ∈ (UserQuery.byEmail e).eval rank d.users ↔ y = x := by
      rw [h, List.mem_singleton]
    exact UserQuery.mem_byEmail.symm.trans hy
  obtain ⟨hx, he, hd⟩ := (hmem x).mpr rfl
  exact ⟨hx, he, hd, fun y hy he hd => (hmem y).mp ⟨hy, he, hd⟩⟩

theorem silent_raised {β : Type} {c : Prop} [Decidable c] {x : Exc} (hc : c) (f : Unit → M β) :
    Silent (Prog.raiseIf c x >>= f) := by
  rw [Prog.raiseIf, if_pos hc]
  exact trivial

theorem silent_turned_away {d : Database} {x : UserModel} (hx : Found d e x)
    (hno : ¬ Credentials cfg d e p x) : Silent (authenticateUser cfg p dev ip x.toEntity) := by
  unfold authenticateUser verifyPassword
  change Silent (.ret (cfg.checkpw p x.hashedPassword) >>= _)
  cases hpw : cfg.checkpw p x.hashedPassword with
  | error y => exact trivial
  | ok valid =>
    rw [Prog.ret_ok_bind]
    by_cases hv : valid = false
    · exact silent_raised hv _
    by_cases hsus : x.status = .suspended
    · apply direct_raiseIf.quiet.bind
      exact fun _ => silent_raised (show x.toEntity.status = .suspended from hsus) _
    by_cases hban : x.status = .banned
    · apply direct_raiseIf.quiet.bind
      intro _
      apply direct_raiseIf.quiet.bind
      exact fun _ => silent_raised (show x.toEntity.status = .banned from hban) _
    · refine absurd ⟨hx.mem, hx.email, hx.present, hx.only, ?_, ?_⟩ hno
      · rw [hpw, show valid = true by simpa using hv]
      · simpa [lockoutStatuses] using ⟨hsus, hban⟩

theorem atomic_authenticate (h : ¬ Nameless cfg (w.view i) (.authenticate e p dev ip)) :
    (semantics cfg C).Atomic (fun _ e => e.isCache) World.db Completes ρ i n
      (authenticate cfg e p dev ip) w := by
  refine Sem.Atomic.outer (e := Eff.selectUsers (.byEmail e)) semantics_keeps rfl rfl
    (fun _ => trivial) fun c rows w₁ hs => ?_
  obtain rfl : (UserQuery.byEmail e).eval c.rank (w.view i).users = rows := by
    obtain ⟨-, w₂, hh⟩ := semantics_step hs
    simp only [handle, Option.some.injEq, Prod.mk.injEq, Except.ok.injEq] at hh
    exact hh.1
  cases hrows : (UserQuery.byEmail e).eval c.rank (w.view i).users with
  | nil =>
    refine Quiet.atomic semantics_keeps ?_
    exact trivial
  | cons x rest =>
    cases rest with
    | cons y rest =>
      refine Quiet.atomic semantics_keeps ?_
      exact trivial
    | nil =>
      change (semantics cfg C).Atomic _ _ _ _ _ _ (authenticateUser cfg p dev ip x.toEntity) w₁
      have hx := found_of_rows hrows
      by_cases hname : x.name = none
      · by_cases hfits : fitsOpt 255 dev = true ∧ fitsOpt 45 ip = true
        · have hno : ¬ Credentials cfg (w.view i) e p x := fun hc => h ⟨hfits, x, hc, hname⟩
          exact Quiet.atomic semantics_keeps (silent_turned_away hx hno)
        · exact atomic_of_futile (futile_authenticateUser hfits)
      · have hname' : x.toEntity.name ≠ none := hname
        exact atomic_of_staged (allOrNothing_authenticateUser hname' p dev ip)

theorem allOrNothingAt_of_not_nameless {k : Call} (hk : k.isMultiWrite = true)
    (h : ¬ Nameless cfg (w.view i) k) : AllOrNothingAt cfg C ρ i k w := by
  have hmap : ∀ {α : Type} {p : M α} {f : α → Out}, AllOrNothing Completes p →
      AllOrNothing Completes (f <$> p) := fun hp => (hp.mono fun _ hc => hc.map).map
  cases k with
  | authenticate e p d ip =>
    have hatomic : (semantics cfg C).Atomic (fun _ e => e.isCache) World.db Completes ρ i 0
        (authenticate cfg e p d ip) w := atomic_authenticate h
    exact (hatomic.mono fun _ hc => hc.map).map
  | refreshToken t ip => exact atomic_of_staged (hmap (allOrNothing_refreshToken t ip))
  | changeStatus u st => exact atomic_of_staged (hmap (allOrNothing_changeStatus u st))
  | deleteUser u => exact atomic_of_staged (hmap (allOrNothing_deleteUser u))
  | _ => cases hk

def Eff.isLookup : {β : Type} → Eff β → Bool
  | _, .cacheGet _ => true
  | _, _ => false

abbrev NoLookup (p : M α) : Prop := Only (fun e => e.isLookup = false) p

theorem Direct.noLookup {p : M α} (hp : Direct p) : NoLookup p := by
  induction p with
  | ret r => trivial
  | op e k ih =>
    obtain ⟨hi, -, hok, herr⟩ := hp
    have hl : e.isLookup = false := by
      cases e <;> first | rfl | cases hi
    refine ⟨hl, fun r _ => ?_⟩
    cases r with
    | ok a => exact ih (.ok a) (hok a)
    | error x =>
      obtain ⟨y, hy⟩ := herr x
      rw [hy]
      trivial

theorem noLookup_evict (s : UserSession) : NoLookup (evict s) := by
  apply Only.bind (Direct.noLookup (direct_revoke s))
  intro s'
  apply Only.bind (Direct.noLookup (direct_updateSession s'))
  intro _
  exact Only.suppress (Only.perform rfl)

theorem noLookup_openSession (user : User) (d ip : Option String) :
    NoLookup (openSession cfg user d ip) := by
  apply Only.bind (Direct.noLookup direct_uuid4)
  intro sid
  apply Only.bind (Direct.noLookup direct_now)
  intro t
  apply Only.bind (Direct.noLookup (direct_createToken _ _ _ _))
  intro access
  apply Only.bind (Direct.noLookup (direct_createToken _ _ _ _))
  intro refresh
  apply Only.bind (Direct.noLookup (direct_create _ _ _ _ _ _))
  intro session
  apply Only.bind (Direct.noLookup (direct_createSession session))
  intro _
  apply Only.bind (Only.perform rfl)
  intro _
  apply Only.bind (Only.suppress (Only.perform rfl))
  intro _
  unfold loginResponse
  split <;> trivial

theorem noLookup_authenticate (e p : String) (d ip : Option String) :
    NoLookup (authenticate cfg e p d ip) := by
  apply Only.bind (Direct.noLookup (direct_findUser _))
  intro user
  cases user with
  | none => trivial
  | some user =>
    apply Only.bind Only.ret
    intro valid
    apply Only.bind Only.raiseIf
    intro _
    apply Only.bind Only.raiseIf
    intro _
    apply Only.bind Only.raiseIf
    intro _
    apply Only.bind (Direct.noLookup (direct_getActiveSessionsForUser _))
    intro active
    apply Only.bind (Only.forM noLookup_evict)
    intro _
    exact noLookup_openSession user d ip

def Twin (w v : World γ) : Prop := ∃ g h, v = { w with cache := g, hist := h }

theorem Twin.db (h : Twin w v) : v.db = w.db := by
  obtain ⟨g, hist, rfl⟩ := h
  rfl

theorem Twin.refl (w : World γ) : Twin w w := ⟨w.cache, w.hist, rfl⟩

theorem Twin.step (h : Twin w v) {β : Type} {e : Eff β} {c : Choice χ} {x : Except Exc β}
    (he : e.isCache = false) (hs : (semantics cfg C).step i c w e = some (x, w')) :
    ∃ v', (semantics cfg C).step i c v e = some (x, v') ∧ Twin w' v' := by
  obtain ⟨g, hist, rfl⟩ := h
  have htwin : handle cfg C i c { w with cache := g, hist := hist } e =
      (handle cfg C i c w e).map fun y => (y.1, { y.2 with cache := g, hist := hist }) := by
    cases e <;> simp only [Eff.isCache, Bool.true_eq_false] at he
    case now =>
      change (if w.clock ≤ c.time then _ else _) = Option.map _ (if w.clock ≤ c.time then _ else _)
      split <;> rfl
    case uuid4 =>
      change (if w.freshId c.uuid = true then _ else _) =
        Option.map _ (if w.freshId c.uuid = true then _ else _)
      cases w.freshId c.uuid <;> rfl
    case write stmt =>
      change (if w.blocked i stmt = true then _ else if (!(w.view i).admits stmt) = true then _
        else _) = Option.map _ (if w.blocked i stmt = true then _ else _)
      cases w.blocked i stmt with
      | true => cases c.abort <;> rfl
      | false =>
        cases (w.view i).admits stmt with
        | false => rfl
        | true => cases stmt.fits <;> rfl
    all_goals rfl
  obtain ⟨⟨x₁, w₁⟩, hh, heq⟩ := Option.map_eq_some_iff.mp hs
  simp only [Prod.mk.injEq] at heq
  obtain ⟨rfl, rfl⟩ := heq
  refine ⟨_, ?_, g, Function.update hist i (hist i ++ [e.act x₁]), rfl⟩
  simp only [semantics, htwin, hh, Option.map_some]
  rfl

theorem Twin.cache [Nonempty χ] (h : Twin w v) {β : Type} {e : Eff β} (hl : e.isLookup = false)
    (he : e.isCache = true) : ∃ (c : Choice χ) (v' : World γ),
      (semantics cfg C).step i c v e = some (alwaysMiss n β e, v') ∧ Twin w v' := by
  obtain ⟨g, hist, rfl⟩ := h
  let c : Choice χ := ⟨0, "", "", fun _ => 0, false, Classical.arbitrary χ⟩
  cases e <;> simp only [Eff.isCache, Bool.false_eq_true] at he
  case cacheGet key => cases hl
  case cacheSet key v ttl => exact ⟨c, _, rfl, _, _, rfl⟩
  case cacheDelete key => exact ⟨c, _, rfl, _, _, rfl⟩

theorem run_drew {q : M α} {cs : List (Choice χ)} {r : Except Exc α}
    (hr : (semantics cfg C).run i cs q w = some (r, w')) {u : String} (hu : .drew u ∈ w'.hist i) :
    .drew u ∈ w.hist i ∨ w.drawn u = none := by
  induction q generalizing cs w with
  | ret r₀ =>
    rw [Sem.run_ret] at hr
    cases hr
    exact .inl hu
  | op e k ih =>
    cases cs with
    | nil => cases hr
    | cons c cs =>
      simp only [Sem.run] at hr
      split at hr
      · rename_i x w₁ hs
        have hmv := (semantics_step hs).1
        rcases ih x hr with hd | hd
        · rw [hmv.hist, Function.update_self] at hd
          rcases List.mem_append.mp hd with hd | hd
          · exact .inl hd
          · exact .inr (hmv.fresh u (List.mem_singleton.mp hd).symm).2
        · right
          by_contra hne
          obtain ⟨j, hj⟩ := Option.ne_none_iff_exists'.mp hne
          rw [(hmv.drawn u j).mpr (.inl hj)] at hd
          cases hd
      · cases hr

/-- What a login without a name comes to: the tables have changed, and it has raised. -/
theorem Between.nameless_outcome [Nonempty χ] {m : Nat → Option Call} (hb : Between cfg C m i w)
    {k : Call} (hn : Nameless cfg w.db k) {cs : List (Choice χ)} {r : Except Exc Out}
    (hr : (semantics cfg C).runWith (fun _ e => e.isCache) ρ i n cs (k.body cfg) w = some (r, w')) :
    w'.db ≠ w.db ∧ ¬ Completes r := by
  cases k with
  | authenticate e p dev ip =>
    obtain ⟨hfits, x, hx, hname⟩ := hn
    have hrec : ∀ {β : Type} (e : Eff β) c (s : World γ) x s',
        (semantics cfg C).step i c s e = some (x, s') →
          s'.hist i = s.hist i ++ [(records cfg).event e x] := by
      intro β e c s x s' hs
      rw [(semantics_step hs).1.hist, Function.update_self]
      rfl
    have hu : Uncached cfg (Out.login <$> authenticate cfg e p dev ip) :=
      (uncached_authenticate e p dev ip).map
    have hmiss : ∃ r', (semantics cfg C).runWith (fun _ e => e.isCache) alwaysMiss i n cs
        (Out.login <$> authenticate cfg e p dev ip) w = some (r', w') ∧ r = r' :=
      (hu (w.hist i)).run hrec rfl hr
    obtain ⟨_, hmiss, rfl⟩ := hmiss
    have hlook : NoLookup (Out.login <$> authenticate cfg e p dev ip) :=
      Only.map (noLookup_authenticate e p dev ip)
    have hcache : ∀ {β : Type} (e : Eff β) n (s t : World γ), e.isLookup = false →
        e.isCache = true → Twin s t → ∃ (c : Choice χ) (t' : World γ),
          (semantics cfg C).step i c t e = some (alwaysMiss n β e, t') ∧ Twin s t' :=
      fun e n s t hl he hst => hst.cache hl he
    obtain ⟨cs', v', hrun, htwin⟩ := Sem.run_of_runWith (R := Twin)
      (fun e c s t x s' he hst hs => hst.step he hs) hcache hlook (Twin.refl w) hmiss
    have hvacant : Vacant w i := ⟨hb.pending i, hb.locks⟩
    obtain ⟨l, hl, r', rfl, hlogin⟩ := hvacant.run (Q := fun r l => ∃ r', r = r'.map Out.login ∧
        LoginRun cfg w.db e p dev ip r' l) ((Trace.wp_map _ _ _ _ _).mpr <|
          Trace.wp_mono _ alone_authenticate fun r l h => ⟨r, rfl, h⟩) hrun
    have hdb : w'.db = w.db.applyAll (ledger l).1 := htwin.db.symm.trans hl.db
    cases hlogin with
    | denied hno => exact absurd hx (hno.not_credentials x)
    | @refused y x' now t t₁ t₂ t₃ rank evs u a b hx' hy =>
      have hdrew : .drew u ∈ v'.hist i := by
        rw [hl.hist]
        simp [loginTrail, openingTrail]
      have hnew : w.drawn u = none := by
        have hd := run_drew hrun hdrew
        rw [hb.provenance.idle i (hb.unmade i (Nat.le_refl i))] at hd
        exact hd.resolve_left List.not_mem_nil
      obtain hdev | hip | htaken := unfit_of_refusal (Keyed.get_of_mem hx'.mem) hy
      · exact absurd hfits.1 (by simp [hdev])
      · exact absurd hfits.2 (by simp [hip])
      · obtain ⟨z, hz⟩ := Option.ne_none_iff_exists'.mp htaken
        obtain ⟨j, hj⟩ := hb.provenance.drawn_of_row hz
        rw [hnew] at hj
        cases hj
    | @opened _ x' now t t₁ t₂ t₃ rank evs u a b hx' hans hevs hnow hfit =>
      obtain rfl : x = x' := hx'.only x hx.mem hx.email hx.present
      obtain ⟨hname', -⟩ | ⟨-, rfl⟩ := hans
      · exact absurd hname hname'
      have hu : w.db.sessions.get u = none := by
        simp only [Unfit, not_or, not_not] at hfit
        exact hfit.2.2
      refine ⟨fun hsame => ?_, fun hc => ?_⟩
      · have hrow : w'.db.sessions.get u = some (loginRow cfg x dev ip u t t₃) := by
          rw [hdb, ← (Prod.ext_iff.mp (ledger_closed _)).1]
          unfold loginTrail
          rw [ledger_login (by simp [Act.still])]
          exact (get_login evs hu u).trans (if_pos rfl)
        rw [hsame, hu] at hrow
        cases hrow
      · obtain ⟨a, ha⟩ | ha := hc <;> cases ha
  | _ => exact hn.elim

/-- Call `i` runs alone, and there are ids left to draw. -/
structure Unhindered (i : Nat) (w : World γ) : Prop where
  locks : ∀ l j, w.locks l = some j → j = i
  drawn : {u | w.drawn u ≠ none}.Finite

theorem Unhindered.step [Nonempty χ] (h : Unhindered i w) {β : Type} (e : Eff β) :
    ∃ (c : Choice χ) (x : Except Exc β) (w' : World γ),
      (semantics cfg C).step i c w e = some (x, w') ∧ Unhindered i w' := by
  obtain ⟨u, hid⟩ := World.exists_freshId h.drawn
  let c : Choice χ := { time := w.clock, uuid := u, salt := "", rank := fun _ => 0,
                        abort := false, cache := Classical.arbitrary χ }
  have hgo : ∃ x, handle cfg C i c w e = some x :=
    handle_goes_on (Int.le_refl _) hid fun v _ _ => .inl (World.not_blocked h.locks v)
  obtain ⟨x, hx⟩ := hgo
  have hs : (semantics cfg C).step i c w e = some (x.1, x.2.log i (e.act x.1)) := by
    simp only [semantics, hx, Option.map_some]
  have hmv := (semantics_step hs).1
  refine ⟨c, x.1, _, hs, fun l j hl => hmv.own_locks h.locks hl, ?_⟩
  have hone : {u' | e.act x.1 = .drew u'}.Finite := by
    refine Set.Subsingleton.finite fun u₁ h₁ u₂ h₂ => ?_
    exact Act.drew.inj (Eq.trans (Eq.symm h₁) h₂)
  refine (h.drawn.union hone).subset fun u' hu' => ?_
  obtain ⟨j, hj⟩ := Option.ne_none_iff_exists'.mp hu'
  rcases (hmv.drawn u' j).mp hj with hd | ⟨-, hd⟩
  · exact .inl fun hnone => by rw [hd] at hnone; cases hnone
  · exact .inr hd

theorem healthy_alwaysMiss : Healthy (fun _ e => Eff.isCache e) alwaysMiss := by
  intro n β e he
  cases e <;> first | exact ⟨_, rfl⟩ | cases he

theorem Between.nameless_breaks [Nonempty χ] {m : Nat → Option Call} (hb : Between cfg C m i w)
    {k : Call} (hn : Nameless cfg w.db k) : ¬ AllOrNothingAt cfg C ρ i k w := by
  intro hall
  have hun : Unhindered i w := by
    refine ⟨fun l j hl => ?_, hb.provenance.finite_drawn hb.unmade⟩
    rw [hb.locks l] at hl
    cases hl
  have hexists : ∃ cs r w', (semantics cfg C).runWith (fun _ e => e.isCache) ρ i 0 cs
      (k.body cfg) w = some (r, w') :=
    Sem.exists_runWith (fun e _ _ hs => hs.step e) (k.body cfg) 0 hun
  obtain ⟨cs, r, w', hr⟩ := hexists
  rcases hall _ r w' (Sem.faulty_runWith.trans hr) with hsame | hdone
  · exact (hb.nameless_outcome hn hr).1 hsame
  · obtain ⟨cs', r', w'', hr', -, hc⟩ := hdone alwaysMiss healthy_alwaysMiss 0
    exact (hb.nameless_outcome hn hr').2 hc

/-- A call that writes several rows is all or nothing, whatever fails, unless it is a login of a
user without a name. Wherever completed calls have led, and whatever the cache answers or raises,
such a login can commit, and no run of it completes. -/
theorem all_or_nothing_iff [Nonempty χ] {k : Call} (hk : k.isMultiWrite = true)
    (ρ : Effect.Replies Eff Exc) :
    (∀ (w : World γ) (i : Nat), ¬ Nameless cfg (w.view i) k → AllOrNothingAt cfg C ρ i k w) ∧
    ∀ (gap : World γ → World γ → Prop) log (w : World γ), Sequential cfg C gap log w →
      (AllOrNothingAt cfg C ρ log.length k w ↔ ¬ Nameless cfg w.db k) := by
  refine ⟨fun w i h => allOrNothingAt_of_not_nameless hk h, fun gap log w hrun => ?_⟩
  have hview : w.view log.length = w.db := by
    rw [World.view, hrun.between.pending]
    rfl
  constructor
  · exact fun hall hn => hrun.between.nameless_breaks hn hall
  · intro hn
    exact allOrNothingAt_of_not_nameless hk (hview ▸ hn)

def cacheDown : Effect.Replies Eff Exc := fun _ _ _ => .error .operationalError

def aliceLogin : Call := .authenticate "alice@example.org" "secret" none none

def namelessWorld : World (TimedStore Key Json) :=
  { sampleWorld with db := { users := Keyed.empty.insert namelessAlice, sessions := .empty } }

theorem namelessWorld_init : Init TimedStore.reliable namelessWorld := by
  refine ⟨rfl, ?_, fun _ => rfl, fun _ => rfl, sampleWorld_init.cache, fun _ => rfl, rfl,
    fun _ => rfl⟩
  have hr : namelessWorld.db.users.rows = [namelessAlice] := Keyed.rows_insert rfl
  simp [hr, namelessAlice, alice]

theorem aliceLogin_nameless : Nameless sampleConfig namelessWorld.db aliceLogin := by
  refine ⟨by decide, namelessAlice, ?_, rfl⟩
  have hr : namelessWorld.db.users.rows = [namelessAlice] := Keyed.rows_insert rfl
  refine ⟨by simp [hr], rfl, rfl, fun y hy _ _ => ?_, rfl, by decide⟩
  rw [hr] at hy
  exact List.mem_singleton.mp hy

/-- Alice signs in while the cache is down, and the commit raises although it has happened. -/
def signInCutOff : Option (Except Exc Out × World (TimedStore Key Json)) :=
  (semantics sampleConfig TimedStore.reliable).faulty.runWith (fun _ e => e.isCache) cacheDown 0 0
    (List.replicate 11 (.none, moment 1 "s1") ++ [(.after .operationalError, moment 1 "")])
    (aliceLogin.body sampleConfig) sampleWorld

theorem all_or_nothing_iff_logins :
    ((signInCutOff.get (by decide +kernel)).2.db = sampleWorld.db ∨
      ∀ ρ, Healthy (fun _ e => Eff.isCache e) ρ → ∀ n, ∃ cs r w,
        (semantics sampleConfig TimedStore.reliable).runWith (fun _ e => e.isCache) ρ 0 n cs
          (aliceLogin.body sampleConfig) sampleWorld = some (r, w) ∧
        w.db = (signInCutOff.get (by decide +kernel)).2.db ∧ Completes r) ∧
    (AllOrNothingAt sampleConfig TimedStore.reliable cacheDown 0 aliceLogin namelessWorld ↔
      ¬ Nameless sampleConfig namelessWorld.db aliceLogin) := by
  constructor
  · have hnamed : ¬ Nameless sampleConfig (sampleWorld.view 0) aliceLogin := by
      rintro ⟨-, x, hx, hname⟩
      have hr : sampleWorld.db.users.rows = [alice] := Keyed.rows_insert rfl
      obtain rfl : x = alice := List.mem_singleton.mp (hr ▸ hx.mem)
      cases hname
    exact (all_or_nothing_iff rfl cacheDown).1 sampleWorld 0 hnamed _ _ _
      (Option.some_get (x := signInCutOff) (by decide +kernel)).symm
  · exact (all_or_nothing_iff (k := aliceLogin) rfl cacheDown).2 Later [] namelessWorld
      ⟨namelessWorld, namelessWorld_init, .nil 0 _⟩

/-- With the cache down the login of a user without a name raises and leaves a session behind. No
run of it without failures completes. -/
theorem nameless_half_done : Init TimedStore.reliable namelessWorld ∧
    ((semantics sampleConfig TimedStore.reliable).faulty.runWith (fun _ e => e.isCache) cacheDown
        0 0 (List.replicate 12 (.none, moment 1 "s1")) (aliceLogin.body sampleConfig)
        namelessWorld).map (fun y => (y.1, y.2.db.sessions.rows.length)) =
      some (.error .validationError, 1) ∧
    namelessWorld.db.sessions.rows = [] ∧
    (∀ ρ cs r w', (semantics sampleConfig TimedStore.reliable).runWith (fun _ e => e.isCache) ρ 0 0
        cs (aliceLogin.body sampleConfig) namelessWorld = some (r, w') → ¬ Completes r) ∧
    ¬ AllOrNothingAt sampleConfig TimedStore.reliable cacheDown 0 aliceLogin namelessWorld :=
  ⟨namelessWorld_init, by decide +kernel, rfl,
    fun _ _ _ _ hr => (namelessWorld_init.between.nameless_outcome aliceLogin_nameless hr).2,
    namelessWorld_init.between.nameless_breaks aliceLogin_nameless⟩

end AsyncPulse
