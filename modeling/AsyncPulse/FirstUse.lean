import AsyncPulse.CacheClient
import AsyncPulse.EffectTasks
set_option autoImplicit false

namespace AsyncPulse
open Effect

/-! ### `_init_redis`, await by await -/

/-- What a Redis client raises; `other` is any exception that `_init_redis` does not name. -/
inductive CacheExc where
  | redisError
  | osError
  | other
  deriving DecidableEq, Repr

/-- The attributes of a `CacheClient` that its calls share. Redis clients are numbered in the
order in which `from_url` makes them. -/
structure CacheAttrs where
  redis : Option Nat
  fallbackActive : Bool
  initialized : Bool
  loop : Option Nat
  deriving DecidableEq, Repr

inductive CacheEff : Type → Type where
  | attrs : CacheEff CacheAttrs
  | assign (f : CacheAttrs → CacheAttrs) : CacheEff Unit
  | fromUrl : CacheEff Nat
  | aclose (r : Nat) : CacheEff Unit
  | ping (r : Nat) : CacheEff Unit

abbrev CacheM := Prog CacheEff CacheExc

def assign (f : CacheAttrs → CacheAttrs) : CacheM Unit := Prog.perform (.assign f)

/-- From the ping on. -/
def awaitPing (r : Nat) : CacheM Unit :=
  Prog.ensure
    (tryCatch (do
      Prog.perform (.ping r)
      assign fun self => { self with fallbackActive := false })
    fun e =>
      if e = .redisError ∨ e = .osError then do
        assign fun self => { self with fallbackActive := true }
        assign fun self => { self with redis := none }
      else throw e)
    (.assign fun self => { self with initialized := true })

/-- From `self._loop = current_loop` on. `from_url` does not connect yet, and raises nothing. -/
def connect (currentLoop : Nat) : CacheM Unit := do
  assign fun self => { self with loop := some currentLoop }
  assign fun self => { self with initialized := false }
  assign fun self => { self with fallbackActive := false }
  let r ← Prog.perform .fromUrl
  assign fun self => { self with redis := some r }
  awaitPing r

def tearDown (currentLoop r : Nat) : CacheM Unit := do
  Prog.suppress (Prog.perform (.aclose r))
  assign fun self => { self with redis := none }
  connect currentLoop

/-- `self._initialized and self._loop is current_loop`. -/
def CacheAttrs.Ready (currentLoop : Nat) (self : CacheAttrs) : Prop :=
  self.initialized = true ∧ self.loop = some currentLoop

instance (currentLoop : Nat) (self : CacheAttrs) : Decidable (self.Ready currentLoop) :=
  inferInstanceAs (Decidable (_ ∧ _))

def initRedis (currentLoop : Nat) : CacheM Unit := do
  let self ← Prog.perform .attrs
  if self.Ready currentLoop then return
  match self.redis with
  | some r => tearDown currentLoop r
  | none => connect currentLoop

/-- `made` counts the Redis clients, `answered` lists those whose ping has succeeded, and `closed`
those that some call has closed. -/
structure CacheWorld where
  attrs : CacheAttrs
  made : Nat
  answered : List Nat
  closed : List Nat
  deriving DecidableEq, Repr

/-- How an awaited command ends. A ping succeeds or raises what `_init_redis` catches; `aclose`
may raise anything. -/
abbrev CacheReply := Except CacheExc Unit

def cacheLoop (currentLoop : Nat) :
    EventLoop CacheEff CacheExc CacheWorld CacheReply Unit Unit where
  prog _ := initRedis currentLoop
  now w
    | .attrs => some (.ok w.attrs, w)
    | .assign f => some (.ok (), { w with attrs := f w.attrs })
    | .fromUrl => some (.ok w.made, { w with made := w.made + 1 })
    | .aclose _ | .ping _ => none
  wake c w
    | .aclose r => some (c, { w with closed := r :: w.closed })
    | .ping r =>
      match c with
      | .ok _ => some (.ok (), { w with answered := r :: w.answered })
      | .error .other => none
      | .error e => some (.error e, w)
    | _ => none

abbrev CacheTasks := Tasks CacheEff CacheExc CacheWorld Unit

abbrev CacheTurn := LoopTurn Unit CacheReply

namespace CacheWorld

def connected (currentLoop : Nat) (w : CacheWorld) : CacheWorld :=
  { w with
    attrs := { redis := some w.made, fallbackActive := false, initialized := false,
               loop := some currentLoop }
    made := w.made + 1 }

def answer (r : Nat) (w : CacheWorld) : CacheWorld :=
  { w with
    attrs := { w.attrs with fallbackActive := false, initialized := true }
    answered := r :: w.answered }

def fail (w : CacheWorld) : CacheWorld :=
  { w with attrs := { w.attrs with redis := none, fallbackActive := true, initialized := true } }

def close (r : Nat) (w : CacheWorld) : CacheWorld := { w with closed := r :: w.closed }

end CacheWorld

section Steps

variable {currentLoop : Nat}

theorem advance_initRedis (w : CacheWorld) :
    (cacheLoop currentLoop).advance (initRedis currentLoop) w =
      if w.attrs.Ready currentLoop then (.ret (.ok ()), w)
      else match w.attrs.redis with
        | some r => (tearDown currentLoop r, w)
        | none => (awaitPing w.made, w.connected currentLoop) := by
  change (cacheLoop currentLoop).advance (if w.attrs.Ready currentLoop then _ else _) w = _
  split
  · rfl
  · cases w.attrs.redis with
    | none => rfl
    | some r => rfl

inductive InitPhase (currentLoop : Nat) : CacheM Unit → Prop where
  | returned : InitPhase currentLoop (.ret (.ok ()))
  | closing (r : Nat) : InitPhase currentLoop (tearDown currentLoop r)
  | pinging (r : Nat) : InitPhase currentLoop (awaitPing r)

inductive InitStep (currentLoop : Nat) : CacheTurn → CacheTasks → CacheTasks → Prop where
  | ready {s : CacheTasks} : s.world.attrs.Ready currentLoop →
    InitStep currentLoop (.start ()) s ⟨s.world, s.tasks ++ [.ret (.ok ())]⟩
  | close {s : CacheTasks} {r : Nat} : ¬ s.world.attrs.Ready currentLoop →
    s.world.attrs.redis = some r →
      InitStep currentLoop (.start ()) s ⟨s.world, s.tasks ++ [tearDown currentLoop r]⟩
  | connect {s : CacheTasks} : ¬ s.world.attrs.Ready currentLoop → s.world.attrs.redis = none →
    InitStep currentLoop (.start ()) s
      ⟨s.world.connected currentLoop, s.tasks ++ [awaitPing s.world.made]⟩
  | reconnect {s : CacheTasks} {i r : Nat} {c : CacheReply} :
    s.tasks[i]? = some (tearDown currentLoop r) → InitStep currentLoop (.wake i c) s
      ⟨(s.world.close r).connected currentLoop, s.tasks.set i (awaitPing s.world.made)⟩
  | answered {s : CacheTasks} {i r : Nat} : s.tasks[i]? = some (awaitPing r) →
    InitStep currentLoop (.wake i (.ok ())) s ⟨s.world.answer r, s.tasks.set i (.ret (.ok ()))⟩
  | failed {s : CacheTasks} {i r : Nat} {e : CacheExc} : s.tasks[i]? = some (awaitPing r) →
    e ≠ .other → InitStep currentLoop (.wake i (.error e)) s
      ⟨s.world.fail, s.tasks.set i (.ret (.ok ()))⟩

theorem step_of_exec {l : CacheTurn} {s s' : CacheTasks}
    (hphase : ∀ p ∈ s.tasks, InitPhase currentLoop p)
    (hs : (cacheLoop currentLoop).exec l s = some s') : InitStep currentLoop l s s' := by
  cases (cacheLoop currentLoop).exec_move hs with
  | @start u =>
    change InitStep currentLoop (.start ()) s
      ⟨((cacheLoop currentLoop).advance (initRedis currentLoop) s.world).2,
        s.tasks ++ [((cacheLoop currentLoop).advance (initRedis currentLoop) s.world).1]⟩
    rw [advance_initRedis]
    by_cases hready : s.world.attrs.Ready currentLoop
    · rw [if_pos hready]
      exact .ready hready
    · rw [if_neg hready]
      cases hr : s.world.attrs.redis with
      | none => exact .connect hready hr
      | some r => exact .close hready hr
  | @wake i c _ β e f r w hi hw =>
    have hp := hphase _ (List.mem_of_getElem? hi)
    generalize hq : Prog.op e f = p at hp
    cases hp with
    | returned => cases hq
    | closing r =>
      change _ = Prog.op (CacheEff.aclose r) _ at hq
      cases hq
      cases hw
      -- An exception of `aclose` makes no difference.
      cases c with
      | ok u => exact .reconnect hi
      | error x => exact .reconnect hi
    | pinging r =>
      change _ = Prog.op (CacheEff.ping r) _ at hq
      cases hq
      cases c with
      | ok u =>
        cases hw
        exact .answered hi
      | error x =>
        cases x with
        | other => cases hw
        | redisError =>
          cases hw
          exact .failed hi (by decide)
        | osError =>
          cases hw
          exact .failed hi (by decide)

theorem exec_of_step {l : CacheTurn} {s s' : CacheTasks}
    (hs : InitStep currentLoop l s s') : (cacheLoop currentLoop).exec l s = some s' := by
  have hstart : ∀ p w, (cacheLoop currentLoop).advance (initRedis currentLoop) s.world = (p, w) →
      (cacheLoop currentLoop).exec (.start ()) s = some ⟨w, s.tasks ++ [p]⟩ := by
    intro p w hadv
    change some (Tasks.mk ((cacheLoop currentLoop).advance (initRedis currentLoop) s.world).2
      (s.tasks ++ [((cacheLoop currentLoop).advance (initRedis currentLoop) s.world).1])) = _
    rw [hadv]
  cases hs with
  | ready hready => exact hstart _ _ (by rw [advance_initRedis, if_pos hready])
  | close hready hr => exact hstart _ _ (by rw [advance_initRedis, if_neg hready, hr])
  | connect hready hr => exact hstart _ _ (by rw [advance_initRedis, if_neg hready, hr])
  | @reconnect _ i r c hi =>
    cases c with
    | ok u => exact (cacheLoop currentLoop).exec_wake (e := CacheEff.aclose r) hi rfl
    | error x => exact (cacheLoop currentLoop).exec_wake (e := CacheEff.aclose r) hi rfl
  | @answered _ i r hi =>
    exact (cacheLoop currentLoop).exec_wake (e := CacheEff.ping r) (c := .ok ()) hi rfl
  | @failed _ i r e hi he =>
    cases e with
    | other => exact absurd rfl he
    | redisError =>
      exact (cacheLoop currentLoop).exec_wake (e := CacheEff.ping r) (c := .error .redisError) hi
        rfl
    | osError =>
      exact (cacheLoop currentLoop).exec_wake (e := CacheEff.ping r) (c := .error .osError) hi
        rfl

def pinged : CacheM Unit → Option Nat
  | .op (.ping r) _ => some r
  | _ => none

@[simp] theorem pinged_awaitPing (r : Nat) : pinged (awaitPing r) = some r := rfl

@[simp] theorem pinged_tearDown (r : Nat) : pinged (tearDown currentLoop r) = none := rfl

theorem awaitPing_inj {r r' : Nat} (h : awaitPing r = awaitPing r') : r = r' :=
  Option.some.inj (congrArg pinged h)

theorem tearDown_inj {r r' : Nat} (h : tearDown currentLoop r = tearDown currentLoop r') :
    r = r' := by
  change Prog.op (CacheEff.aclose r) _ = Prog.op (CacheEff.aclose r') _ at h
  cases h
  rfl

theorem tearDown_ne_awaitPing (r r' : Nat) : tearDown currentLoop r ≠ awaitPing r' :=
  fun h => nomatch congrArg pinged h

theorem tearDown_ne_returned (r : Nat) : tearDown currentLoop r ≠ .ret (.ok ()) :=
  fun h => nomatch congrArg Prog.returned h

end Steps

/-- No call has been made on the event loop yet, and the client is not initialised for it. It may
still hold a Redis client of another event loop. -/
structure FirstUse (currentLoop : Nat) (s : CacheTasks) : Prop where
  tasks : s.tasks = []
  unready : ¬ s.world.attrs.Ready currentLoop
  made : ∀ r, s.world.attrs.redis = some r → r < s.world.made
  closed : ∀ r ∈ s.world.closed, r < s.world.made ∧ s.world.attrs.redis ≠ some r

structure Connecting (currentLoop : Nat) (s : CacheTasks) : Prop where
  phase : ∀ p ∈ s.tasks, InitPhase currentLoop p
  made : ∀ r, s.world.attrs.redis = some r → r < s.world.made
  pending : ∀ r, tearDown currentLoop r ∈ s.tasks → r < s.world.made
  closed : ∀ r ∈ s.world.closed, r < s.world.made ∧ s.world.attrs.redis ≠ some r
  held : s.tasks ≠ [] → ∀ r, s.world.attrs.redis = some r →
    r ∈ s.world.answered ∨ tearDown currentLoop r ∈ s.tasks ∨ awaitPing r ∈ s.tasks
  unready : s.tasks = [] → ¬ s.world.attrs.Ready currentLoop
  loop : ∀ p ∈ s.tasks, (∀ r, p ≠ tearDown currentLoop r) → s.world.attrs.loop = some currentLoop
  ready : s.tasks ≠ [] → s.world.attrs.Ready currentLoop ∨ ∃ p ∈ s.tasks, p.returned = false

theorem FirstUse.connecting {currentLoop : Nat} {s : CacheTasks} (h : FirstUse currentLoop s) :
    Connecting currentLoop s where
  phase := by simp [h.tasks]
  made := h.made
  pending := by simp [h.tasks]
  closed := h.closed
  held hne := absurd h.tasks hne
  unready _ := h.unready
  loop := by simp [h.tasks]
  ready hne := absurd h.tasks hne

namespace Connecting

variable {currentLoop : Nat} {s : CacheTasks}

theorem added (h : Connecting currentLoop s) {p : CacheM Unit} (hp : InitPhase currentLoop p)
    (hpending : ∀ r, tearDown currentLoop r = p → r < s.world.made)
    (hheld : s.tasks = [] → ∀ r, s.world.attrs.redis = some r → tearDown currentLoop r = p)
    (hloop : (∀ r, p ≠ tearDown currentLoop r) → s.world.attrs.loop = some currentLoop)
    (hready : s.world.attrs.Ready currentLoop ∨ p.returned = false) :
    Connecting currentLoop ⟨s.world, s.tasks ++ [p]⟩ := by
  have hmem : ∀ q ∈ s.tasks ++ [p], q ∈ s.tasks ∨ q = p := fun q hq =>
    (List.mem_append.mp hq).imp_right List.mem_singleton.mp
  have hself : p ∈ s.tasks ++ [p] := List.mem_append_right _ (List.mem_singleton_self p)
  constructor
  case phase =>
    intro q hq
    cases hmem q hq with
    | inl hold => exact h.phase q hold
    | inr hnew => exact hnew ▸ hp
  case made => exact h.made
  case pending =>
    intro r hr
    cases hmem _ hr with
    | inl hold => exact h.pending r hold
    | inr hnew => exact hpending r hnew
  case closed => exact h.closed
  case held =>
    intro _ r hr
    by_cases hnil : s.tasks = []
    · exact .inr (.inl (hheld hnil r hr ▸ hself))
    · exact (h.held hnil r hr).imp_right
        (Or.imp (List.mem_append_left _) (List.mem_append_left _))
  case unready => exact fun hnil => absurd hself (List.eq_nil_iff_forall_not_mem.mp hnil p)
  case loop =>
    intro q hq hne
    cases hmem q hq with
    | inl hold => exact h.loop q hold hne
    | inr hnew => exact hloop (hnew ▸ hne)
  case ready => exact fun _ => hready.imp_right fun hwait => ⟨p, hself, hwait⟩

theorem returns (h : Connecting currentLoop s) (hready : s.world.attrs.Ready currentLoop) :
    Connecting currentLoop ⟨s.world, s.tasks ++ [.ret (.ok ())]⟩ := by
  apply h.added .returned
  · exact fun r he => absurd he (tearDown_ne_returned r)
  · exact fun hnil => absurd hready (h.unready hnil)
  · exact fun _ => hready.2
  · exact .inl hready

theorem closes (h : Connecting currentLoop s) {r : Nat} (hr : s.world.attrs.redis = some r) :
    Connecting currentLoop ⟨s.world, s.tasks ++ [tearDown currentLoop r]⟩ := by
  apply h.added (.closing r)
  · intro r' he
    rw [tearDown_inj he]
    exact h.made r hr
  · intro _ r' hr'
    rw [hr] at hr'
    cases hr'
    rfl
  · exact fun hne => absurd rfl (hne r)
  · exact .inr rfl

theorem settled (h : Connecting currentLoop s) {i r : Nat} {w : CacheWorld}
    (hi : s.tasks[i]? = some (awaitPing r)) (hmade : w.made = s.world.made)
    (hclosed : w.closed = s.world.closed)
    (hredis : ∀ r', w.attrs.redis = some r' → s.world.attrs.redis = some r')
    (hans : ∀ r' ∈ s.world.answered, r' ∈ w.answered)
    (hself : w.attrs.redis = some r → r ∈ w.answered) (hinit : w.attrs.initialized = true)
    (hloop : w.attrs.loop = s.world.attrs.loop) :
    Connecting currentLoop ⟨w, s.tasks.set i (.ret (.ok ()))⟩ := by
  have hmem := List.mem_of_getElem? hi
  have hset : ∀ p ∈ s.tasks.set i (.ret (.ok ())), p ∈ s.tasks ∨ p = .ret (.ok ()) :=
    fun _ => List.mem_or_eq_of_mem_set
  have hcur : w.attrs.loop = some currentLoop :=
    hloop.trans (h.loop _ hmem fun r' he => tearDown_ne_awaitPing r' r he.symm)
  constructor
  case phase =>
    intro p hp
    cases hset p hp with
    | inl hold => exact h.phase p hold
    | inr hnew => exact hnew ▸ .returned
  case made => exact fun r' hr' => hmade ▸ h.made r' (hredis r' hr')
  case pending =>
    intro r' hr'
    cases hset _ hr' with
    | inl hold => exact hmade ▸ h.pending r' hold
    | inr hnew => exact absurd hnew (tearDown_ne_returned r')
  case closed =>
    intro r' hr'
    obtain ⟨hlt, hne⟩ := h.closed r' (hclosed ▸ hr')
    exact ⟨hmade ▸ hlt, fun he => hne (hredis r' he)⟩
  case held =>
    intro _ r' hr'
    rcases h.held (List.ne_nil_of_mem hmem) r' (hredis r' hr') with ha | hclose | hping
    · exact .inl (hans r' ha)
    · exact .inr (.inl (mem_set_of_ne _ hi hclose (tearDown_ne_awaitPing r' r)))
    · by_cases hrr : r' = r
      · subst hrr
        exact .inl (hself hr')
      · exact .inr (.inr (mem_set_of_ne _ hi hping fun he => hrr (awaitPing_inj he)))
  case unready =>
    intro hnil
    exact absurd (List.set_eq_nil_iff i _ |>.mp hnil) (List.ne_nil_of_mem hmem)
  case loop => exact fun _ _ _ => hcur
  case ready => exact fun _ => .inl ⟨hinit, hcur⟩

theorem connected (h : Connecting currentLoop s) {w : CacheWorld} {ts : List (CacheM Unit)}
    (hmade : w.made = s.world.made) 
    (hclosed : ∀ r ∈ w.closed, r < w.made)
    (hts : ∀ p ∈ ts, p ∈ s.tasks ∨ p = awaitPing w.made) (hself : awaitPing w.made ∈ ts) :
    Connecting currentLoop ⟨w.connected currentLoop, ts⟩ where
  phase p hp := by
    cases hts p hp with
    | inl hold => exact h.phase p hold
    | inr hnew => exact hnew ▸ .pinging _
  made r hr := by
    cases hr
    exact Nat.lt_succ_self _
  pending r hr := by
    cases hts _ hr with
    | inl hold => exact Nat.lt_succ_of_lt (hmade ▸ h.pending r hold)
    | inr hnew => exact absurd hnew (tearDown_ne_awaitPing r _)
  closed r hr := by
    refine ⟨Nat.lt_succ_of_lt (hclosed r hr), fun he => ?_⟩
    cases he
    exact Nat.lt_irrefl _ (hclosed _ hr)
  held _ r hr := by
    cases hr
    exact .inr (.inr hself)
  unready hnil := absurd hself (List.eq_nil_iff_forall_not_mem.mp hnil _)
  loop _ _ _ := rfl
  ready _ := .inr ⟨_, hself, rfl⟩

theorem step (h : Connecting currentLoop s) {l : CacheTurn} {s' : CacheTasks}
    (hs : InitStep currentLoop l s s') : Connecting currentLoop s' := by
  cases hs with
  | ready hready => exact h.returns hready
  | close _ hr => exact h.closes hr
  | connect _ _ =>
    exact h.connected rfl (fun r hr => (h.closed r hr).1)
      (fun p hp => (List.mem_append.mp hp).imp_right List.mem_singleton.mp) (by simp)
  | @reconnect _ i r c hi =>
    have hpend := h.pending r (List.mem_of_getElem? hi)
    refine h.connected rfl (fun r' hr' => ?_) (fun _ => List.mem_or_eq_of_mem_set)
      (mem_set_self _ hi)
    cases List.mem_cons.mp hr' with
    | inl hself => exact hself ▸ hpend
    | inr hold => exact (h.closed r' hold).1
  | @answered _ i r hi =>
    exact h.settled hi rfl rfl (fun _ hr => hr) (fun _ => List.mem_cons_of_mem r)
      (fun _ => List.mem_cons_self) rfl rfl
  | failed hi _ =>
    exact h.settled hi rfl rfl (fun _ hr => nomatch hr) (fun _ hr => hr) (fun hr => nomatch hr)
      rfl rfl

theorem exec (h : Connecting currentLoop s) {l : CacheTurn} {s' : CacheTasks}
    (hs : (cacheLoop currentLoop).exec l s = some s') : Connecting currentLoop s' :=
  h.step (step_of_exec h.phase hs)

end Connecting

/-- The client serves from memory, or it holds a Redis client that has answered its ping and that
no call has closed. -/
def CacheWorld.Consistent (w : CacheWorld) : Prop :=
  w.attrs.fallbackActive = true ∨
    ∃ r, w.attrs.redis = some r ∧ r ∈ w.answered ∧ r ∉ w.closed

/-- No Redis client is set, although the fallback is not active. -/
def CacheWorld.Bare (w : CacheWorld) : Prop :=
  w.attrs.redis = none ∧ w.attrs.fallbackActive = false

def awaitsPing (s : CacheTasks) (i : Nat) : Bool := ((s.tasks[i]?).bind pinged).isSome

/-- A ping succeeds while no Redis client is set: after the last one was connected to, the ping of
some other call has failed. -/
def Blind : CacheTurn → CacheTasks → Prop
  | .wake i (.ok _), s => awaitsPing s i = true ∧ s.world.attrs.redis = none
  | _, _ => False

def Renews (currentLoop : Nat) : CacheTurn → CacheTasks → Prop
  | .start _, s => ¬ s.world.attrs.Ready currentLoop ∧ s.world.attrs.redis = none
  | .wake i c, s => awaitsPing s i = true → c.isOk = false

variable {currentLoop : Nat}

theorem bare_step {l : CacheTurn} {s s' : CacheTasks} (hs : InitStep currentLoop l s s') :
    s'.world.Bare ↔ Blind l s ∨ s.world.Bare ∧ ¬ Renews currentLoop l s := by
  unfold CacheWorld.Bare
  cases hs with
  | ready hready => simp [Blind, Renews, hready]
  | close _ hr => simp [Blind, Renews, hr]
  | connect hready hr => simp [Blind, Renews, hready, hr, CacheWorld.connected]
  | @reconnect _ i r c hi =>
    have hping : awaitsPing s i = false := by simp [awaitsPing, hi]
    cases c <;> simp [Blind, Renews, hping, CacheWorld.connected]
  | @answered _ i r hi =>
    have hping : awaitsPing s i = true := by simp [awaitsPing, hi]
    simp +contextual [Blind, Renews, hping, CacheWorld.answer, Except.isOk, Except.toBool]
  | failed hi _ => simp [Blind, Renews, CacheWorld.fail, Except.isOk, Except.toBool]

/-- Once all calls have returned, the only inconsistency left is a bare client. -/
theorem Connecting.consistent_iff {s : CacheTasks} (h : Connecting currentLoop s)
    (hcalled : s.tasks ≠ []) (hrest : s.AtRest) : s.world.Consistent ↔ ¬ s.world.Bare := by
  unfold CacheWorld.Consistent CacheWorld.Bare
  cases hr : s.world.attrs.redis with
  | none => simp
  | some r =>
    have hans : r ∈ s.world.answered := by
      rcases h.held hcalled r hr with ha | hclose | hping
      · exact ha
      · exact nomatch hrest _ hclose
      · exact nomatch hrest _ hping
    have hopen : r ∉ s.world.closed := fun hc => (h.closed r hc).2 hr
    simp [hans, hopen]

theorem FirstUse.meets {s₀ s : CacheTasks} {ls : List CacheTurn}
    (h : FirstUse currentLoop s₀) (hb : s₀.world.Bare)
    (hs : (cacheLoop currentLoop).execs ls s₀ = some s) (hcalled : s.tasks ≠ []) :
    (cacheLoop currentLoop).Meets (Renews currentLoop) ls s₀ := by
  cases ls with
  | nil =>
    cases hs
    exact absurd h.tasks hcalled
  | cons l ls =>
    cases l with
    | start u => exact .inl ⟨h.unready, hb.1⟩
    | wake i c => simp [EventLoop.execs, EventLoop.exec, h.tasks] at hs

/-- However many calls are made at once, in whatever order they run between their awaits and
however their pings end: when all of them have returned, the client is consistent unless a ping
has succeeded where no Redis client was set, and nothing has been renewed since. -/
theorem first_use_consistent_iff {s₀ s : CacheTasks} {ls : List CacheTurn}
    (hfirst : FirstUse currentLoop s₀) (hs : (cacheLoop currentLoop).execs ls s₀ = some s)
    (hcalled : s.tasks ≠ []) (hrest : s.AtRest) :
    (s.world.Consistent ↔ (cacheLoop currentLoop).Leads Blind (Renews currentLoop) ls s₀) ∧
    (¬ s.world.Consistent →
      s.world.attrs.redis = none ∧ s.world.attrs.fallbackActive = false) := by
  have hinv : ∀ l s s', Connecting currentLoop s →
      (cacheLoop currentLoop).exec l s = some s' → Connecting currentLoop s' :=
    fun l s s' h => h.exec
  have hend := ((cacheLoop currentLoop).execs_invariant hinv hfirst.connecting hs).consistent_iff
    hcalled hrest
  have hleads := (cacheLoop currentLoop).leads_iff (R := fun s => s.world.Bare) hinv
    (fun l s s' h hl => bare_step (step_of_exec h.phase hl)) hfirst.connecting hs
  have hmeets := fun hb => hfirst.meets hb hs hcalled
  constructor
  · rw [hend, hleads]
    exact and_iff_left hmeets
  · rw [hend, not_not]
    exact fun hbare => hbare

theorem Connecting.ready_of_rest {s : CacheTasks} (h : Connecting currentLoop s)
    (hcalled : s.tasks ≠ []) (hrest : s.AtRest) : s.world.attrs.Ready currentLoop := by
  refine (h.ready hcalled).resolve_right fun hwait => ?_
  obtain ⟨p, hp, hret⟩ := hwait
  rw [hrest p hp] at hret
  cases hret

theorem Connecting.stays {s s' : CacheTasks} {ls : List CacheTurn}
    (h : Connecting currentLoop s) (hcalled : s.tasks ≠ []) (hrest : s.AtRest)
    (hs : (cacheLoop currentLoop).execs ls s = some s') : s'.world = s.world := by
  have hready := h.ready_of_rest hcalled hrest
  have hstep : ∀ l s₁ s₂, (Connecting currentLoop s₁ ∧ s₁.AtRest ∧ s₁.world = s.world) →
      (cacheLoop currentLoop).exec l s₁ = some s₂ →
      Connecting currentLoop s₂ ∧ s₂.AtRest ∧ s₂.world = s.world := by
    rintro l s₁ s₂ ⟨h₁, hrest₁, hw⟩ hl
    refine ⟨h₁.exec hl, ?_⟩
    rw [← hw] at hready
    cases step_of_exec h₁.phase hl with
    | ready _ =>
      refine ⟨fun p hp => ?_, hw⟩
      rcases List.mem_append.mp hp with hold | hnew
      · exact hrest₁ p hold
      · exact List.mem_singleton.mp hnew ▸ rfl
    | close hno _ => exact absurd hready hno
    | connect hno _ => exact absurd hready hno
    | reconnect hi => exact nomatch hrest₁ _ (List.mem_of_getElem? hi)
    | answered hi => exact nomatch hrest₁ _ (List.mem_of_getElem? hi)
    | failed hi _ => exact nomatch hrest₁ _ (List.mem_of_getElem? hi)
  exact ((cacheLoop currentLoop).execs_invariant hstep ⟨h, hrest, rfl⟩ hs).2.2

def CacheAttrs.client {κ ν : Type} (store : TimedStore κ ν) (self : CacheAttrs) :
    CacheClient κ ν :=
  { redis := self.redis.isSome, fallbackStore := store, fallbackActive := self.fallbackActive,
    initialized := self.initialized, loop := self.loop }

theorem ping_alone {κ ν : Type} (env : CacheEnv) (store : TimedStore κ ν)
    (ts : List (CacheM Unit)) (w : CacheWorld) :
    ∃ (c : CacheReply) (s' : CacheTasks), (cacheLoop env.loop).exec (.wake ts.length c)
        ⟨w.connected env.loop, ts ++ [awaitPing w.made]⟩ = some s' ∧
      s'.tasks = ts ++ [.ret (.ok ())] ∧ s'.world.attrs.client store =
        { redis := env.ping, fallbackStore := store, fallbackActive := !env.ping,
          initialized := true, loop := some env.loop } := by
  have hset : ∀ p q : CacheM Unit, (ts ++ [p]).set ts.length q = ts ++ [q] := by simp
  cases env.ping with
  | true =>
    exact ⟨.ok (), _, exec_of_step (.answered List.getElem?_concat_length), hset _ _, rfl⟩
  | false =>
    exact ⟨.error .redisError, _,
      exec_of_step (.failed List.getElem?_concat_length (by decide)), hset _ _, rfl⟩

/-- A call that no other call interrupts does to the client what `CacheClient.initRedis` says. -/
theorem initRedis_alone {κ ν : Type} (env : CacheEnv) (store : TimedStore κ ν) (s : CacheTasks) :
    ∃ (cs : List CacheReply) (s' : CacheTasks), (cacheLoop env.loop).execs
        (.start () :: cs.map (.wake s.tasks.length)) s = some s' ∧
      s'.tasks = s.tasks ++ [.ret (.ok ())] ∧
      s'.world.attrs.client store = (s.world.attrs.client store).initRedis env := by
  by_cases hready : s.world.attrs.Ready env.loop
  · refine ⟨[], _, (cacheLoop env.loop).execs_cons (exec_of_step (.ready hready)), rfl, ?_⟩
    exact (if_pos hready).symm
  · have hinit : (s.world.attrs.client store).initRedis env =
        { redis := env.ping, fallbackStore := store, fallbackActive := !env.ping,
          initialized := true, loop := some env.loop } := if_neg hready
    rw [hinit]
    cases hr : s.world.attrs.redis with
    | none =>
      obtain ⟨c, s', hping, hend⟩ := ping_alone env store s.tasks s.world
      refine ⟨[c], s', ?_, hend⟩
      rw [EventLoop.execs_cons _ (exec_of_step (.connect hready hr))]
      exact EventLoop.execs_cons _ hping
    | some r =>
      obtain ⟨c, s', hping, hend⟩ := ping_alone env store s.tasks (s.world.close r)
      have hclose : (cacheLoop env.loop).exec (.wake s.tasks.length (.ok ()))
          ⟨s.world, s.tasks ++ [tearDown env.loop r]⟩ = some
          ⟨(s.world.close r).connected env.loop, s.tasks ++ [awaitPing s.world.made]⟩ := by
        rw [exec_of_step (.reconnect List.getElem?_concat_length)]
        simp
      refine ⟨[.ok (), c], s', ?_, hend⟩
      rw [EventLoop.execs_cons _ (exec_of_step (.close hready hr)), List.map_cons,
        EventLoop.execs_cons _ hclose]
      exact EventLoop.execs_cons _ hping

/-- The client is initialised for the event loop and serves from memory. -/
structure CacheClient.Stranded {κ ν : Type} (currentLoop : Nat) (c : CacheClient κ ν) : Prop where
  initialized : c.initialized = true
  loop : c.loop = some currentLoop
  fallback : c.usesFallback = true

theorem CacheClient.Stranded.of_store {κ ν : Type} {c : CacheClient κ ν}
    (h : c.Stranded currentLoop) (store : TimedStore κ ν) :
    CacheClient.Stranded currentLoop { c with fallbackStore := store } :=
  ⟨h.initialized, h.loop, h.fallback⟩

theorem CacheClient.Stranded.step {κ ν : Type} [DecidableEq κ] {s : CacheState κ ν}
    (h : s.client.Stranded currentLoop) {op : CacheOp κ ν × CacheEnv}
    (hloop : op.2.loop = currentLoop) :
    (s.step op).2.client.Stranded currentLoop ∧ (s.step op).2.server = s.server := by
  obtain ⟨op, env⟩ := op
  have hsame : s.client.initRedis env = s.client :=
    if_pos ⟨h.initialized, h.loop.trans (congrArg some hloop.symm)⟩
  have hclient : (s.arrive env).client = s.client := hsame
  have hf : (s.arrive env).client.usesFallback = true := hclient ▸ h.fallback
  have hstranded : (s.arrive env).client.Stranded currentLoop := hclient ▸ h
  cases op with
  | get k =>
    simp only [CacheState.step, CacheState.get, hf, if_true]
    refine ⟨?_, rfl⟩
    unfold CacheClient.getFallback
    split
    · exact hstranded
    · exact hstranded
    · split
      · exact hstranded.of_store _
      · exact hstranded
  | set k v ttl =>
    simp only [CacheState.step, CacheState.set, hf, if_true]
    exact ⟨hstranded.of_store _, rfl⟩
  | delete k =>
    simp only [CacheState.step, CacheState.delete, hf, if_true]
    exact ⟨hstranded.of_store _, rfl⟩

theorem CacheClient.Stranded.run {κ ν : Type} [DecidableEq κ] {s : CacheState κ ν}
    (h : s.client.Stranded currentLoop) {ops : List (CacheOp κ ν × CacheEnv)}
    (hloop : ∀ op ∈ ops, op.2.loop = currentLoop) :
    (s.run ops).client.Stranded currentLoop ∧ (s.run ops).server = s.server := by
  induction ops generalizing s with
  | nil => exact ⟨h, rfl⟩
  | cons op ops ih =>
    obtain ⟨hstep, hserver⟩ := h.step (hloop op List.mem_cons_self)
    obtain ⟨hrun, hsame⟩ := ih hstep fun op' hop => hloop op' (List.mem_cons_of_mem _ hop)
    exact ⟨hrun, hsame.trans hserver⟩

theorem Connecting.stranded {κ ν : Type} {s : CacheTasks} (h : Connecting currentLoop s)
    (hcalled : s.tasks ≠ []) (hrest : s.AtRest) (hbare : s.world.Bare) (store : TimedStore κ ν) :
    (s.world.attrs.client store).Stranded currentLoop := by
  have hready := h.ready_of_rest hcalled hrest
  refine ⟨hready.1, hready.2, ?_⟩
  simp [CacheClient.usesFallback, CacheAttrs.client, hbare.1]

def freshTasks : CacheTasks :=
  { world := { attrs := { redis := none, fallbackActive := false, initialized := false,
                          loop := none }
               made := 0, answered := [], closed := [] }
    tasks := [] }

theorem firstUse_fresh (currentLoop : Nat) : FirstUse currentLoop freshTasks where
  tasks := rfl
  unready h := nomatch h.1
  made _ hr := nomatch hr
  closed _ hr := nomatch hr

/-- The second call closes the Redis client of the first, whose ping fails, and connects again. -/
def closesFirst : List CacheTurn :=
  [.start (), .start (), .wake 0 (.error .redisError), .wake 1 (.ok ()), .wake 1 (.ok ())]

theorem rested (ls : List CacheTurn) (P : CacheWorld → Prop) [DecidablePred P]
    (h : ((cacheLoop 0).execs ls freshTasks).any (fun s =>
      decide s.AtRest && !s.tasks.isEmpty && decide (P s.world)) = true) :
    ∃ s, (cacheLoop 0).execs ls freshTasks = some s ∧ s.AtRest ∧ s.tasks ≠ [] ∧ P s.world := by
  cases hs : (cacheLoop 0).execs ls freshTasks with
  | none =>
    rw [hs] at h
    cases h
  | some s =>
    rw [hs] at h
    simp only [Option.any_some, Bool.and_eq_true, decide_eq_true_eq, Bool.not_eq_true',
      List.isEmpty_eq_false_iff] at h
    exact ⟨s, rfl, h.1.1, h.1.2, h.2⟩

theorem first_use_consistent_fresh : ∃ s, (cacheLoop 0).execs closesFirst freshTasks = some s ∧
    s.world.attrs.redis = some 1 ∧
    (s.world.Consistent ↔ (cacheLoop 0).Leads Blind (Renews 0) closesFirst freshTasks) := by
  obtain ⟨s, hs, hrest, hcalled, hw⟩ := rested closesFirst
    (fun w => w.attrs.redis = some 1) (by decide +kernel)
  exact ⟨s, hs, hw, (first_use_consistent_iff (firstUse_fresh 0) hs hcalled hrest).1⟩

/-- Three calls at once. The first connects, and the others close what it has connected to. Then
each of them connects in turn, so that the third takes the place of the second; its ping fails,
and that of the second succeeds. -/
def secondOutlivesThird : List CacheTurn :=
  [.start (), .start (), .start (), .wake 0 (.error .redisError), .wake 1 (.ok ()),
    .wake 2 (.ok ()), .wake 2 (.error .redisError), .wake 1 (.ok ())]

/-- The second Redis client has answered, and nobody has closed it. Yet none is set, the fallback
is not active, and for good: no later call changes anything, and no command reaches Redis. -/
theorem first_use_strands_client : ∃ s,
    (cacheLoop 0).execs secondOutlivesThird freshTasks = some s ∧ s.AtRest ∧ s.tasks ≠ [] ∧
    ¬ s.world.Consistent ∧ (1 ∈ s.world.answered ∧ 1 ∉ s.world.closed) ∧
    (s.world.attrs.redis = none ∧ s.world.attrs.fallbackActive = false) ∧
    (∀ ls s', (cacheLoop 0).execs ls s = some s' → s'.world = s.world) ∧
    ∀ (c : CacheState String String) (ops : List (CacheOp String String × CacheEnv)),
      c.client = s.world.attrs.client c.client.fallbackStore → (∀ op ∈ ops, op.2.loop = 0) →
        (c.run ops).server = c.server := by
  obtain ⟨s, hs, hrest, hcalled, hbare, hans⟩ := rested secondOutlivesThird
    (fun w => (w.attrs.redis = none ∧ w.attrs.fallbackActive = false) ∧
      1 ∈ w.answered ∧ 1 ∉ w.closed) (by decide +kernel)
  have h : Connecting 0 s := (cacheLoop 0).execs_invariant (fun _ _ _ h => h.exec)
    (firstUse_fresh 0).connecting hs
  refine ⟨s, hs, hrest, hcalled, fun hcons => (h.consistent_iff hcalled hrest).mp hcons hbare, hans,
    hbare, fun _ _ hlater => h.stays hcalled hrest hlater, fun c ops hc hloop => ?_⟩
  have hstranded : c.client.Stranded 0 := hc ▸ h.stranded hcalled hrest hbare _
  exact (hstranded.run hloop).2

end AsyncPulse
