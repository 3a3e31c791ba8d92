import AsyncPulse.MayCache
import AsyncPulse.Records
import Mathlib.Logic.Function.Basic
set_option autoImplicit false

namespace AsyncPulse

variable {κ ν : Type}

/-! ### `core/cache.py` -/

/-- How Redis deals with a command. A command whose reply is lost has been carried out. -/
inductive RedisReply where
  | ok
  | error
  | lost
  deriving DecidableEq, Repr

/-- What a call of the client meets: the running event loop, whether a new connection answers the
ping, what Redis does with the command, and the time since the call before. -/
structure CacheEnv where
  loop : Nat
  ping : Bool
  reply : RedisReply
  elapsed : Nat
  deriving DecidableEq, Repr

/-- `CacheClient`. `redis` tells whether `_redis` is set. -/
structure CacheClient (κ ν : Type) where
  redis : Bool
  fallbackStore : TimedStore κ ν
  fallbackActive : Bool
  initialized : Bool
  loop : Option Nat
  deriving DecidableEq, Repr

namespace CacheClient

def new : CacheClient κ ν :=
  { redis := false, fallbackStore := [], fallbackActive := false, initialized := false,
    loop := none }

/-- `_init_redis()`. The fallback store is not cleared. -/
def initRedis (env : CacheEnv) (c : CacheClient κ ν) : CacheClient κ ν :=
  if c.initialized = true ∧ c.loop = some env.loop then c
  else { c with redis := env.ping, fallbackActive := !env.ping, initialized := true,
                loop := some env.loop }

@[simp] theorem fallbackStore_initRedis (env : CacheEnv) (c : CacheClient κ ν) :
    (c.initRedis env).fallbackStore = c.fallbackStore := by
  unfold initRedis
  split <;> rfl

def usesFallback (c : CacheClient κ ν) : Bool := c.fallbackActive || !c.redis

/-- `except RedisError`. The call is then repeated, and as the client is initialised on this loop
by now, the repetition goes straight to the fallback store. -/
def fallBack (c : CacheClient κ ν) : CacheClient κ ν := { c with fallbackActive := true }

@[simp] theorem usesFallback_fallBack (c : CacheClient κ ν) : c.fallBack.usesFallback = true := rfl

end CacheClient

structure CacheState (κ ν : Type) where
  client : CacheClient κ ν
  server : TimedStore κ ν
  clock : Time
  deriving DecidableEq, Repr

namespace CacheState

def fresh (t : Time) : CacheState κ ν := { client := .new, server := [], clock := t }

def arrive (env : CacheEnv) (s : CacheState κ ν) : CacheState κ ν :=
  { s with clock := s.clock + env.elapsed, client := s.client.initRedis env }

/-- What a client on the one store or the other can read at time `t`. Redis drops an entry as
soon as its time is over. -/
def entries (fallback : Bool) (t : Time) (s : CacheState κ ν) : TimedStore κ ν :=
  if fallback = true then TimedStore.live (fun e => e < t) s.client.fallbackStore
  else TimedStore.live (fun e => e ≤ t) s.server

theorem entries_later {b : Bool} {t t' : Time} (ht : t ≤ t') {s : CacheState κ ν}
    {x : κ × ν × Option Int} (hx : x ∈ s.entries b t') : x ∈ s.entries b t := by
  cases b with
  | true =>
    exact TimedStore.live_sub
      (fun e he => by simpa using Int.lt_of_lt_of_le (by simpa using he) ht) hx
  | false =>
    exact TimedStore.live_sub (fun e he => by simpa using Int.le_trans (by simpa using he) ht) hx

@[simp] theorem entries_arrive (b : Bool) (t : Time) (env : CacheEnv) (s : CacheState κ ν) :
    (s.arrive env).entries b t = s.entries b t := by
  cases b <;> simp [entries, arrive]

end CacheState

variable [DecidableEq κ]

namespace CacheClient

def getFallback (t : Time) (k : κ) (c : CacheClient κ ν) : Option ν × CacheClient κ ν :=
  match c.fallbackStore.lookup k with
  | none => (none, c)
  | some (v, none) => (some v, c)
  | some (v, some expiry) =>
    if expiry < t then (none, { c with fallbackStore := c.fallbackStore.delete k })
    else (some v, c)

/-- `datetime.now(UTC) + timedelta(seconds=ttl) if ttl else None`. -/
def fallbackExpiry (t : Time) : Option Int → Option Time
  | some ttl => if ttl = 0 then none else some (t + seconds ttl)
  | none => none

def setFallback (t : Time) (k : κ) (v : ν) (ttl : Option Int) (c : CacheClient κ ν) :
    CacheClient κ ν :=
  { c with fallbackStore := c.fallbackStore.set k v (fallbackExpiry t ttl) }

def deleteFallback (k : κ) (c : CacheClient κ ν) : CacheClient κ ν :=
  { c with fallbackStore := c.fallbackStore.delete k }

@[simp] theorem usesFallback_setFallback (t : Time) (k : κ) (v : ν) (ttl : Option Int)
    (c : CacheClient κ ν) : (c.setFallback t k v ttl).usesFallback = c.usesFallback := rfl

@[simp] theorem usesFallback_deleteFallback (k : κ) (c : CacheClient κ ν) :
    (c.deleteFallback k).usesFallback = c.usesFallback := rfl

theorem getFallback_spec (t : Time) (k : κ) (c : CacheClient κ ν) :
    (c.getFallback t k).2.usesFallback = c.usesFallback ∧
    (∀ x ∈ TimedStore.live (fun e => e < t) (c.getFallback t k).2.fallbackStore,
      x ∈ TimedStore.live (fun e => e < t) c.fallbackStore) ∧
    ∀ v, (c.getFallback t k).1 = some v →
      ∃ e, (k, v, e) ∈ TimedStore.live (fun e => e < t) c.fallbackStore := by
  have hget : ∀ v, c.fallbackStore.get (fun e => e < t) k = some v →
      ∃ e, (k, v, e) ∈ TimedStore.live (fun e => e < t) c.fallbackStore :=
    fun v hv => TimedStore.live_of_get hv
  unfold TimedStore.get at hget
  unfold getFallback
  cases hl : c.fallbackStore.lookup k with
  | none => exact ⟨rfl, fun x hx => hx, fun v hv => by cases hv⟩
  | some y =>
    obtain ⟨v, e⟩ := y
    rw [hl] at hget
    cases e with
    | none => exact ⟨rfl, fun x hx => hx, hget⟩
    | some expiry =>
      simp only [decide_eq_true_eq] at hget
      simp only
      split
      · exact ⟨rfl, fun x hx => (TimedStore.mem_live_delete hx).1, fun v hv => by cases hv⟩
      · rename_i hle
        rw [if_neg hle] at hget
        exact ⟨rfl, fun x hx => hx, hget⟩

end CacheClient

namespace CacheState

def get (env : CacheEnv) (k : κ) (s : CacheState κ ν) : Option ν × CacheState κ ν :=
  let s := s.arrive env
  if s.client.usesFallback = true then
    ((s.client.getFallback s.clock k).1, { s with client := (s.client.getFallback s.clock k).2 })
  else if env.reply = .ok then (s.server.get (fun e => e ≤ s.clock) k, s)
  else
    ((s.client.fallBack.getFallback s.clock k).1,
      { s with client := (s.client.fallBack.getFallback s.clock k).2 })

/-- Redis refuses a `SET` whose time to live is not positive. -/
def accepted (ttl : Option Int) : Bool := ttl.all fun n => 0 < n

def set (env : CacheEnv) (k : κ) (v : ν) (ttl : Option Int) (s : CacheState κ ν) :
    CacheState κ ν :=
  let s := s.arrive env
  if s.client.usesFallback = true then
    { s with client := s.client.setFallback s.clock k v ttl }
  else
    let server :=
      if accepted ttl = true ∧ env.reply ≠ .error then
        s.server.set k v (ttl.map fun n => s.clock + seconds n)
      else s.server
    if accepted ttl = true ∧ env.reply = .ok then { s with server := server }
    else { s with server := server, client := s.client.fallBack.setFallback s.clock k v ttl }

def delete (env : CacheEnv) (k : κ) (s : CacheState κ ν) : CacheState κ ν :=
  let s := s.arrive env
  if s.client.usesFallback = true then { s with client := s.client.deleteFallback k }
  else
    let server := if env.reply ≠ .error then s.server.delete k else s.server
    if env.reply = .ok then { s with server := server }
    else { s with server := server, client := s.client.fallBack.deleteFallback k }

end CacheState

inductive CacheOp (κ ν : Type) where
  | get (k : κ)
  | set (k : κ) (v : ν) (ttl : Option Int)
  | delete (k : κ)
  deriving DecidableEq, Repr

def CacheOp.written : CacheOp κ ν → Option κ
  | .get _ => none
  | .set k _ _ | .delete k => some k

def CacheOp.record (m : κ → Option ν) : CacheOp κ ν → κ → Option ν
  | .get _ => m
  | .set k v _ => Function.update m k (some v)
  | .delete k => Function.update m k none

theorem CacheOp.record_of_not_written {m : κ → Option ν} {op : CacheOp κ ν} {k : κ}
    (h : op.written ≠ some k) : op.record m k = m k := by
  cases op with
  | get k' => rfl
  | set k' v ttl =>
    have hk : k ≠ k' := fun he => h (by rw [he]; rfl)
    simp [record, hk]
  | delete k' =>
    have hk : k ≠ k' := fun he => h (by rw [he]; rfl)
    simp [record, hk]

namespace CacheState

def step (op : CacheOp κ ν × CacheEnv) (s : CacheState κ ν) : Option ν × CacheState κ ν :=
  match op.1 with
  | .get k => s.get op.2 k
  | .set k v ttl => (none, s.set op.2 k v ttl)
  | .delete k => (none, s.delete op.2 k)

def run (ops : List (CacheOp κ ν × CacheEnv)) (s : CacheState κ ν) : CacheState κ ν :=
  ops.foldl (fun s op => (s.step op).2) s

theorem get_cases (env : CacheEnv) (k : κ) (s : CacheState κ ν) :
    (∃ c : CacheClient κ ν, c.usesFallback = true ∧
      c.fallbackStore = s.client.fallbackStore ∧
      s.get env k = ((c.getFallback (s.arrive env).clock k).1,
        { s.arrive env with client := (c.getFallback (s.arrive env).clock k).2 })) ∨
    (s.arrive env).client.usesFallback = false ∧
      s.get env k = (s.server.get (fun e => e ≤ (s.arrive env).clock) k, s.arrive env) := by
  unfold get
  cases hf : (s.arrive env).client.usesFallback with
  | true => exact .inl ⟨_, hf, by simp [arrive], by simp only [hf, if_true]⟩
  | false =>
    by_cases hok : env.reply = .ok
    · exact .inr ⟨rfl, by simp [hf, hok]; rfl⟩
    · exact .inl ⟨(s.arrive env).client.fallBack, rfl, by simp [CacheClient.fallBack, arrive],
        by simp [hf, hok]⟩

theorem set_cases (env : CacheEnv) (k : κ) (v : ν) (ttl : Option Int) (s : CacheState κ ν) :
    (∃ (c : CacheClient κ ν) (server : TimedStore κ ν), c.usesFallback = true ∧
      c.fallbackStore = s.client.fallbackStore ∧
      s.set env k v ttl = { s.arrive env with
        server := server, client := c.setFallback (s.arrive env).clock k v ttl }) ∨
    (s.arrive env).client.usesFallback = false ∧
      s.set env k v ttl = { s.arrive env with
        server := s.server.set k v (ttl.map fun n => (s.arrive env).clock + seconds n) } := by
  unfold set
  cases hf : (s.arrive env).client.usesFallback with
  | true => exact .inl ⟨_, (s.arrive env).server, hf, by simp [arrive], by simp only [hf, if_true]⟩
  | false =>
    by_cases hok : accepted ttl = true ∧ env.reply = .ok
    · exact .inr ⟨rfl, by simp [hf, hok]; rfl⟩
    · exact .inl ⟨(s.arrive env).client.fallBack, _, rfl, by simp [CacheClient.fallBack, arrive],
        by simp only [hf, hok, if_false, Bool.false_eq_true]; rfl⟩

theorem delete_cases (env : CacheEnv) (k : κ) (s : CacheState κ ν) :
    (∃ (c : CacheClient κ ν) (server : TimedStore κ ν), c.usesFallback = true ∧
      c.fallbackStore = s.client.fallbackStore ∧
      s.delete env k = { s.arrive env with server := server, client := c.deleteFallback k }) ∨
    (s.arrive env).client.usesFallback = false ∧
      s.delete env k = { s.arrive env with server := s.server.delete k } := by
  unfold delete
  cases hf : (s.arrive env).client.usesFallback with
  | true => exact .inl ⟨_, (s.arrive env).server, hf, by simp [arrive], by simp only [hf, if_true]⟩
  | false =>
    by_cases hok : env.reply = .ok
    · exact .inr ⟨rfl, by simp [hf, hok]; rfl⟩
    · exact .inl ⟨(s.arrive env).client.fallBack, _, rfl, by simp [CacheClient.fallBack, arrive],
        by simp only [hf, hok, if_false, Bool.false_eq_true]; rfl⟩

/-- What can be read after a call could be read before, or the call has just set it. -/
theorem entries_step {op : CacheOp κ ν × CacheEnv} {s : CacheState κ ν} {x : κ × ν × Option Int}
    (hx : x ∈ (s.step op).2.entries (s.step op).2.client.usesFallback (s.step op).2.clock) :
    (∃ ttl, op.1 = .set x.1 x.2.1 ttl) ∨
      op.1.written ≠ some x.1 ∧
        x ∈ s.entries (s.step op).2.client.usesFallback (s.step op).2.clock := by
  obtain ⟨op, env⟩ := op
  cases op with
  | get k =>
    right
    refine ⟨by simp [CacheOp.written], ?_⟩
    obtain ⟨c, hc, hstore, h⟩ | ⟨hf, h⟩ := s.get_cases env k
    · obtain ⟨hu, hsub, -⟩ := c.getFallback_spec (s.arrive env).clock k
      simp only [step, h, hu, hc] at hx ⊢
      simp only [entries, if_true, ← hstore]
      exact hsub x hx
    · simp only [step, h, entries_arrive] at hx ⊢
      exact hx
  | set k v ttl =>
    have hset : ∀ {gone : Int → Bool} {g : TimedStore κ ν} {e : Option Int},
        x ∈ TimedStore.live gone (g.set k v e) →
        (∃ ttl', CacheOp.set k v ttl = .set x.1 x.2.1 ttl') ∨
          (CacheOp.set k v ttl).written ≠ some x.1 ∧ x ∈ TimedStore.live gone g := by
      intro gone g e hx
      obtain ⟨h₁, h₂⟩ | ⟨h₁, h₂⟩ := TimedStore.mem_live_set hx
      · exact .inl ⟨ttl, by rw [h₁, h₂]⟩
      · exact .inr ⟨fun he => h₂ (Option.some.inj he).symm, h₁⟩
    obtain ⟨c, server, hc, hstore, h⟩ | ⟨hf, h⟩ := s.set_cases env k v ttl
    · simp only [step, h, CacheClient.usesFallback_setFallback, hc] at hx ⊢
      simp only [entries, if_true, ← hstore]
      exact hset hx
    · simp only [step, h, hf] at hx ⊢
      exact hset hx
  | delete k =>
    right
    have hdelete : ∀ {gone : Int → Bool} {g : TimedStore κ ν},
        x ∈ TimedStore.live gone (g.delete k) →
        (CacheOp.delete k : CacheOp κ ν).written ≠ some x.1 ∧ x ∈ TimedStore.live gone g := by
      intro gone g hx
      obtain ⟨h₁, h₂⟩ := TimedStore.mem_live_delete hx
      exact ⟨fun he => h₂ (Option.some.inj he).symm, h₁⟩
    obtain ⟨c, server, hc, hstore, h⟩ | ⟨hf, h⟩ := s.delete_cases env k
    · simp only [step, h, CacheClient.usesFallback_deleteFallback, hc] at hx ⊢
      simp only [entries, if_true, ← hstore]
      exact hdelete hx
    · simp only [step, h, hf] at hx ⊢
      exact hdelete hx

theorem mem_entries_of_get {env : CacheEnv} {k : κ} {v : ν} {s : CacheState κ ν}
    (hv : (s.get env k).1 = some v) :
    ∃ e, (k, v, e) ∈ s.entries (s.get env k).2.client.usesFallback (s.get env k).2.clock := by
  obtain ⟨c, hc, hstore, h⟩ | ⟨hf, h⟩ := s.get_cases env k
  · obtain ⟨hu, -, hget⟩ := c.getFallback_spec (s.arrive env).clock k
    rw [h] at hv ⊢
    simp only [hu, hc, entries, if_true, ← hstore]
    exact hget v hv
  · rw [h] at hv ⊢
    simp only [hf]
    exact TimedStore.live_of_get hv

theorem clock_step (op : CacheOp κ ν × CacheEnv) (s : CacheState κ ν) :
    s.clock ≤ (s.step op).2.clock := by
  have hclock : (s.step op).2.clock = s.clock + op.2.elapsed := by
    obtain ⟨op, env⟩ := op
    cases op with
    | get k => obtain ⟨c, -, -, h⟩ | ⟨-, h⟩ := s.get_cases env k <;> simp only [step, h] <;> rfl
    | set k v ttl =>
      obtain ⟨c, server, -, -, h⟩ | ⟨-, h⟩ := s.set_cases env k v ttl <;> simp only [step, h] <;> rfl
    | delete k =>
      obtain ⟨c, server, -, -, h⟩ | ⟨-, h⟩ := s.delete_cases env k <;> simp only [step, h] <;> rfl
  rw [hclock]
  exact Int.le_add_of_nonneg_right (Int.natCast_nonneg _)

def Current (m : κ → Option ν) (s : CacheState κ ν) : Prop :=
  ∀ x ∈ s.entries s.client.usesFallback s.clock, m x.1 = some x.2.1

/-- If the call makes the client change over to the other store, that store holds no value but
the latest ones, apart from the key that the call writes itself. -/
def Clean (m : κ → Option ν) (op : CacheOp κ ν × CacheEnv) (s : CacheState κ ν) : Prop :=
  (s.step op).2.client.usesFallback ≠ s.client.usesFallback →
    ∀ x ∈ s.entries (s.step op).2.client.usesFallback (s.step op).2.clock,
      op.1.written = some x.1 ∨ m x.1 = some x.2.1

instance [DecidableEq ν] (m : κ → Option ν) (op : CacheOp κ ν × CacheEnv) (s : CacheState κ ν) :
    Decidable (s.Clean m op) := inferInstanceAs (Decidable (_ → ∀ x ∈ _, _))

theorem Current.readable {m : κ → Option ν} {op : CacheOp κ ν × CacheEnv} {s : CacheState κ ν}
    (h : s.Current m) (hc : s.Clean m op) {x : κ × ν × Option Int}
    (hx : x ∈ s.entries (s.step op).2.client.usesFallback (s.step op).2.clock)
    (hw : op.1.written ≠ some x.1) : m x.1 = some x.2.1 := by
  by_cases hsame : (s.step op).2.client.usesFallback = s.client.usesFallback
  · rw [hsame] at hx
    exact h x (entries_later (s.clock_step op) hx)
  · cases hc hsame x hx with
    | inl hw' => exact absurd hw' hw
    | inr hm => exact hm

theorem Current.step {m : κ → Option ν} {op : CacheOp κ ν × CacheEnv} {s : CacheState κ ν}
    (h : s.Current m) (hc : s.Clean m op) : (s.step op).2.Current (op.1.record m) := by
  intro x hx
  cases entries_step hx with
  | inl hset =>
    obtain ⟨ttl, hop⟩ := hset
    rw [hop]
    simp [CacheOp.record]
  | inr hold =>
    rw [CacheOp.record_of_not_written hold.1]
    exact h.readable hc hold.2 hold.1

def AlwaysClean (m : κ → Option ν) : List (CacheOp κ ν × CacheEnv) → CacheState κ ν → Prop
  | [], _ => True
  | op :: ops, s => s.Clean m op ∧ AlwaysClean (op.1.record m) ops (s.step op).2

instance decidableAlwaysClean [DecidableEq ν] : (m : κ → Option ν) →
    (ops : List (CacheOp κ ν × CacheEnv)) → (s : CacheState κ ν) → Decidable (AlwaysClean m ops s)
  | _, [], _ => .isTrue trivial
  | m, op :: ops, s =>
    have : Decidable (AlwaysClean (op.1.record m) ops (s.step op).2) :=
      decidableAlwaysClean _ ops _
    inferInstanceAs (Decidable (_ ∧ _))

end CacheState

def latest (ops : List (CacheOp κ ν × CacheEnv)) (m : κ → Option ν) : κ → Option ν :=
  ops.foldl (fun m op => op.1.record m) m

namespace CacheState

theorem AlwaysClean.current {pre post : List (CacheOp κ ν × CacheEnv)} {m : κ → Option ν}
    {s : CacheState κ ν} (hc : AlwaysClean m (pre ++ post) s) (h : s.Current m) :
    (s.run pre).Current (latest pre m) ∧ AlwaysClean (latest pre m) post (s.run pre) := by
  induction pre generalizing m s with
  | nil => exact ⟨h, hc⟩
  | cons op pre ih => exact ih hc.2 (h.step hc.1)

end CacheState

/-- Where no change of stores meets a stale entry, a client that starts with empty stores returns
nothing but the latest values, and nothing for a deleted key. -/
theorem cache_returns_latest {ops pre post : List (CacheOp κ ν × CacheEnv)} {t : Time}
    {k : κ} {env : CacheEnv}
    (hc : CacheState.AlwaysClean (fun _ => none) ops (.fresh t))
    (hops : ops = pre ++ (.get k, env) :: post) :
    (((CacheState.fresh t).run pre).get env k).1 = none ∨
      (((CacheState.fresh t).run pre).get env k).1 = latest pre (fun _ => none) k := by
  have hfresh : (CacheState.fresh t).Current (fun _ => (none : Option ν)) (κ := κ) := by
    intro x hx
    simp [CacheState.fresh, CacheState.entries, CacheClient.new, CacheClient.usesFallback,
      TimedStore.live] at hx
  rw [hops] at hc
  obtain ⟨hcur, hpost⟩ := hc.current hfresh
  cases hv : (((CacheState.fresh t).run pre).get env k).1 with
  | none => exact .inl rfl
  | some v =>
    right
    obtain ⟨e, he⟩ := CacheState.mem_entries_of_get hv
    exact (hcur.readable hpost.1 he (by simp [CacheOp.written])).symm

def healthy : CacheEnv := { loop := 0, ping := true, reply := .ok, elapsed := 1000000 }

/-- Redis fails on a set, and the fallback store takes over. On a new event loop the client is back
on Redis, where nothing was left. -/
def outage : List (CacheOp String String × CacheEnv) :=
  [(.set "b" "0" (some 60), healthy), (.set "a" "1" (some 60), { healthy with reply := .error }),
    (.get "a", healthy), (.set "a" "2" (some 60), { healthy with loop := 1 })]

theorem cache_returns_latest_outage :
    (((CacheState.fresh 0).run outage).get { healthy with loop := 1 } "a").1 = some "2" ∧
    ((((CacheState.fresh 0).run outage).get { healthy with loop := 1 } "a").1 = none ∨
      (((CacheState.fresh 0).run outage).get { healthy with loop := 1 } "a").1 =
        latest outage (fun _ => none) "a") := by
  have hclean : CacheState.AlwaysClean (fun _ => none)
      (outage ++ (.get "a", { healthy with loop := 1 }) :: []) (.fresh 0) := by
    decide +kernel
  exact ⟨by decide +kernel, cache_returns_latest hclean rfl⟩

/-- The delete fails in Redis and is done in the empty fallback store instead; on a new event loop
the client is back on Redis. -/
theorem deleted_value_returned :
    (((CacheState.fresh 0).run [(.set "a" "1" (some 60), healthy),
      (.delete "a", { healthy with reply := .error })]).get { healthy with loop := 1 } "a").1 =
        some "1" ∧
      latest [(.set "a" "1" (some 60), healthy),
        (.delete "a", { healthy with reply := .error })] (fun _ => none) "a" = none := by
  decide +kernel

end AsyncPulse
