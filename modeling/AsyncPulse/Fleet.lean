import AsyncPulse.CacheClient
set_option autoImplicit false

namespace AsyncPulse

variable {κ ν : Type} {N : Nat}

/-- Processes that share one Redis server, each with a client of its own. A process that is
restarted goes on under another number. The clock shows when the last command was given. -/
structure Fleet (N : Nat) (κ ν : Type) where
  clients : Fin N → CacheClient κ ν
  server : TimedStore κ ν
  clock : Time

namespace Fleet

def fresh (t : Time) : Fleet N κ ν := { clients := fun _ => .new, server := [], clock := t }

def seat (p : Fin N) (t : Time) (g : Fleet N κ ν) : CacheState κ ν :=
  { client := g.clients p, server := g.server, clock := max g.clock t }

def put (p : Fin N) (s : CacheState κ ν) (g : Fleet N κ ν) : Fleet N κ ν :=
  { clients := Function.update g.clients p s.client, server := s.server, clock := s.clock }

def Holds (g : Fleet N κ ν) (k : κ) (v : ν) : Prop :=
  ∃ p b e, (k, v, e) ∈ (g.seat p g.clock).entries b g.clock

end Fleet

variable [DecidableEq κ]

namespace CacheState

def served (env : CacheEnv) (s : CacheState κ ν) : Bool :=
  !(s.arrive env).client.usesFallback && env.reply ≠ .error

def fellBack (env : CacheEnv) (s : CacheState κ ν) : Bool :=
  (s.arrive env).client.usesFallback || env.reply ≠ .ok

omit [DecidableEq κ] in
@[simp] theorem arrive_fallbackStore (env : CacheEnv) (s : CacheState κ ν) :
    (s.arrive env).client.fallbackStore = s.client.fallbackStore := by
  simp [arrive]

omit [DecidableEq κ] in
@[simp] theorem arrive_server (env : CacheEnv) (s : CacheState κ ν) :
    (s.arrive env).server = s.server := rfl

theorem delete_server (env : CacheEnv) (k : κ) (s : CacheState κ ν) :
    (s.delete env k).server = if s.served env = true then s.server.delete k else s.server := by
  unfold served
  cases hf : (s.arrive env).client.usesFallback with
  | true => simp [delete, hf]
  | false => cases hr : env.reply <;> simp [delete, hf, hr]

theorem delete_fallbackStore (env : CacheEnv) (k : κ) (s : CacheState κ ν) :
    (s.delete env k).client.fallbackStore =
      if s.fellBack env = true then s.client.fallbackStore.delete k
      else s.client.fallbackStore := by
  unfold fellBack
  cases hf : (s.arrive env).client.usesFallback with
  | true => simp [delete, hf, CacheClient.deleteFallback]
  | false =>
    cases hr : env.reply <;>
      simp [delete, hf, hr, CacheClient.deleteFallback, CacheClient.fallBack]

theorem set_server (env : CacheEnv) (k : κ) (v : ν) (ttl : Option Int) (s : CacheState κ ν) :
    (s.set env k v ttl).server = s.server ∨
      ∃ e, (s.set env k v ttl).server = s.server.set k v e := by
  cases hf : (s.arrive env).client.usesFallback with
  | true => exact .inl (by simp [set, hf])
  | false =>
    by_cases ha : accepted ttl = true ∧ env.reply ≠ .error
    · refine .inr ⟨ttl.map fun n => (s.arrive env).clock + seconds n, ?_⟩
      simp only [set, hf, Bool.false_eq_true, if_false, if_pos ha, arrive_server]
      split <;> rfl
    · refine .inl ?_
      simp only [set, hf, Bool.false_eq_true, if_false, if_neg ha, arrive_server]
      split <;> rfl

theorem set_fallbackStore (env : CacheEnv) (k : κ) (v : ν) (ttl : Option Int)
    (s : CacheState κ ν) :
    (s.set env k v ttl).client.fallbackStore = s.client.fallbackStore ∨
      ∃ e, (s.set env k v ttl).client.fallbackStore = s.client.fallbackStore.set k v e := by
  have hset : ∀ c : CacheClient κ ν, c.fallbackStore = s.client.fallbackStore →
      ∃ e, (c.setFallback (s.arrive env).clock k v ttl).fallbackStore =
        s.client.fallbackStore.set k v e := by
    intro c hc
    rw [CacheClient.setFallback, hc]
    exact ⟨_, rfl⟩
  cases hf : (s.arrive env).client.usesFallback with
  | true =>
    right
    simp only [set, hf, if_true]
    exact hset _ (s.arrive_fallbackStore env)
  | false =>
    by_cases ha : accepted ttl = true ∧ env.reply = .ok
    · exact .inl (by simp [set, hf, ha])
    · right
      simp only [set, hf, Bool.false_eq_true, if_false, if_neg ha]
      exact hset _ (s.arrive_fallbackStore env)

theorem get_stores (env : CacheEnv) (k : κ) (s : CacheState κ ν) :
    (s.get env k).2.server = s.server ∧
    ∀ x ∈ TimedStore.live (fun e => e < (s.get env k).2.clock) (s.get env k).2.client.fallbackStore,
      x ∈ TimedStore.live (fun e => e < (s.get env k).2.clock) s.client.fallbackStore := by
  obtain ⟨c, -, hstore, h⟩ | ⟨-, h⟩ := s.get_cases env k
  · rw [h, ← hstore]
    exact ⟨rfl, (c.getFallback_spec (s.arrive env).clock k).2.1⟩
  · rw [h]
    exact ⟨rfl, fun x hx => by simpa using hx⟩

theorem stored_step {op : CacheOp κ ν × CacheEnv} {s : CacheState κ ν} {x : κ × ν × Option Int}
    {b : Bool} (hx : x ∈ (s.step op).2.entries b (s.step op).2.clock) :
    (∃ ttl, op.1 = .set x.1 x.2.1 ttl) ∨ x ∈ s.entries b (s.step op).2.clock := by
  obtain ⟨op, env⟩ := op
  cases op with
  | get k =>
    refine .inr ?_
    cases b with
    | true => exact (s.get_stores env k).2 x hx
    | false =>
      simp only [step, entries, Bool.false_eq_true, if_false, (s.get_stores env k).1] at hx ⊢
      exact hx
  | set k v ttl =>
    have hset : ∀ {gone : Int → Bool} {g g' : TimedStore κ ν},
        g' = g ∨ (∃ e, g' = g.set k v e) → x ∈ TimedStore.live gone g' →
        (∃ ttl', CacheOp.set k v ttl = .set x.1 x.2.1 ttl') ∨ x ∈ TimedStore.live gone g := by
      intro gone g g' hg hx
      obtain rfl | ⟨e, rfl⟩ := hg
      · exact .inr hx
      · obtain ⟨h₁, h₂⟩ | ⟨hx, -⟩ := TimedStore.mem_live_set hx
        · exact .inl ⟨ttl, by rw [h₁, h₂]⟩
        · exact .inr hx
    cases b with
    | true => exact hset (s.set_fallbackStore env k v ttl) hx
    | false => exact hset (s.set_server env k v ttl) hx
  | delete k =>
    refine .inr ?_
    cases b with
    | true =>
      simp only [step, entries, if_true, delete_fallbackStore] at hx ⊢
      split at hx
      · exact (TimedStore.mem_live_delete hx).1
      · exact hx
    | false =>
      simp only [step, entries, Bool.false_eq_true, if_false, delete_server] at hx ⊢
      split at hx
      · exact (TimedStore.mem_live_delete hx).1
      · exact hx

theorem delete_clock (env : CacheEnv) (k : κ) (s : CacheState κ ν) :
    (s.delete env k).clock = (s.arrive env).clock := by
  obtain ⟨c, server, -, -, h⟩ | ⟨-, h⟩ := s.delete_cases env k
  · rw [h]
  · rw [h]

end CacheState

namespace Fleet

def step (p : Fin N) (t : Time) (op : CacheOp κ ν × CacheEnv) (g : Fleet N κ ν) :
    Option ν × Fleet N κ ν :=
  (((g.seat p t).step op).1, g.put p ((g.seat p t).step op).2)

omit [DecidableEq κ] in
theorem entries_put {p q : Fin N} {s : CacheState κ ν} {g : Fleet N κ ν} {b : Bool} {t t' : Time}
    {x : κ × ν × Option Int} (hx : x ∈ ((g.put p s).seat q t).entries b t') :
    x ∈ s.entries b t' ∨ b = true ∧ q ≠ p ∧ x ∈ (g.seat q t).entries true t' := by
  cases b with
  | false => exact .inl hx
  | true =>
    by_cases hq : q = p
    · subst hq
      simp only [seat, put, Function.update_self] at hx
      exact .inl hx
    · simp only [seat, put, Function.update_of_ne hq] at hx
      exact .inr ⟨rfl, hq, hx⟩

theorem clock_le_step (p : Fin N) (t : Time) (op : CacheOp κ ν × CacheEnv) (g : Fleet N κ ν) :
    g.clock ≤ ((g.seat p t).step op).2.clock :=
  Int.le_trans (Int.le_max_left _ _) ((g.seat p t).clock_step op)

/-- What is held after a command was held before, or the command has just set it. -/
theorem holds_step {p : Fin N} {t : Time} {op : CacheOp κ ν × CacheEnv} {g : Fleet N κ ν} {k : κ}
    {v : ν} (h : (g.step p t op).2.Holds k v) : g.Holds k v ∨ ∃ ttl, op.1 = .set k v ttl := by
  obtain ⟨q, b, e, hx⟩ := h
  obtain hx | ⟨-, -, hx⟩ := entries_put hx
  · obtain hset | hx := CacheState.stored_step hx
    · exact .inr hset
    · exact .inl ⟨p, b, e, CacheState.entries_later (g.clock_le_step p t op) hx⟩
  · exact .inl ⟨q, true, e, CacheState.entries_later (g.clock_le_step p t op) hx⟩

theorem holds_of_get {p : Fin N} {t : Time} {env : CacheEnv} {k : κ} {g : Fleet N κ ν} {v : ν}
    (h : (g.step p t (.get k, env)).1 = some v) : g.Holds k v := by
  obtain ⟨e, he⟩ := CacheState.mem_entries_of_get h
  exact ⟨p, _, e, CacheState.entries_later (g.clock_le_step p t (.get k, env)) he⟩

def cache (proc : Nat → Fin N) : MayCache κ ν (Fleet N κ ν) CacheEnv where
  get i env t k g := g.step (proc i) t (.get k, env)
  set i env t k v ttl g := (g.step (proc i) t (.set k v (ttl.map wholeSeconds), env)).2
  delete i env t k g := (g.step (proc i) t (.delete k, env)).2
  holds := Holds
  get_holds _ _ _ _ _ _ h := holds_of_get h
  holds_get _ _ _ _ _ _ _ h := by
    obtain h | ⟨ttl, h⟩ := holds_step h
    · exact h
    · cases h
  holds_set _ _ _ _ _ _ _ _ _ h := by
    obtain h | ⟨ttl, h⟩ := holds_step h
    · exact .inl h
    · cases h
      exact .inr ⟨rfl, rfl⟩
  holds_delete _ _ _ _ _ _ _ h := by
    obtain h | ⟨ttl, h⟩ := holds_step h
    · exact h
    · cases h

/-- When process `p` gives the command to delete `k`, no store but those that the command reaches
has an entry of `k` whose time is not over. -/
structure Purges (p : Fin N) (t : Time) (env : CacheEnv) (k : κ) (g : Fleet N κ ν) : Prop where
  redis : (g.seat p t).served env = true ∨
    ∀ x ∈ (g.seat p t).entries false ((g.seat p t).arrive env).clock, x.1 ≠ k
  own : (g.seat p t).fellBack env = true ∨
    ∀ x ∈ (g.seat p t).entries true ((g.seat p t).arrive env).clock, x.1 ≠ k
  others : ∀ q, q ≠ p → ∀ x ∈ (g.seat q t).entries true ((g.seat p t).arrive env).clock, x.1 ≠ k

instance (p : Fin N) (t : Time) (env : CacheEnv) (k : κ) (g : Fleet N κ ν) :
    Decidable (g.Purges p t env k) :=
  decidable_of_iff (_ ∧ _ ∧ _) ⟨fun h => ⟨h.1, h.2.1, h.2.2⟩, fun h => ⟨h.1, h.2, h.3⟩⟩

theorem Purges.gone {p : Fin N} {t : Time} {env : CacheEnv} {k : κ} {g : Fleet N κ ν}
    (h : g.Purges p t env k) (v : ν) : ¬ (g.step p t (.delete k, env)).2.Holds k v := by
  intro hv
  obtain ⟨q, b, e, hx⟩ := hv
  have hclock : (g.step p t (.delete k, env)).2.clock = ((g.seat p t).arrive env).clock :=
    (g.seat p t).delete_clock env k
  rw [hclock] at hx
  obtain hx | ⟨-, hq, hx⟩ := entries_put hx
  · cases b with
    | false =>
      simp only [CacheState.entries, Bool.false_eq_true, if_false, CacheState.step,
        CacheState.delete_server] at hx
      cases hs : (g.seat p t).served env with
      | true =>
        rw [if_pos hs] at hx
        exact (TimedStore.mem_live_delete hx).2 rfl
      | false =>
        rw [if_neg (by simp [hs])] at hx
        exact h.redis.resolve_left (by simp [hs]) _ hx rfl
    | true =>
      simp only [CacheState.entries, if_true, CacheState.step,
        CacheState.delete_fallbackStore] at hx
      cases hf : (g.seat p t).fellBack env with
      | true =>
        rw [if_pos hf] at hx
        exact (TimedStore.mem_live_delete hx).2 rfl
      | false =>
        rw [if_neg (by simp [hf])] at hx
        exact h.own.resolve_left (by simp [hf]) _ hx rfl
  · exact h.others q hq _ hx rfl

end Fleet
end AsyncPulse
