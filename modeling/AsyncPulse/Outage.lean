import AsyncPulse.Finality
import AsyncPulse.Fleet
import AsyncPulse.Replay
set_option autoImplicit false

namespace AsyncPulse
open Effect

variable {γ χ : Type} {cfg : Config} {C : MayCache Key Json γ χ}

/-- The session is revoked, and all that is still cached of it says so or has expired. -/
def Banished (C : MayCache Key Json γ χ) (s : String) (w : World γ) : Prop :=
  ∃ x : SessionModel, w.db.sessions.get s = some x ∧ x.revokedAt ≠ none ∧
    ∀ v, C.holds w.cache (.session s) v → v.showsRevoked = true ∨ x.expiresAt ≤ w.clock

def Tracked (C : MayCache Key Json γ χ) (n : Nat) (key : Key) (w₀ w : World γ) : Prop :=
  ∀ v, C.holds w.cache key v →
    C.holds w₀.cache key v ∧ .cacheDeleted key ∉ w.hist n ∨
      ∃ ttl l₁ l₂, w.hist n = l₁ ++ .cacheSet key v ttl :: l₂ ∧ .cacheDeleted key ∉ l₂

theorem Tracked.moved {n : Nat} {key : Key} {w₀ w w' : World γ} {a : Act}
    (h : Tracked C n key w₀ w) (hmv : Moved C n a w w')
    (ha : a = .cacheDeleted key → ∀ v, ¬ C.holds w'.cache key v) : Tracked C n key w₀ w' := by
  intro v hv
  have hne : a ≠ .cacheDeleted key := fun he => ha he v hv
  rw [hmv.hist, Function.update_self]
  have hsnoc : ∀ l, .cacheDeleted key ∉ l → .cacheDeleted key ∉ l ++ [a] := by
    intro l hl hm
    cases List.mem_append.mp hm with
    | inl hm => exact hl hm
    | inr hm => exact hne (List.mem_singleton.mp hm).symm
  obtain ⟨hv, -⟩ | ⟨ttl, rfl⟩ := hmv.holds key v hv
  · obtain ⟨hold, hdel⟩ | ⟨ttl, l₁, l₂, hl, hdel⟩ := h v hv
    · exact .inl ⟨hold, hsnoc _ hdel⟩
    · exact .inr ⟨ttl, l₁, l₂ ++ [a], by rw [hl]; simp, hsnoc l₂ hdel⟩
  · exact .inr ⟨ttl, w.hist n, [], rfl, by simp⟩

namespace Turn

variable {m : Nat → Option Call} {n : Nat} {k : Call} {r : Except Exc Out} {start : Time}
  {w w' : World γ} (h : Turn cfg C m n k r start w w')
include h

theorem stores_read {s : String} {x : SessionModel} {v : Json} {ttl : Option Int}
    {l₁ l₂ : List Act} (hx : w.db.sessions.get s = some x)
    (hl : w'.hist n = l₁ ++ .cacheSet (.session s) v ttl :: l₂) :
    (∀ key, .cacheDeleted key ∉ l₁) ∧ ∃ y, v = y.projection.toDict ∧ y.id = s ∧
      Saw (w'.hist n) y := by
  have hlaw := h.lawful
  rw [hl] at hlaw
  obtain ⟨y, rfl, hy, ⟨hw, -⟩ | ⟨hwarm, ⟨rows, hr, hyr⟩, -⟩⟩ := hlaw.of_split
  · -- A session that the call inserts is a new one.
    have hw' : .wrote (.insertSession y) ∈ w'.hist n := hl ▸ List.mem_append_left _ hw
    obtain ⟨j, hj⟩ := h.before.provenance.drawn_of_row hx
    exact absurd rfl (h.inserts_new hw' hj)
  · exact ⟨hwarm.undeleted, y, hy, rfl, _, rows, hl ▸ List.mem_append_left _ hr, hyr⟩

theorem stores_revoked {s : String} {x : SessionModel} {v : Json} {ttl : Option Int}
    (hx : w.db.sessions.get s = some x) (hrev : x.revokedAt ≠ none)
    (hm : .cacheSet (.session s) v ttl ∈ w'.hist n) : v.showsRevoked = true := by
  obtain ⟨l₁, l₂, hl⟩ := List.append_of_mem hm
  obtain ⟨-, y, rfl, hid, hsaw⟩ := h.stores_read hx hl
  obtain rfl := h.saw_frozen hx hrev hsaw hid
  simp only [Json.showsRevoked, SessionValidation.fromDict_toDict, SessionValidation.isRevoked]
  exact Option.isSome_iff_ne_none.mpr hrev

theorem stays_banished {s : String} (hb : Banished C s w) : Banished C s w' := by
  obtain ⟨x, hx, hrev, hcached⟩ := hb
  refine ⟨x, h.frozen hx hrev, hrev, fun v hv => ?_⟩
  obtain ⟨hold, -⟩ | ⟨ttl, l₁, l₂, hl, -⟩ := h.alone.played.holds _ v hv
  · cases hcached v hold with
    | inl hshow => exact .inl hshow
    | inr hexp => exact .inr (Int.le_trans hexp h.clock_le)
  · have hm : .cacheSet (.session s) v ttl ∈ w'.hist n := by
      rw [hl]
      simp
    exact .inl (h.stores_revoked hx hrev hm)

theorem turns_away {s : String} (hb : Banished C s w) (hlate : w.clock < start) {token : Token}
    (hk : k = .getCurrentUser token) {c : Claims} (hv : cfg.jose.verify token = some c)
    (hs : c.sid = some s) : ∃ msg, r = .error (.invalidToken msg) := by
  subst hk
  obtain ⟨x, hx, hrev, hcached⟩ := hb
  obtain ⟨l, hl, -, -, r₀, rfl, hdone⟩ := h.finished
  have hstale : ∀ a ∈ l, a.Stale s start := by
    intro a ha
    have ha' : a ∈ w'.hist n := hl ▸ List.mem_append_left _ ha
    cases a with
    | clock t => exact (h.alone.played.clock t ha').1
    | readSessions q rows =>
      rintro rfl y hy
      left
      obtain ⟨l₁, l₂, hh, -⟩ := h.lawful.of_mem ha'
      obtain ⟨rank, rfl⟩ := h.alone.played.read l₁ l₂ _ _ hh
      have hid : y.id = s := Keyed.key_of_get (SessionQuery.mem_byId.mp hy)
      rwa [h.saw_frozen hx hrev ⟨_, _, ha', hy⟩ hid]
    | cacheGot key v =>
      rintro rfl p rfl
      obtain ⟨l₁, l₂, hh⟩ := List.append_of_mem ha'
      obtain hold | ⟨ttl, hset⟩ := h.alone.played.got l₁ l₂ _ _ hh
      · cases hcached _ hold with
        | inl hshow => exact .inl (Json.revoked_of_shows hshow rfl)
        | inr hexp =>
          right
          rw [h.before.provenance.holds_expiresAt hx hold]
          exact Int.lt_of_le_of_lt hexp hlate
      · have hm : .cacheSet (.session s) p.toDict ttl ∈ w'.hist n :=
          hh ▸ List.mem_append_left _ hset
        exact .inl (Json.revoked_of_shows (h.stores_revoked hx hrev hm) rfl)
    | _ => exact trivial
  obtain ⟨msg, rfl⟩ := hdone.rejects hv hs start hstale
  exact ⟨msg, rfl⟩

/-- A call that revokes a session banishes it, if its deletes are effective. -/
theorem banishes {s : String} {x y : SessionModel} (ht : Tracked C n (.session s) w w')
    (hx : w.db.sessions.get s = some x) (hlive : x.revokedAt = none)
    (hy : w'.db.sessions.get s = some y) (hrev : y.revokedAt ≠ none) : Banished C s w' := by
  obtain ⟨t, hyt⟩ := Option.ne_none_iff_exists'.mp hrev
  obtain ⟨a, b, hw, hc, rfl, -⟩ := h.revoked hx hlive hy hyt
  obtain ⟨y', hy', hcore, -⟩ := h.grows.sessions _ x hx
  rw [hy] at hy'
  cases hy'
  -- Without a delete the session has expired.
  have hexp : .cacheDeleted (.session a.id) ∉ w'.hist n → y.expiresAt ≤ w'.clock := by
    intro hdel
    rw [SessionModel.core_expiresAt hcore]
    exact (h.purged hw hc hx).resolve_left hdel
  refine ⟨y, hy, hrev, fun v hv => .inr (hexp ?_)⟩
  obtain ⟨-, hdel⟩ | ⟨ttl, l₁, l₂, hl, hdel⟩ := ht v hv
  · exact hdel
  · obtain ⟨hbefore, -⟩ := h.stores_read hx hl
    rw [hl]
    simp [hbefore, hdel]

end Turn

/-- No call of the gate in a run on from `w` accepts an access token of the session `s`. -/
def TurnedAway (cfg : Config) (C : MayCache Key Json γ χ) (n : Nat) (w : World γ) (s : String) :
    Prop :=
  ∀ log m w₁ token r w₂ c, (app cfg C).Seq Later n w log m w₁ →
    (app cfg C).Completed Later m (.getCurrentUser token) r w₁ w₂ →
      cfg.jose.verify token = some c → c.sid = some s → ∃ msg, r = .error (.invalidToken msg)

/-- If the effect deletes the entry of session `s`, the command reaches every store that has one. -/
def Purging {N : Nat} (proc : Nat → Fin N) (n : Nat) (s : String) (c : Choice CacheEnv)
    (w : World (Fleet N Key Json)) : (β : Type) → Eff β → Prop
  | _, .cacheDelete key => key = .session s → w.cache.Purges (proc n) w.clock c.cache key
  | _, _ => True

instance {N : Nat} (proc : Nat → Fin N) (n : Nat) (s : String) (c : Choice CacheEnv)
    (w : World (Fleet N Key Json)) (β : Type) (e : Eff β) : Decidable (Purging proc n s c w β e) :=
  match e with
  | .cacheDelete key => inferInstanceAs (Decidable (key = .session s →
      w.cache.Purges (proc n) w.clock c.cache key))
  | .now | .uuid4 | .encode _ | .hashpw _ | .selectSessions _ | .selectUsers _ | .countUsers
  | .write _ | .commit | .close | .cacheGet _ | .cacheSet _ _ _ => .isTrue trivial

theorem Tracked.step {N : Nat} {proc : Nat → Fin N} {n : Nat} {s : String}
    {w₀ w w' : World (Fleet N Key Json)} {c : Choice CacheEnv} {β : Type} {e : Eff β}
    {r : Except Exc β} (h : Tracked (Fleet.cache proc) n (.session s) w₀ w)
    (hp : Purging proc n s c w β e)
    (hs : (semantics cfg (Fleet.cache proc)).step n c w e = some (r, w')) :
    Tracked (Fleet.cache proc) n (.session s) w₀ w' := by
  refine h.moved (semantics_step hs).1 fun ha => ?_
  obtain ⟨⟨r₁, w₁⟩, hh, he⟩ := Option.map_eq_some_iff.mp hs
  simp only [Prod.mk.injEq] at he
  obtain ⟨rfl, rfl⟩ := he
  cases e with
  | cacheDelete key =>
    simp only [handle, Option.some.injEq, Prod.mk.injEq] at hh
    obtain ⟨rfl, rfl⟩ := hh
    obtain rfl : key = .session s := by simpa [Eff.act] using ha
    exact (hp rfl).gone
  | _ => cases r₁ <;> cases ha

/-- Whatever Redis does, a call that revokes a session shuts it out in every process, if its
deletes of the session's entry leave none behind. -/
theorem revocation_survives_outage {N : Nat} {proc : Nat → Fin N}
    {log : List (Call × Except Exc Out)} {k : Call} {r : Except Exc Out}
    {gap : World (Fleet N Key Json) → World (Fleet N Key Json) → Prop}
    {w w' : World (Fleet N Key Json)} {s : String} {x y : SessionModel}
    (hrun : Sequential cfg (Fleet.cache proc) gap log w)
    (hcall : (app cfg (Fleet.cache proc)).CompletedUnder (Purging proc log.length s) gap
      log.length k r w w')
    (hx : w.db.sessions.get s = some x) (hlive : x.revokedAt = none)
    (hy : w'.db.sessions.get s = some y) (hrev : y.revokedAt ≠ none) :
    TurnedAway cfg (Fleet.cache proc) (log.length + 1) w' s := by
  have hb := hrun.between
  obtain ⟨start, -, ht⟩ := hb.completed hcall.completed
  have htrack : Tracked (Fleet.cache proc) log.length (.session s) w w' := by
    obtain ⟨c, w₁, cs, htick, -, -, hall, hr⟩ := hcall
    obtain ⟨-, rfl⟩ := app_tick htick
    have hnil : w.hist log.length = [] :=
      hb.provenance.idle _ (hb.unmade _ (Nat.le_refl _))
    have hstart : Tracked (Fleet.cache proc) log.length (.session s) w (w.setClock c.time) :=
      fun v hv => .inl ⟨hv, by simp [hnil]⟩
    exact hall.invariant (fun e c s r s' hj hp hs => hj.step hp hs) hstart hr
  have hbanished := ht.banishes htrack hx hlive hy hrev
  intro log' m w₁ token r' w₂ c hlater hgate hv hs
  obtain ⟨m', hb₁, hbanished₁⟩ := ht.after.seq
    (fun _ _ _ _ _ _ _ _ ht' hi => ht'.stays_banished hi) hbanished hlater
  obtain ⟨start₁, hlate, ht₁⟩ := hb₁.completed hgate
  exact ht₁.turns_away hbanished₁ hlate rfl hv hs

/-- The first calls run in one process, call 2 in another one. -/
def twoProcesses (i : Nat) : Fin 2 := if i = 2 then 1 else 0

abbrev fleetApp : Service Eff Exc (World (Fleet 2 Key Json)) (Choice CacheEnv) Call Out :=
  app sampleConfig (Fleet.cache twoProcesses)

def fleetWorld : World (Fleet 2 Key Json) where
  db := sampleWorld.db
  pending := sampleWorld.pending
  locks := sampleWorld.locks
  cache := .fresh 0
  clock := 0
  drawn := sampleWorld.drawn
  minted := []
  hist := sampleWorld.hist

theorem fleetWorld_init : Init (Fleet.cache twoProcesses) fleetWorld where
  noSession := sampleWorld_init.noSession
  userIds := sampleWorld_init.userIds
  pending := sampleWorld_init.pending
  locks := sampleWorld_init.locks
  cache k v hv := by
    obtain ⟨p, b, e, hx⟩ := hv
    cases b <;> cases hx
  drawn := sampleWorld_init.drawn
  minted := rfl
  hist := sampleWorld_init.hist

def instant (t : Int) (u : String) (reply : RedisReply) : Choice CacheEnv :=
  { time := seconds t, uuid := u, salt := "", rank := fun _ => 0, abort := false,
    cache := { loop := 0, ping := true, reply := reply, elapsed := 0 } }

def dispatch (t : Int) (u : String) (reply : RedisReply) (k : Call) :
    Choice CacheEnv × Call × List (Choice CacheEnv) :=
  (instant t u reply, k, List.replicate 20 (instant t u reply))

def fleetSignIn : List (Choice CacheEnv × Call × List (Choice CacheEnv)) :=
  [dispatch 1 "s1" .ok (.authenticate "alice@example.org" "secret" none none)]

/-- Alice signs in while Redis fails, so that the entry of `s1` is in the process's own store. -/
def outageSignIn : List (Choice CacheEnv × Call × List (Choice CacheEnv)) :=
  [dispatch 1 "s1" .error (.authenticate "alice@example.org" "secret" none none)]

/-- She signs out, and Redis fails on the deletes too. -/
theorem revocation_survives_outage_alice : ∃ (log : List (Call × Except Exc Out))
    (w w' : World (Fleet 2 Key Json)) (x y : SessionModel),
    fleetApp.replay Later outageSignIn 0 fleetWorld = some (log, w) ∧
    .session "s1" ∈ (w.cache.clients 0).fallbackStore.map Prod.fst ∧
    w.db.sessions.get "s1" = some x ∧ x.revokedAt = none ∧
    w'.db.sessions.get "s1" = some y ∧ y.revokedAt ≠ none ∧
    TurnedAway sampleConfig (Fleet.cache twoProcesses) (log.length + 1) w' "s1" := by
  have hcheck : (fleetApp.replay Later outageSignIn 0 fleetWorld).any (fun z =>
      z.1.length = 1 && z.2.clock < seconds 2 &&
      .session "s1" ∈ (z.2.cache.clients 0).fallbackStore.map Prod.fst &&
      (z.2.db.sessions.get "s1").any (fun x => x.revokedAt = none) &&
      fleetApp.Throughout 1 (Purging twoProcesses 1 "s1") (List.replicate 20 (instant 2 "" .error))
        (fleetApp.prog (.logout "s1")) (z.2.setClock (seconds 2)) &&
      (fleetApp.run 1 (List.replicate 20 (instant 2 "" .error)) (fleetApp.prog (.logout "s1"))
        (z.2.setClock (seconds 2))).any fun z' =>
          (z'.2.db.sessions.get "s1").any fun y => y.revokedAt ≠ none) = true := by
    decide +kernel
  obtain ⟨⟨log, w⟩, h₀, hcheck⟩ := (Option.any_eq_true _ _).mp hcheck
  simp only [Bool.and_eq_true, decide_eq_true_eq] at hcheck
  obtain ⟨⟨⟨⟨⟨hlen, hlater⟩, hstored⟩, hbefore⟩, hall⟩, hrun⟩ := hcheck
  obtain ⟨x, hx, hlive⟩ := (Option.any_eq_true _ _).mp hbefore
  obtain ⟨⟨r, w'⟩, hr, hafter⟩ := (Option.any_eq_true _ _).mp hrun
  obtain ⟨y, hy, hrev⟩ := (Option.any_eq_true _ _).mp hafter
  have hcall : fleetApp.CompletedUnder (Purging twoProcesses log.length "s1") Later log.length
      (.logout "s1") r w w' := by
    rw [hlen]
    exact ⟨instant 2 "" .error, w.setClock (seconds 2), _, if_pos (Int.le_of_lt hlater), hlater,
      rfl, hall, hr⟩
  exact ⟨log, w, w', x, y, h₀, hstored, hx, of_decide_eq_true hlive, hy, of_decide_eq_true hrev,
    revocation_survives_outage (sequential_of_replay fleetWorld_init h₀).1 hcall hx
      (of_decide_eq_true hlive) hy (of_decide_eq_true hrev)⟩

/-- Alice signs in while Redis works, and signs out when it fails: the delete falls to an empty
fallback store. The entry is still there in Redis, for the other process. -/
theorem accepted_after_outage : ∃ (log : List (Call × Except Exc Out))
    (w : World (Fleet 2 Key Json)),
    fleetApp.replay Later (fleetSignIn ++ [dispatch 2 "" .error (.logout "s1")]) 0 fleetWorld =
      some (log, w) ∧
    (w.db.sessions.get "s1").map (·.revokedAt) = some (some (seconds 2)) ∧
    ¬ TurnedAway sampleConfig (Fleet.cache twoProcesses) log.length w "s1" := by
  have hgate : (fleetApp.replay Later (fleetSignIn ++ [dispatch 2 "" .error (.logout "s1")] ++
      [dispatch 3 "" .ok (.getCurrentUser (accessToken "s1" 901))]) 0 fleetWorld).any
        (fun y => y.1.getLast?.any fun z => z.2.isOk) = true := by
    decide +kernel
  obtain ⟨log, w, r, w', h₀, -, hcall, hok⟩ := replayed fleetWorld_init _ _ _ _
    (fun r _ => r.isOk) hgate
  have hrow : (fleetApp.replay Later (fleetSignIn ++ [dispatch 2 "" .error (.logout "s1")]) 0
      fleetWorld).map (fun y => (y.2.db.sessions.get "s1").map (·.revokedAt)) =
        some (some (some (seconds 2))) := by
    decide +kernel
  rw [h₀] at hrow
  refine ⟨log, w, h₀, Option.some.inj hrow, fun haway => ?_⟩
  obtain ⟨msg, rfl⟩ := haway [] _ w _ r w' aliceClaims (.nil _ _)
    (hcall.mono fun _ _ hg => hg.1) rfl rfl
  cases hok

end AsyncPulse
