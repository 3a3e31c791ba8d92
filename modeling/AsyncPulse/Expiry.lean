import AsyncPulse.Audit
import AsyncPulse.CacheClient
import AsyncPulse.EffectFaults
import AsyncPulse.Lineage
set_option autoImplicit false

namespace AsyncPulse
open Effect

namespace CacheClient

variable {κ ν : Type} [DecidableEq κ]

theorem mem_of_getFallback {t : Time} {k : κ} {c : CacheClient κ ν} {x : κ × ν × Option Int}
    (hx : x ∈ (c.getFallback t k).2.fallbackStore) : x ∈ c.fallbackStore := by
  unfold getFallback at hx
  split at hx
  · exact hx
  · exact hx
  · split at hx
    · exact (List.mem_filter.mp hx).1
    · exact hx

theorem getFallback_expired {t e : Time} {k : κ} {c : CacheClient κ ν}
    (hc : ∀ x ∈ c.fallbackStore, x.1 = k → x.2.2 = some e) (ht : e < t) :
    (c.getFallback t k).1 = none := by
  unfold getFallback
  cases hl : c.fallbackStore.lookup k with
  | none => rfl
  | some y =>
    obtain ⟨v, expiry⟩ := y
    obtain ⟨l₁, l₂, hstore, -⟩ := List.lookup_eq_some_iff.mp hl
    obtain rfl : expiry = some e := hc (k, v, expiry) (by simp [hstore]) rfl
    simp only [if_pos ht]

end CacheClient

namespace CacheState

variable {κ ν : Type} [DecidableEq κ]

/-- The fallback store holds nothing under `k` but what is over after `e`. -/
def Due (k : κ) (e : Time) (s : CacheState κ ν) : Prop :=
  ∀ x ∈ s.client.fallbackStore, x.1 = k → x.2.2 = some e

theorem Due.step {k : κ} {e : Time} {s : CacheState κ ν} (h : s.Due k e)
    {op : CacheOp κ ν × CacheEnv} (hop : ∀ v ttl, op.1 ≠ .set k v ttl) :
    (s.step op).2.Due k e := by
  obtain ⟨op, env⟩ := op
  cases op with
  | get k' =>
    obtain ⟨c, -, hstore, hs⟩ | ⟨-, hs⟩ := s.get_cases env k'
    · simp only [CacheState.step, hs]
      intro x hx
      exact h x (hstore ▸ CacheClient.mem_of_getFallback hx)
    · simp only [CacheState.step, hs]
      intro x hx
      exact h x (by simpa [arrive] using hx)
  | set k' v ttl =>
    obtain ⟨c, server, -, hstore, hs⟩ | ⟨-, hs⟩ := s.set_cases env k' v ttl
    · simp only [CacheState.step, hs]
      intro x hx hk
      cases List.mem_cons.mp hx with
      | inl he =>
        rw [he] at hk
        exact absurd (show CacheOp.set k' v ttl = .set k v ttl by rw [← hk]) (hop v ttl)
      | inr hx => exact h x (hstore ▸ (List.mem_filter.mp hx).1) hk
    · simp only [CacheState.step, hs]
      intro x hx
      exact h x (by simpa [arrive] using hx)
  | delete k' =>
    obtain ⟨c, server, -, hstore, hs⟩ | ⟨-, hs⟩ := s.delete_cases env k'
    · simp only [CacheState.step, hs]
      intro x hx
      exact h x (hstore ▸ (List.mem_filter.mp hx).1)
    · simp only [CacheState.step, hs]
      intro x hx
      exact h x (by simpa [arrive] using hx)

theorem Due.run {k : κ} {e : Time} {ops : List (CacheOp κ ν × CacheEnv)} {s : CacheState κ ν}
    (h : s.Due k e) (hops : ∀ op ∈ ops, ∀ v ttl, op.1 ≠ .set k v ttl) : (s.run ops).Due k e := by
  induction ops generalizing s with
  | nil => exact h
  | cons op ops ih =>
    exact ih (h.step (hops op List.mem_cons_self)) fun op' hop' =>
      hops op' (List.mem_cons_of_mem _ hop')

theorem Due.get {k : κ} {e : Time} {s : CacheState κ ν} (h : s.Due k e) {env : CacheEnv}
    (hf : (s.get env k).2.client.usesFallback = true) (ht : e < (s.get env k).2.clock) :
    (s.get env k).1 = none := by
  obtain ⟨c, -, hstore, hs⟩ | ⟨hr, hs⟩ := s.get_cases env k
  · rw [hs] at ht ⊢
    exact CacheClient.getFallback_expired (fun x hx => h x (hstore ▸ hx)) ht
  · rw [hs, hr] at hf
    cases hf

theorem due_set {k : κ} {v : ν} {n : Int} (hn : 0 < n) {env : CacheEnv} {s : CacheState κ ν}
    (hf : (s.set env k v (some n)).client.usesFallback = true) :
    (s.set env k v (some n)).Due k ((s.set env k v (some n)).clock + seconds n) := by
  obtain ⟨c, server, -, -, hs⟩ | ⟨hr, hs⟩ := s.set_cases env k v (some n)
  · rw [hs]
    intro x hx hk
    cases List.mem_cons.mp hx with
    | inl he =>
      rw [he]
      exact if_neg (by omega)
    | inr hx => exact absurd hk (by simpa using (List.mem_filter.mp hx).2)
  · rw [hs] at hf
    rw [hr] at hf
    cases hf

end CacheState

/-- Both stores keep to the time to live: Redis carries the command out, and the fallback store
does not return the value once the time is over. -/
structure Honoured (ttl : Option Int) : Prop where
  redis : ∀ (s : CacheState Key Json) (env : CacheEnv) (key : Key) (v : Json),
    (s.arrive env).client.usesFallback = false → env.reply = .ok →
      (s.set env key v ttl).client.usesFallback = false
  fallback : ∀ (s : CacheState Key Json) (env env' : CacheEnv) (key : Key) (v : Json) (n : Int)
      (ops : List (CacheOp Key Json × CacheEnv)), ttl = some n →
    (s.set env key v ttl).client.usesFallback = true →
    (∀ op ∈ ops, ∀ v' ttl', op.1 ≠ .set key v' ttl') →
    (((s.set env key v ttl).run ops).get env' key).2.client.usesFallback = true →
    (s.set env key v ttl).clock + seconds n <
      (((s.set env key v ttl).run ops).get env' key).2.clock →
    (((s.set env key v ttl).run ops).get env' key).1 = none

theorem honoured_iff {n : Int} : Honoured (some n) ↔ 0 < n := by
  constructor
  · intro h
    have hr := h.redis (.fresh 0) healthy (.user "") (.leaf .null) rfl rfl
    by_cases hn : 0 < n
    · exact hn
    · simp [CacheState.set, CacheState.arrive, CacheState.accepted, CacheState.fresh, healthy,
        CacheClient.initRedis, CacheClient.new, CacheClient.usesFallback, CacheClient.setFallback,
        CacheClient.fallBack, hn] at hr
  · intro hn
    constructor
    · intro s env key v hf hok
      simp [CacheState.set, CacheState.accepted, hf, hok, hn]
    · intro s env env' key v m ops hm hf hops hf' ht
      cases hm
      exact ((CacheState.due_set hn hf).run hops).get hf' ht

def Eff.dates : {β : Type} → Eff β → Bool
  | _, .uuid4 | _, .cacheSet _ _ _ => true
  | _, _ => false

def Act.dates : Act → Bool
  | .drew _ | .cacheSet _ _ _ => true
  | _ => false

theorem Eff.dates_act (β : Type) (e : Eff β) (r : Except Exc β) (he : e.dates = false) :
    ¬ (e.act r).dates = true := by
  cases e <;> cases r <;> first | exact Bool.false_ne_true | cases he

abbrev Undated {α : Type} (p : M α) : Prop := Quiet (fun _ e => e.dates) p

def Bare (l : List Act) : Prop := ∀ a ∈ l, ¬ a.dates = true

theorem Bare.not_set {l : List Act} (hl : Bare l) {key : Key} {v : Json} {ttl : Option Int} :
    .cacheSet key v ttl ∉ l := fun h => hl _ h rfl

@[simp] theorem bare_nil : Bare [] := fun _ ha => by cases ha

@[simp] theorem bare_cons {a : Act} {l : List Act} :
    Bare (a :: l) ↔ a.dates = false ∧ Bare l := by simp [Bare]

@[simp] theorem bare_append {l l' : List Act} : Bare (l ++ l') ↔ Bare l ∧ Bare l' := by
  simp [Bare, or_imp, forall_and]

def measuredAt : List Act → Option Time
  | .clock t :: .drew _ :: _ => some t
  | _ :: h => measuredAt h
  | [] => none

theorem measuredAt_bare {l : List Act} (hl : Bare l) : measuredAt l = none := by
  fun_induction measuredAt l with
  | case1 t u l => exact absurd rfl (hl (.drew u) (by simp))
  | case2 a l _ ih => exact ih fun b hb => hl b (List.mem_cons_of_mem _ hb)
  | case3 => rfl

theorem measuredAt_drew {l l' : List Act} {t : Time} {u : String} (hl : Bare l) :
    measuredAt (l ++ .clock t :: .drew u :: l') = some t := by
  induction l with
  | nil => rfl
  | cons a l ih =>
    rw [List.cons_append, measuredAt]
    · exact ih fun b hb => hl b (List.mem_cons_of_mem _ hb)
    · intro t' u' rest _ hrest
      cases l with
      | nil => cases hrest
      | cons b l =>
        cases hrest
        exact hl (.drew u') (by simp) rfl

section

variable {cfg : Config} {α β : Type}

def Returns (cfg : Config) (p : M α) (Q : α → List Act → Prop) (h : List Act) : Prop :=
  (records cfg).wp (fun _ => True) p (after (fun _ _ => True) Q) h

namespace Returns

variable {p : M α} {f : α → M β} {Q : β → List Act → Prop} {h : List Act}

theorem ret_ok {a : α} {Q : α → List Act → Prop} (hq : Q a h) : Returns cfg (.ret (.ok a)) Q h := hq

theorem throw {x : Exc} {Q : α → List Act → Prop} : Returns cfg (throw x) Q h := trivial

theorem mono {Q' : α → List Act → Prop} {Q : α → List Act → Prop} (hp : Returns cfg p Q' h)
    (hq : ∀ a h', Q' a h' → Q a h') : Returns cfg p Q h := by
  apply Trace.wp_mono _ hp
  intro r h' hr
  cases r with
  | ok a => exact hq a h' hr
  | error x => exact trivial

theorem bind (hp : Returns cfg p (fun a h' => Returns cfg (f a) Q h') h) :
    Returns cfg (p >>= f) Q h := by
  apply (Trace.wp_bind _ _ _ _ _).mpr
  apply Trace.wp_mono _ hp
  intro r h' hr
  cases r with
  | ok a => exact hr
  | error x => exact trivial

theorem undated (hp : Undated p) {Q : α → List Act → Prop}
    (hq : ∀ a l, Bare l → Q a (h ++ l)) : Returns cfg p Q h := by
  apply Trace.wp_mono _ (hp.wp (fun a => a.dates = true) Eff.dates_act h)
  intro r h' hr
  obtain ⟨l, rfl, hl⟩ := hr
  cases r with
  | ok a => exact hq a l hl
  | error x => exact trivial

theorem seq (hp : Undated p) (hf : ∀ a l, Bare l → Returns cfg (f a) Q (h ++ l)) :
    Returns cfg (p >>= f) Q h := (undated hp hf).bind

theorem now {f : Time → M β} (hf : ∀ t, Returns cfg (f t) Q (h ++ [Act.clock t])) :
    Returns cfg (now >>= f) Q h := by
  apply bind
  intro r hr
  obtain ⟨t, rfl, -⟩ := hr
  exact ⟨trivial, hf t⟩

theorem uuid4 {f : String → M β} (hf : ∀ u, Returns cfg (f u) Q (h ++ [Act.drew u])) :
    Returns cfg (uuid4 >>= f) Q h := by
  apply bind
  intro r hr
  obtain ⟨u, rfl, -⟩ := hr
  exact ⟨trivial, hf u⟩

theorem createToken {subject : String} {delta : Time} {type : TokenType} {sid : Option String}
    {f : Token → M β} (hf : ∀ t c, c.exp = wholeSeconds (t + delta) →
      Returns cfg (f (cfg.jose.encode c)) Q (h ++ [Act.clock t, .signed c])) :
    Returns cfg (createToken subject delta type sid >>= f) Q h := by
  unfold AsyncPulse.createToken
  rw [bind_assoc]
  apply now
  intro t
  apply bind
  intro r hr
  obtain rfl : r = .ok _ := hr
  refine ⟨trivial, ?_⟩
  rw [List.append_assoc]
  exact hf t _ rfl

theorem write {v : Write} {f : Unit → M β} (hf : Returns cfg (f ()) Q (h ++ [Act.wrote v])) :
    Returns cfg (Prog.perform (.write v) >>= f) Q h := by
  apply bind
  intro r hr
  obtain rfl | ⟨x, -, rfl⟩ := hr
  · exact ⟨trivial, hf⟩
  · exact ⟨trivial, trivial⟩

theorem commit {f : Unit → M β} (hf : Returns cfg (f ()) Q (h ++ [Act.committed])) :
    Returns cfg (commit >>= f) Q h := by
  apply bind
  intro r hr
  obtain rfl : r = .ok () := hr
  exact ⟨trivial, hf⟩

theorem suppressSet {key : Key} {v : Json} {ttl : Int} {f : Unit → M β}
    (hf : Returns cfg (f ()) Q (h ++ [Act.cacheSet key v (some ttl)])) :
    Returns cfg (Prog.suppress (setJson key v ttl) >>= f) Q h := by
  apply bind
  intro r hr
  obtain rfl : r = .ok () := hr
  exact ⟨trivial, hf⟩

theorem tryCatch {g : Exc → M α} {Q : α → List Act → Prop} (hp : Returns cfg p Q h)
    (hg : ∀ x, ∃ y, g x = .ret (.error y)) : Returns cfg (tryCatch p g) Q h := by
  apply (Trace.wp_tryCatch _ _ _ _ _).mpr
  apply Trace.wp_mono _ hp
  intro r h' hr
  cases r with
  | ok a => exact hr
  | error x =>
    obtain ⟨y, hy⟩ := hg x
    rw [Trace.after_error, hy]
    exact trivial

theorem map {f : α → β} (hp : Returns cfg p (fun a h' => Q (f a) h') h) :
    Returns cfg (f <$> p) Q h := by
  rw [map_eq_pure_bind]
  exact bind hp

end Returns

theorem undated_perform {e : Eff α} (he : e.dates = false) : Undated (.perform e : M α) :=
  ⟨he, fun _ => trivial⟩

theorem undated_raiseIf {c : Prop} [Decidable c] {x : Exc} : Undated (Prog.raiseIf c x) := by
  unfold Prog.raiseIf
  split <;> exact trivial

theorem undated_suppress {p : M Unit} (hp : Undated p) : Undated (Prog.suppress p) :=
  hp.tryCatch fun _ => trivial

theorem undated_scalarOneOrNone (rows : List α) : Undated (scalarOneOrNone rows) := by
  unfold scalarOneOrNone
  split <;> exact trivial

theorem undated_getSessionById (s : String) : Undated (getSessionById s) := by
  apply Quiet.bind (undated_perform rfl)
  intro rows
  exact (undated_scalarOneOrNone rows).bind fun _ => trivial

theorem undated_findUser (q : UserQuery) : Undated (findUser q) := by
  apply Quiet.bind (undated_perform rfl)
  intro rows
  exact (undated_scalarOneOrNone rows).bind fun _ => trivial

theorem undated_getActiveSessionsForUser (u : String) : Undated (getActiveSessionsForUser u) := by
  apply Quiet.bind (undated_perform rfl)
  intro t
  exact Quiet.bind (undated_perform rfl) fun _ => trivial

theorem undated_revoke (s : UserSession) : Undated s.revoke := by
  unfold UserSession.revoke
  split
  · exact trivial
  · exact Quiet.bind (undated_perform rfl) fun _ => trivial

theorem undated_updateSession (s : UserSession) : Undated (updateSession s) := by
  apply Quiet.bind (undated_perform rfl)
  intro rows
  cases rows with
  | nil => exact undated_perform rfl
  | cons loaded _ =>
    change Undated (if s.toModel = loaded then pure () else _)
    split
    · exact trivial
    · exact undated_perform rfl

theorem undated_isExpired (s : UserSession) : Undated s.isExpired :=
  Quiet.bind (undated_perform rfl) fun _ => trivial

theorem undated_decodeToken (token : Token) : Undated (decodeToken cfg token) := by
  unfold decodeToken
  split
  · exact trivial
  · apply Quiet.bind (undated_perform rfl)
    intro t
    exact undated_raiseIf.bind fun _ => trivial

theorem undated_createToken (subject : String) (delta : Time) (type : TokenType)
    (sid : Option String) : Undated (createToken subject delta type sid) := by
  apply Quiet.bind (undated_perform rfl)
  intro t
  exact undated_perform rfl

theorem undated_create (sid u : String) (expiresAt : Time) (d ip prev : Option String) :
    Undated (UserSession.create sid u expiresAt d ip prev) :=
  Quiet.bind (undated_perform rfl) fun _ => trivial

theorem undated_evict (s : UserSession) : Undated (evict s) := by
  apply (undated_revoke s).bind
  intro s'
  apply (undated_updateSession s').bind
  intro _
  exact undated_suppress (undated_perform rfl)

theorem undated_logoutAll (u : String) : Undated (logoutAll u) := by
  apply (undated_getActiveSessionsForUser u).bind
  intro active
  apply Quiet.bind
  · apply Quiet.bind (undated_perform rfl)
    intro models
    apply Quiet.bind (undated_perform rfl)
    intro t
    exact Quiet.forM fun m => undated_perform rfl
  intro _
  apply Quiet.bind (undated_perform rfl)
  intro _
  apply Quiet.forM
  intro s
  apply (undated_suppress (undated_perform rfl)).bind
  intro _
  exact undated_suppress (undated_perform rfl)

theorem undated_replayOrBreach (sid u : String) (revokedAt : Time) :
    Undated (replayOrBreach sid u revokedAt) := by
  apply Quiet.bind (undated_perform rfl)
  intro t
  split
  · apply Quiet.bind
    · exact Quiet.tryCatch (undated_perform rfl) fun _ => trivial
    · intro cached
      split <;> exact trivial
  · exact (undated_logoutAll u).bind fun _ => trivial

theorem returns_openSession (user : User) (d ip : Option String) (h : List Act) :
    Returns cfg (openSession cfg user d ip) (fun _ h' => ∃ u l key v, Bare l ∧
      h' = h ++ .drew u :: l ++ [Act.cacheSet key v (some (cfg.refreshTokenExpireDays * 86400))])
      h := by
  unfold openSession
  apply Returns.uuid4
  intro u
  apply Returns.seq (undated_perform rfl)
  intro t l₁ h₁
  apply Returns.seq (undated_createToken _ _ _ _)
  intro access l₂ h₂
  apply Returns.seq (undated_createToken _ _ _ _)
  intro refresh l₃ h₃
  apply Returns.seq (undated_create _ _ _ _ _ _)
  intro session l₄ h₄
  apply Returns.seq (undated_perform rfl)
  intro _ l₅ h₅
  apply Returns.seq (undated_perform rfl)
  intro _ l₆ h₆
  apply Returns.suppressSet
  unfold loginResponse
  split
  · exact Returns.throw
  · apply Returns.ret_ok
    exact ⟨u, l₁ ++ l₂ ++ l₃ ++ l₄ ++ l₅ ++ l₆, _, _, by simp [*],
      by simp; exact ⟨rfl, rfl⟩⟩

theorem returns_authenticate (e p : String) (d ip : Option String) :
    Returns cfg (authenticate cfg e p d ip) (fun _ h => ∃ l₁ u l₂ key v, Bare l₁ ∧ Bare l₂ ∧
      h = l₁ ++ .drew u :: l₂ ++ [Act.cacheSet key v (some (cfg.refreshTokenExpireDays * 86400))])
      [] := by
  unfold authenticate
  apply Returns.seq (undated_findUser _)
  intro user l₁ h₁
  cases user with
  | none => exact Returns.throw
  | some user =>
    apply Returns.seq (p := verifyPassword cfg p user.hashedPassword) trivial
    intro valid l₂ h₂
    apply Returns.seq undated_raiseIf
    intro _ l₃ h₃
    apply Returns.seq undated_raiseIf
    intro _ l₄ h₄
    apply Returns.seq undated_raiseIf
    intro _ l₅ h₅
    apply Returns.seq (undated_getActiveSessionsForUser _)
    intro active l₆ h₆
    apply Returns.seq (Quiet.forM undated_evict)
    intro _ l₇ h₇
    apply (returns_openSession user d ip _).mono
    intro _ h' hopen
    obtain ⟨u, l, key, v, hl, rfl⟩ := hopen
    exact ⟨l₁ ++ l₂ ++ l₃ ++ l₄ ++ l₅ ++ l₆ ++ l₇, u, l, key, v, by simp [*], hl,
      by simp⟩

def rotationTrail (old : String) (y : SessionModel) (a b : Claims) (t t₁ t₂ t₃ : Time)
    (p : TokenPair) : List Act :=
  [.clock t, .drew y.id, .clock t₁, .signed a, .clock t₂, .signed b, .clock t₃,
    .wrote (.insertSession y), .committed,
    .cacheSet (.session y.id) y.projection.toDict (some (remainingSeconds y.expiresAt t)),
    .cacheSet (.grace old) p.toDict (some 30)]

def RotatedTo (cfg : Config) (expiresAt : Time) (p : TokenPair) (h : List Act) : Prop :=
  ∃ l old y a b t t₁ t₂ t₃, Bare l ∧ y.expiresAt = expiresAt ∧
    b.exp = wholeSeconds (t₂ + seconds (remainingSeconds expiresAt t)) ∧
    p.refreshToken = cfg.jose.encode b ∧ h = l ++ rotationTrail old y a b t t₁ t₂ t₃ p

theorem returns_rotate (sid u : String) (session : UserSession) (ip : Option String)
    (h : List Act) : Returns cfg (rotate cfg sid u session ip)
      (fun p h' => ∃ l, h' = h ++ l ∧ RotatedTo cfg session.expiresAt p l) h := by
  have hrevoke : Returns cfg session.revoke (fun s h' => s.expiresAt = session.expiresAt ∧
      ∃ l, Bare l ∧ h' = h ++ l) h := by
    unfold UserSession.revoke
    split
    · exact ⟨rfl, [], by simp, by simp⟩
    · apply Returns.now
      intro t
      exact ⟨rfl, [.clock t], by simp [Act.dates], rfl⟩
  unfold rotate
  apply Returns.bind
  apply hrevoke.mono
  intro s' h' hs
  obtain ⟨hexp, l₁, h₁, rfl⟩ := hs
  apply Returns.seq (undated_updateSession _)
  intro _ l₂ h₂
  apply Returns.seq (undated_suppress (undated_perform rfl))
  intro _ l₃ h₃
  apply Returns.now
  intro t
  apply Returns.uuid4
  intro id
  apply Returns.createToken
  intro t₁ a _
  apply Returns.createToken
  intro t₂ b hb
  unfold UserSession.create
  rw [bind_assoc]
  apply Returns.now
  intro t₃
  apply Returns.write
  apply Returns.commit
  apply Returns.suppressSet
  apply Returns.suppressSet
  apply Returns.ret_ok
  rw [hexp] at hb
  let y : UserSession :=
    { id := id, userId := u, expiresAt := s'.expiresAt, deviceInfo := s'.deviceInfo,
      ipAddress := ip, createdAt := t₃, revokedAt := none, previousSessionId := some s'.id }
  refine ⟨l₁ ++ l₂ ++ l₃ ++ rotationTrail sid y.toModel a b t t₁ t₂ t₃ _, ?_, l₁ ++ l₂ ++ l₃, sid,
    y.toModel, a, b, t, t₁, t₂, t₃, by simp [*], hexp, hb, rfl, rfl⟩
  simp only [rotationTrail, List.append_assoc, List.cons_append, List.nil_append]
  rfl

theorem returns_decodeToken (token : Token) (h : List Act) :
    Returns cfg (decodeToken cfg token) (fun c h' => cfg.jose.verify token = some c ∧
      ∃ l, Bare l ∧ h' = h ++ l) h := by
  unfold decodeToken
  cases hv : cfg.jose.verify token with
  | none => exact Returns.throw
  | some c =>
    apply Returns.now
    intro t
    apply Returns.seq undated_raiseIf
    intro _ l hl
    apply Returns.ret_ok
    exact ⟨rfl, .clock t :: l, by simp [hl, Act.dates], by simp⟩

theorem returns_getSessionById (s : String) (h : List Act) :
    Returns cfg (getSessionById s) (fun o h' => ∀ x, o = some x → ∃ row : SessionModel,
      x = row.toEntity ∧ row.id = s ∧ h' = h ++ [Act.readSessions (.byId s) [row]]) h := by
  unfold getSessionById
  apply Returns.bind
  intro r hr
  obtain ⟨rows, rfl, hans⟩ := hr
  refine ⟨trivial, ?_⟩
  cases rows with
  | nil => exact fun x hx => by cases hx
  | cons row rest =>
    cases rest with
    | nil =>
      intro x hx
      cases hx
      exact ⟨row, rfl, by simpa [SessionQuery.selects] using hans.selects row (by simp), rfl⟩
    | cons _ _ => exact trivial

theorem returns_refreshToken (request : Token) (ip : Option String) :
    Returns cfg (refreshToken cfg request ip) (fun p h => Bare h ∨
      ∃ (c : Claims) (row : SessionModel), cfg.jose.verify request = some c ∧
        c.jti = some row.id ∧ .readSessions (.byId row.id) [row] ∈ h ∧
        RotatedTo cfg row.expiresAt p h) [] := by
  unfold refreshToken
  apply Returns.bind
  apply ((returns_decodeToken request []).tryCatch fun _ => ⟨_, rfl⟩).mono
  intro c l₁ hc
  obtain ⟨hv, l, h₁, rfl⟩ := hc
  apply Returns.seq undated_raiseIf
  intro _ l₂ h₂
  apply Returns.bind
  apply (Trace.wp_raiseIf _ _ _ _ _).mpr
  refine ⟨fun _ => trivial, fun hids => ?_⟩
  apply Returns.bind
  apply (returns_getSessionById _ _).mono
  intro session h' hs
  cases session with
  | none => exact Returns.throw
  | some session =>
    obtain ⟨row, rfl, hid, rfl⟩ := hs session rfl
    obtain ⟨hj, -⟩ := not_or.mp hids
    have hjti : c.jti = some row.id := by
      cases hc : c.jti with
      | none => simp [hc] at hj
      | some s => simpa [hc] using hid.symm
    dsimp only
    split
    · apply Returns.undated (undated_replayOrBreach _ _ _)
      intro _ l hl
      exact .inl (by simp [h₁, h₂, hl, Act.dates])
    · unfold checkAndRotate
      apply Returns.seq (undated_isExpired _)
      intro expired l₃ h₃
      apply Returns.seq undated_raiseIf
      intro _ l₄ h₄
      apply Returns.seq (undated_findUser _)
      intro user l₅ h₅
      cases user with
      | none => exact Returns.throw
      | some user =>
        apply Returns.seq undated_raiseIf
        intro _ l₆ h₆
        apply (returns_rotate _ _ _ ip _).mono
        intro _ h' hrot
        obtain ⟨_, rfl, l₇, old, y, a, b, t, t₁, t₂, t₃, h₇, hy, hb, hp, rfl⟩ := hrot
        refine .inr ⟨c, row, hv, hjti, by simp [hid],
          l₁ ++ l₂ ++ [Act.readSessions (.byId row.id) [row]] ++ l₃ ++ l₄ ++ l₅ ++ l₆ ++ l₇, old, y,
          a, b, t, t₁, t₂, t₃, ?_, hy, hb, hp, ?_⟩
        · simp [h₁, h₂, h₃, h₄, h₅, h₆, h₇, Act.dates]
        · simp [hid]

def Eff.setsBut (n : Int) : {β : Type} → Eff β → Bool
  | _, .cacheSet _ _ ttl => ttl ≠ some n
  | _, _ => false

abbrev Keeps (n : Int) (p : M α) : Prop := Quiet (fun _ e => e.setsBut n) p

theorem keeps_of_undated {n : Int} {p : M α} (hp : Undated p) : Keeps n p := by
  apply hp.mono
  intro β e he
  cases e <;> first | rfl | exact absurd he Bool.false_ne_true

theorem keeps_setJson (key : Key) (v : Json) (n : Int) : Keeps n (setJson key v n) :=
  ⟨by simp [Eff.setsBut], fun _ => trivial⟩

theorem keeps_lookupSession (sid : String) : Keeps 3600 (lookupSession sid) := by
  apply Quiet.bind (keeps_of_undated (undated_perform rfl))
  intro data
  split
  · apply Quiet.bind
    · exact trivial
    · exact fun _ => trivial
  · apply (keeps_of_undated (undated_getSessionById sid)).bind
    intro full
    cases full with
    | none => exact trivial
    | some full => exact (keeps_setJson _ _ _).bind fun _ => trivial

theorem keeps_lookupUser (u : String) : Keeps 3600 (lookupUser u) := by
  apply Quiet.bind (keeps_of_undated (undated_perform rfl))
  intro data
  split
  · exact trivial
  · apply (keeps_of_undated (undated_findUser _)).bind
    intro user
    cases user with
    | none => exact trivial
    | some user => exact (keeps_setJson _ _ _).bind fun _ => trivial

theorem keeps_getCurrentUser (token : Token) : Keeps 3600 (getCurrentUser cfg token) := by
  have hraise : ∀ {c : Prop} [Decidable c] {x : Exc}, Keeps 3600 (Prog.raiseIf c x) :=
    keeps_of_undated undated_raiseIf
  apply Quiet.bind
  · apply (keeps_of_undated (undated_decodeToken token)).tryCatch
    intro x
    split <;> exact trivial
  intro payload
  apply hraise.bind
  intro _
  apply hraise.bind
  intro _
  apply (keeps_lookupSession _).bind
  intro session
  cases session with
  | none => exact trivial
  | some session =>
    apply Quiet.bind
    · exact keeps_of_undated (Quiet.bind (undated_perform rfl) fun _ => trivial)
    intro active
    apply hraise.bind
    intro _
    apply hraise.bind
    intro _
    apply (keeps_lookupUser _).bind
    intro user
    apply hraise.bind
    intro _
    apply hraise.bind
    intro _
    apply hraise.bind
    exact fun _ => trivial

theorem returns_getCurrentUser (token : Token) :
    Returns cfg (getCurrentUser cfg token) (fun _ h => ∀ key v ttl,
      .cacheSet key v ttl ∈ h → ttl = some 3600) [] := by
  have hev : ∀ (β : Type) (e : Eff β) (x : Except Exc β), e.setsBut 3600 = false →
      ¬ ∃ key v ttl, e.act x = .cacheSet key v ttl ∧ ttl ≠ some 3600 := by
    intro β e x he hx
    obtain ⟨key, v, ttl, hact, hne⟩ := hx
    cases e <;> cases x <;> simp only [Eff.act, reduceCtorEq] at hact
    cases hact
    simp [Eff.setsBut, hne] at he
  apply Trace.wp_mono _ ((keeps_getCurrentUser token).wp
    (fun a => ∃ key v ttl, a = .cacheSet key v ttl ∧ ttl ≠ some 3600) hev [])
  intro r h' hr
  obtain ⟨l, rfl, hl⟩ := hr
  cases r with
  | error x => exact trivial
  | ok u =>
    intro key v ttl hset
    by_cases ht : ttl = some 3600
    · exact ht
    · exact absurd ⟨key, v, ttl, rfl, ht⟩ (hl _ hset)

def Call.Dated (cfg : Config) : Call → Out → List Act → Prop
  | .authenticate _ _ _ _, _, h => ∃ l₁ u l₂ key v, Bare l₁ ∧ Bare l₂ ∧
      h = l₁ ++ .drew u :: l₂ ++ [.cacheSet key v (some (cfg.refreshTokenExpireDays * 86400))]
  | .refreshToken token _, o, h => ∃ p, o = .pair p ∧ (Bare h ∨
      ∃ (c : Claims) (row : SessionModel), cfg.jose.verify token = some c ∧ c.jti = some row.id ∧
        .readSessions (.byId row.id) [row] ∈ h ∧ RotatedTo cfg row.expiresAt p h)
  | .getCurrentUser _, _, h => ∀ key v ttl, .cacheSet key v ttl ∈ h → ttl = some 3600
  | _, _, _ => True

theorem returns_body (k : Call) : Returns cfg (k.body cfg) (fun o h => k.Dated cfg o h) [] := by
  have hany : ∀ {p : M Out}, Returns cfg p (fun _ _ => True) [] := by
    intro p
    generalize [] = h
    induction p generalizing h with
    | ret r => cases r <;> exact trivial
    | op e f ih => exact fun r _ => ⟨trivial, ih r _⟩
  cases k with
  | authenticate e p d ip => exact Returns.map (returns_authenticate e p d ip)
  | refreshToken token ip =>
    exact Returns.map ((returns_refreshToken token ip).mono fun p h hp => ⟨p, rfl, hp⟩)
  | getCurrentUser token => exact Returns.map (returns_getCurrentUser token)
  | _ => exact hany

theorem returns_prog (k : Call) : Returns cfg (k.prog cfg)
    (fun o h => ∃ h', h = h' ++ [Act.closed] ∧ k.Dated cfg o h') [] := by
  apply (Trace.wp_ensure _ _ _ _ _).mpr
  apply Trace.wp_mono _ (returns_body k)
  intro r h' hr x hx
  obtain rfl : x = .ok () := hx
  refine ⟨trivial, ?_⟩
  cases r with
  | ok o => exact ⟨h', rfl, hr⟩
  | error x => exact trivial

end

variable {γ χ : Type} {cfg : Config} {C : MayCache Key Json γ χ}

def dated (cfg : Config) (C : MayCache Key Json γ χ) : Contract (app cfg C) Act :=
  { audit cfg C with
    post := fun k r h => k.Finished cfg r h ∧
      after (fun _ _ => True) (fun o h => ∃ h', h = h' ++ [.closed] ∧ k.Dated cfg o h') r h }

theorem dated_kept : (dated cfg C).Kept :=
  { audit_kept with prog := fun k => ⟨.nil, Trace.wp_and _ (traced_prog k) (returns_prog k)⟩ }

theorem Reachable.dated {s : State γ} (hr : Reachable cfg C s) {i : Nat} {k : Call} {o : Out}
    (hk : s.script i = some k) (ho : s.answer i = some (.ok o)) :
    ∃ h, s.world.hist i = h ++ [Act.closed] ∧ k.Dated cfg o h := by
  obtain ⟨w, ls, hw, hs⟩ := hr
  exact ((dated_kept.execs (Contract.holds_of_no_calls (Provenance.init hw)) hs).post hk ho).2

theorem remainingSeconds_pos {e t : Int} :
    0 < remainingSeconds e t ↔ t + seconds 1 ≤ e := by
  change 0 < max (Int.tdiv (e - t) 1000000) 0 ↔ t + 1 * 1000000 ≤ e
  by_cases he : t ≤ e
  · rw [Int.tdiv_eq_ediv_of_nonneg (Int.sub_nonneg_of_le he)]
    omega
  · have hneg := Int.tdiv_nonneg (Int.sub_nonneg_of_le (by omega : e ≤ t))
      (by decide : (0 : Int) ≤ 1000000)
    rw [← Int.neg_sub, Int.neg_tdiv] at hneg
    omega

/-- The settings give a new session a lifetime, and a rotation measures what is left of the
session that the token names while at least a second is left. -/
def Call.InTime (cfg : Config) (s : State γ) (i : Nat) : Call → Prop
  | .authenticate _ _ _ _ => 0 < cfg.refreshTokenExpireDays
  | .refreshToken token _ => ∀ c sid row t, cfg.jose.verify token = some c → c.jti = some sid →
      s.world.db.sessions.get sid = some row → measuredAt (s.world.hist i) = some t →
        t + seconds 1 ≤ row.expiresAt
  | _ => True

/-- A successful login, refresh or passage of the gate stores nothing under a time to live that a
store of the cache fails to keep, just when it is in time. -/
theorem ttl_honoured {s : State γ} (hr : Reachable cfg C s) {i : Nat} {k : Call} {o : Out}
    (hk : s.script i = some k) (ho : s.answer i = some (.ok o))
    (hkind : (∃ e p d ip, k = .authenticate e p d ip) ∨ (∃ token ip, k = .refreshToken token ip) ∨
      ∃ token, k = .getCurrentUser token) :
    (∀ key v ttl, .cacheSet key v ttl ∈ s.world.hist i → Honoured ttl) ↔ k.InTime cfg s i := by
  obtain ⟨h, hh, hd⟩ := hr.dated hk ho
  have hset : ∀ key v ttl, .cacheSet key v ttl ∈ s.world.hist i ↔ .cacheSet key v ttl ∈ h := by
    intro key v ttl
    simp [hh]
  obtain ⟨e, p, d, ip, rfl⟩ | ⟨token, ip, rfl⟩ | ⟨token, rfl⟩ := hkind
  · obtain ⟨l₁, u, l₂, key, v, h₁, h₂, rfl⟩ := hd
    constructor
    · intro hall
      have hpos := honoured_iff.mp (hall key v (some (cfg.refreshTokenExpireDays * 86400))
        ((hset _ _ _).mpr (by simp)))
      change 0 < cfg.refreshTokenExpireDays
      omega
    · intro hdays key' v' ttl hmem
      obtain ⟨-, -, rfl⟩ : key' = key ∧ v' = v ∧
          ttl = some (cfg.refreshTokenExpireDays * 86400) := by
        simpa [h₁.not_set, h₂.not_set] using (hset _ _ _).mp hmem
      have hdays : 0 < cfg.refreshTokenExpireDays := hdays
      exact honoured_iff.mpr (by omega)
  · obtain ⟨p, -, hd⟩ := hd
    obtain hbare | ⟨c, row, hv, hj, hread, l, old, y, a, b, t, t₁, t₂, t₃, hl, hy, -, -, rfl⟩ := hd
    · -- A replay stores nothing, and measures nothing.
      have hnone : measuredAt (s.world.hist i) = none := by
        rw [hh]
        exact measuredAt_bare (by simp [hbare, Act.dates])
      constructor
      · intro _ c sid row t _ _ _ ht
        rw [hnone] at ht
        cases ht
      · intro _ key v ttl hmem
        exact absurd ((hset _ _ _).mp hmem) hbare.not_set
    · have hmeasured : measuredAt (s.world.hist i) = some t := by
        rw [hh, List.append_assoc]
        exact measuredAt_drew hl
      obtain ⟨z, hz, hcore, -⟩ := hr.provenance.saw i row
        ⟨.byId row.id, [row], by rw [hh]; exact List.mem_append_left _ hread, by simp⟩
      have hexp : z.expiresAt = row.expiresAt := SessionModel.core_expiresAt hcore
      constructor
      · intro hall c' sid row' t' hv' hj' hrow ht
        rw [hv] at hv'
        cases hv'
        rw [hj] at hj'
        cases hj'
        rw [hz] at hrow
        cases hrow
        rw [hmeasured] at ht
        cases ht
        rw [hexp]
        exact remainingSeconds_pos.mp
          (honoured_iff.mp
          (hall (.session y.id) y.projection.toDict (some (remainingSeconds row.expiresAt t))
            ((hset _ _ _).mpr (by simp [rotationTrail, hy]))))
      · intro htime key'' v'' ttl hmem
        have hrest := htime c row.id z t hv hj hz hmeasured
        rw [hexp] at hrest
        have hcase : (key'' = .session y.id ∧ v'' = y.projection.toDict ∧
            ttl = some (remainingSeconds row.expiresAt t)) ∨
            key'' = .grace old ∧ v'' = p.toDict ∧ ttl = some 30 := by
          simpa [rotationTrail, hl.not_set, hy] using (hset _ _ _).mp hmem
        obtain ⟨-, -, rfl⟩ | ⟨-, -, rfl⟩ := hcase
        · exact honoured_iff.mpr (remainingSeconds_pos.mpr hrest)
        · exact honoured_iff.mpr (by decide)
  · constructor
    · exact fun _ => trivial
    · intro _ key v ttl hmem
      obtain rfl := hd key v ttl ((hset _ _ _).mp hmem)
      exact honoured_iff.mpr (by decide)

theorem ttl_honoured_once :
    (∀ key v ttl, .cacheSet key v ttl ∈ (sampleApp.afterwards refreshOnce signedIn).world.hist 1 →
      Honoured ttl) ↔
    Call.InTime sampleConfig (sampleApp.afterwards refreshOnce signedIn) 1
      (.refreshToken (refreshTokenOf "s1") none) :=
  ttl_honoured (o := .pair ⟨accessToken "s2" 903, refreshTokenOf "s2", "bearer"⟩)
    (signedIn_reachable.execs (Service.execs_afterwards _ (by decide +kernel)))
    (by decide +kernel) (by decide +kernel) (.inr (.inl ⟨_, _, rfl⟩))

def refreshAtEnd : List (Label Call (Choice Unit)) :=
  .call 1 (.refreshToken (refreshTokenOf "s1") none) :: effects 1 20 604801 "s2"

/-- The new session is cached with no seconds to live. Redis refuses that, the client changes over
to the fallback store, and there the entry does not expire: it is returned a day later. -/
theorem refused_ttl : ∃ s o v, Reachable sampleConfig TimedStore.reliable signedIn ∧
    sampleApp.execs refreshAtEnd signedIn = some s ∧
    s.script 1 = some (.refreshToken (refreshTokenOf "s1") none) ∧ s.answer 1 = some (.ok o) ∧
    .cacheSet (.session "s2") v (some 0) ∈ s.world.hist 1 ∧ ¬ Honoured (some 0) ∧
    ((CacheState.fresh (seconds 604801)).set healthy (Key.session "s2") v
      (some 0)).client.usesFallback = true ∧
    (((CacheState.fresh (seconds 604801)).set healthy (Key.session "s2") v (some 0)).get
      { healthy with elapsed := 86400000000 } (Key.session "s2")).1 = some v := by
  refine ⟨_, .pair ⟨accessToken "s2" 605701, refreshTokenOf "s2", "bearer"⟩,
    (aliceSuccessor 604801).projection.toDict, signedIn_reachable,
    Service.execs_afterwards _ (by decide +kernel), by decide +kernel, by decide +kernel,
    by decide +kernel, fun h => absurd (honoured_iff.mp h) (by decide), by decide +kernel,
    by decide +kernel⟩

end AsyncPulse
