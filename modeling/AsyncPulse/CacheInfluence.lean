import AsyncPulse.Audit
import AsyncPulse.EffectReplies
set_option autoImplicit false

namespace AsyncPulse
open Effect

variable {γ χ α β : Type} {cfg : Config} {C : MayCache Key Json γ χ}

abbrev Direct (p : M α) : Prop := Plain (fun _ e => e.isCache) (fun _ e => e.isCommit) p

theorem direct_now : Direct now := Plain.perform rfl rfl

theorem direct_uuid4 : Direct uuid4 := Plain.perform rfl rfl

theorem direct_raiseIf {c : Prop} [Decidable c] {x : Exc} : Direct (Prog.raiseIf c x) :=
  Plain.raiseIf

theorem direct_scalarOneOrNone (rows : List α) : Direct (scalarOneOrNone rows) := by
  unfold scalarOneOrNone
  split <;> exact trivial

theorem direct_scalarOne (rows : List α) : Direct (scalarOne rows) := by
  unfold scalarOne
  split <;> exact trivial

theorem direct_getSessionById (s : String) : Direct (getSessionById s) := by
  apply Plain.bind (Plain.perform rfl rfl)
  intro rows
  exact (direct_scalarOneOrNone rows).bind fun _ => trivial

theorem direct_getActiveSessionsForUser (u : String) : Direct (getActiveSessionsForUser u) := by
  apply Plain.bind direct_now
  intro t
  exact Plain.bind (Plain.perform rfl rfl) fun _ => trivial

theorem direct_updateSession (s : UserSession) : Direct (updateSession s) := by
  apply Plain.bind (Plain.perform rfl rfl)
  intro rows
  cases rows with
  | nil => exact Plain.perform rfl rfl
  | cons loaded _ =>
    change Direct (if s.toModel = loaded then pure () else _)
    split
    · exact trivial
    · exact Plain.perform rfl rfl

theorem direct_revokeAllSessions (u : String) : Direct (revokeAllSessions u) := by
  apply Plain.bind (Plain.perform rfl rfl)
  intro models
  apply Plain.bind direct_now
  intro t
  exact Plain.forM fun m => Plain.perform rfl rfl

theorem direct_createSession (s : UserSession) : Direct (createSession s) := Plain.perform rfl rfl

theorem direct_revoke (s : UserSession) : Direct s.revoke := by
  unfold UserSession.revoke
  split
  · exact trivial
  · exact direct_now.bind fun _ => trivial

theorem direct_create (sid u : String) (expiresAt : Time) (d ip prev : Option String) :
    Direct (UserSession.create sid u expiresAt d ip prev) := direct_now.bind fun _ => trivial

theorem direct_findUser (q : UserQuery) : Direct (findUser q) := by
  apply Plain.bind (Plain.perform rfl rfl)
  intro rows
  exact (direct_scalarOneOrNone rows).bind fun _ => trivial

theorem direct_createToken (subject : String) (delta : Time) (type : TokenType)
    (sid : Option String) : Direct (createToken subject delta type sid) := by
  apply direct_now.bind
  intro t
  exact Plain.perform rfl rfl

theorem direct_decodeToken (token : Token) : Direct (decodeToken cfg token) := by
  unfold decodeToken
  split
  · exact trivial
  · apply direct_now.bind
    intro t
    exact direct_raiseIf.bind fun _ => trivial

abbrev Uncached (cfg : Config) (p : M α) : Prop := Oblivious (records cfg) (fun _ e => e.isCache) p

theorem uncached_suppressDelete (key : Key) :
    Uncached cfg (Prog.suppress (cacheDelete key)) := Oblivious.suppress rfl

theorem uncached_suppressSet (key : Key) (v : Json) (ttl : Int) :
    Uncached cfg (Prog.suppress (setJson key v ttl)) := Oblivious.suppress rfl

theorem uncached_evict (s : UserSession) : Uncached cfg (evict s) := by
  apply (direct_revoke s).oblivious.bind
  intro s'
  apply (direct_updateSession s').oblivious.bind
  intro _
  exact uncached_suppressDelete _

theorem uncached_loginResponse (user : User) (a r : Token) :
    Uncached cfg (loginResponse user a r) := by
  unfold loginResponse
  split <;> exact .ret _

theorem uncached_openSession (user : User) (d ip : Option String) :
    Uncached cfg (openSession cfg user d ip) := by
  apply direct_uuid4.oblivious.bind
  intro sid
  apply direct_now.oblivious.bind
  intro t
  apply (direct_createToken _ _ _ _).oblivious.bind
  intro access
  apply (direct_createToken _ _ _ _).oblivious.bind
  intro refresh
  apply (direct_create _ _ _ _ _ _).oblivious.bind
  intro session
  apply (direct_createSession session).oblivious.bind
  intro _
  apply Oblivious.bind (Oblivious.outer rfl)
  intro _
  apply (uncached_suppressSet _ _ _).bind
  intro _
  exact uncached_loginResponse _ _ _

theorem uncached_authenticate (e p : String) (d ip : Option String) :
    Uncached cfg (authenticate cfg e p d ip) := by
  apply (direct_findUser _).oblivious.bind
  intro user
  cases user with
  | none => exact .ret _
  | some user =>
    apply Oblivious.bind (Oblivious.ret _)
    intro valid
    apply direct_raiseIf.oblivious.bind
    intro _
    apply direct_raiseIf.oblivious.bind
    intro _
    apply direct_raiseIf.oblivious.bind
    intro _
    apply (direct_getActiveSessionsForUser _).oblivious.bind
    intro active
    apply Oblivious.bind (Oblivious.forM uncached_evict)
    intro _
    exact uncached_openSession user d ip

theorem uncached_logout (s : String) : Uncached cfg (logout s) := by
  apply (direct_getSessionById s).oblivious.bind
  intro session
  cases session with
  | none => exact .ret _
  | some session =>
    apply (direct_revoke session).oblivious.bind
    intro s'
    apply (direct_updateSession s').oblivious.bind
    intro _
    apply Oblivious.bind (Oblivious.outer rfl)
    intro _
    apply (uncached_suppressDelete _).bind
    intro _
    exact uncached_suppressDelete _

theorem uncached_logoutAll (u : String) : Uncached cfg (logoutAll u) := by
  apply (direct_getActiveSessionsForUser u).oblivious.bind
  intro active
  apply (direct_revokeAllSessions u).oblivious.bind
  intro _
  apply Oblivious.bind (Oblivious.outer rfl)
  intro _
  apply Oblivious.forM
  intro s
  apply (uncached_suppressDelete _).bind
  intro _
  exact uncached_suppressDelete _

theorem uncached_rotate (sid u : String) (session : UserSession) (ip : Option String) :
    Uncached cfg (rotate cfg sid u session ip) := by
  apply (direct_revoke session).oblivious.bind
  intro s'
  apply (direct_updateSession s').oblivious.bind
  intro _
  apply (uncached_suppressDelete _).bind
  intro _
  apply direct_now.oblivious.bind
  intro t
  apply direct_uuid4.oblivious.bind
  intro new
  apply (direct_createToken _ _ _ _).oblivious.bind
  intro access
  apply (direct_createToken _ _ _ _).oblivious.bind
  intro refresh
  apply (direct_create _ _ _ _ _ _).oblivious.bind
  intro successor
  apply (direct_createSession successor).oblivious.bind
  intro _
  apply Oblivious.bind (Oblivious.outer rfl)
  intro _
  apply (uncached_suppressSet _ _ _).bind
  intro _
  apply (uncached_suppressSet _ _ _).bind
  intro _
  exact .ret _

theorem uncached_checkAndRotate (sid u : String) (session : UserSession) (ip : Option String) :
    Uncached cfg (checkAndRotate cfg sid u session ip) := by
  have hexp : Direct session.isExpired := direct_now.bind fun _ => trivial
  apply hexp.oblivious.bind
  intro expired
  apply direct_raiseIf.oblivious.bind
  intro _
  apply (direct_findUser _).oblivious.bind
  intro user
  cases user with
  | none => exact .ret _
  | some user =>
    apply direct_raiseIf.oblivious.bind
    intro _
    exact uncached_rotate sid u session ip

def GraceReplay (h : List Act) : Prop :=
  ∃ h₀ s row revokedAt t, h = h₀ ++ [.readSessions (.byId s) [row], .clock t] ∧
    row.revokedAt = some revokedAt ∧ t - revokedAt ≤ graceWindow

/-- Two runs end alike, or both have replayed a grace entry. -/
def SameOutcome (h : List Act) (r r' : Except Exc α) : Prop := r' = r ∨ GraceReplay h

theorem agree_replayOrBreach {h₀ : List Act} {s sid u : String} {row : SessionModel}
    {revokedAt : Time} (hrow : row.revokedAt = some revokedAt) :
    Agree (records cfg) (fun _ e => e.isCache) SameOutcome
      (h₀ ++ [Act.readSessions (.byId s) [row]])
      (replayOrBreach sid u revokedAt) (replayOrBreach sid u revokedAt) := by
  apply Agree.outer rfl
  intro x
  cases x with
  | error x => exact .ret (.inl rfl)
  | ok t =>
    change Agree _ _ _ _ (if t - revokedAt ≤ graceWindow then _ else _)
      (if t - revokedAt ≤ graceWindow then _ else _)
    split
    · -- The entry decides the outcome and nothing else.
      rename_i hgrace
      have hreplay : GraceReplay (h₀ ++ [Act.readSessions (.byId s) [row]] ++ [Act.clock t]) :=
        ⟨h₀, s, row, revokedAt, t, by simp, hrow, hgrace⟩
      have hread : Idle (fun _ e => Eff.isCache e)
          (tryCatch (getJson (.grace sid)) fun _ => pure none) :=
        Idle.tryCatch ⟨rfl, fun _ => trivial⟩ fun _ => trivial
      refine .idle (hread.bind ?_) (hread.bind ?_) fun _ _ => .inr hreplay
      all_goals
        intro cached
        cases cached.filter Json.truthy <;> exact trivial
    · apply Agree.bind (uncached_logoutAll u _)
      · exact fun _ _ => .ret (.inl rfl)
      · exact fun _ _ => .inl rfl

theorem agree_revokedAt {h : List Act} {x : SessionModel} {f : Time → M α} {p : M α}
    (hs : ∀ t, x.revokedAt = some t →
      Agree (records cfg) (fun _ e => e.isCache) SameOutcome h (f t) (f t))
    (hn : x.revokedAt = none →
      Agree (records cfg) (fun _ e => e.isCache) SameOutcome h p p) :
    Agree (records cfg) (fun _ e => e.isCache) SameOutcome h
      (match x.revokedAt with | some t => f t | none => p)
      (match x.revokedAt with | some t => f t | none => p) := by
  cases hx : x.revokedAt with
  | some t => exact hs t hx
  | none => exact hn hx

theorem agree_refreshToken (request : Token) (ip : Option String) (h : List Act) :
    Agree (records cfg) (fun _ e => e.isCache) SameOutcome h (refreshToken cfg request ip)
      (refreshToken cfg request ip) := by
  have hdecode : Direct (tryCatch (decodeToken cfg request) fun _ =>
      throw (.invalidToken "Invalid or expired refresh token")) :=
    (direct_decodeToken request).tryCatch fun _ => ⟨_, rfl⟩
  apply (hdecode.oblivious h).bind _ fun _ _ => .inl rfl
  intro payload h
  apply (direct_raiseIf.oblivious h).bind _ fun _ _ => .inl rfl
  intro _ h
  apply (direct_raiseIf.oblivious h).bind _ fun _ _ => .inl rfl
  intro _ h
  apply Agree.outer rfl
  intro x
  cases x with
  | error x => exact .ret (.inl rfl)
  | ok rows =>
    obtain _ | ⟨row, _ | ⟨_, _⟩⟩ := rows
    · exact .ret (.inl rfl)
    · refine agree_revokedAt (x := row) (fun revokedAt hrow => ?_) fun _ => ?_
      · exact agree_replayOrBreach hrow
      · exact (uncached_checkAndRotate _ _ _ _ _).mono fun _ _ _ hr => .inl hr.symm
    · exact .ret (.inl rfl)

def Call.isAuthService : Call → Bool
  | .authenticate _ _ _ _ | .refreshToken _ _ | .logout _ | .logoutAll _ => true
  | _ => false

/-- Whatever the cache answers, and whatever exceptions it raises, a call of `AuthService` does the
same to the tables, statement by statement, and it ends alike unless it replays a grace entry. -/
theorem cache_without_influence {k : Call} (hk : k.isAuthService = true) {i : Nat}
    {w w' : World γ} (hnew : w.hist i = []) {ρ ρ' : Replies Eff Exc} {cs : List (Choice χ)}
    {r : Except Exc Out}
    (hr : (semantics cfg C).runWith (fun _ e => e.isCache) ρ i 0 cs (k.body cfg) w =
      some (r, w')) :
    ∃ r', (semantics cfg C).runWith (fun _ e => e.isCache) ρ' i 0 cs (k.body cfg) w =
      some (r', w') ∧ (r' = r ∨ k.isRefresh = true ∧ GraceReplay (w'.hist i)) := by
  have hsame : Uncached cfg (k.body cfg) → Agree (records cfg) (fun _ e => e.isCache)
      (fun h r r' => r' = r ∨ k.isRefresh = true ∧ GraceReplay h) [] (k.body cfg)
      (k.body cfg) := fun hu => (hu _).mono fun _ _ _ hr => .inl hr.symm
  have hagree : Agree (records cfg) (fun _ e => e.isCache)
      (fun h r r' => r' = r ∨ k.isRefresh = true ∧ GraceReplay h) [] (k.body cfg)
      (k.body cfg) := by
    cases k with
    | authenticate e p d ip => exact hsame (uncached_authenticate e p d ip).map
    | logout s => exact hsame (uncached_logout s).map
    | logoutAll u => exact hsame (uncached_logoutAll u).map
    | refreshToken t ip =>
      apply Agree.map
      apply (agree_refreshToken t ip _).mono
      intro h r r' hr
      cases hr with
      | inl heq => exact .inl (by rw [heq])
      | inr hgrace => exact .inr ⟨rfl, hgrace⟩
    | _ => cases hk
  have hrec : ∀ {β : Type} (e : Eff β) c (s : World γ) x s',
      (semantics cfg C).step i c s e = some (x, s') →
        s'.hist i = s.hist i ++ [(records cfg).event e x] := by
    intro β e c s x s' hs
    rw [(semantics_step hs).1.hist, Function.update_self]
    rfl
  exact hagree.run hrec hnew hr

def alwaysMiss : Replies Eff Exc
  | _, _, .cacheGet _ => .ok none
  | _, _, .cacheSet _ _ _ => .ok ()
  | _, _, .cacheDelete _ => .ok ()
  | _, _, _ => .error .valueError

def signInUncached : Option (Except Exc Out × World (TimedStore Key Json)) :=
  (semantics sampleConfig TimedStore.reliable).runWith (fun _ e => e.isCache)
    (fun _ _ _ => .error .operationalError) 0 0 (List.replicate 12 (moment 1 "s1"))
    (Call.body sampleConfig (.authenticate "alice@example.org" "secret" none none)) sampleWorld

theorem cache_without_influence_signIn :
    ∃ r', (semantics sampleConfig TimedStore.reliable).runWith (fun _ e => e.isCache) alwaysMiss 0 0
        (List.replicate 12 (moment 1 "s1"))
        (Call.body sampleConfig (.authenticate "alice@example.org" "secret" none none)) sampleWorld =
      some (r', (signInUncached.get (by decide +kernel)).2) ∧
      (r' = (signInUncached.get (by decide +kernel)).1 ∨ false = true ∧
        GraceReplay ((signInUncached.get (by decide +kernel)).2.hist 0)) :=
  cache_without_influence (k := .authenticate "alice@example.org" "secret" none none) rfl rfl
    (Option.some_get (x := signInUncached) (by decide +kernel)).symm

end AsyncPulse
