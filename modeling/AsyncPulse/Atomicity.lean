import AsyncPulse.CacheInfluence
import AsyncPulse.EffectFaults
set_option autoImplicit false

namespace AsyncPulse
open Effect

variable {γ χ α : Type} {cfg : Config} {C : MayCache Key Json γ χ}

abbrev Preparing (p : M α) : Prop := Prepares (fun _ e => e.isCache) (fun _ e => e.isCommit) p

abbrev Silent (p : M α) : Prop := Quiet (fun _ e => e.isCommit) p

abbrev Settling (Q : Except Exc α → Prop) (p : M α) : Prop := Settles (fun _ e => e.isCache) Q p

/-- All that `p` writes it commits at once, and a run without failures then ends with `Q`. -/
abbrev AllOrNothing (Q : Except Exc α → Prop) (p : M α) : Prop :=
  Staged (fun _ e => e.isCache) (fun _ e => e.isCommit) Q p

def Completes (r : Except Exc α) : Prop := (∃ a, r = .ok a) ∨ r = .error tokenReuse

theorem direct_changeRow (u : String) (f : UserModel → UserModel) : Direct (changeRow u f) := by
  apply Plain.bind (Plain.perform rfl rfl)
  intro rows
  apply (direct_scalarOne rows).bind
  intro loaded
  apply direct_now.bind
  intro t
  dsimp only
  split
  · exact trivial
  · exact Plain.bind (Plain.perform rfl rfl) fun _ => trivial

theorem direct_getUser (u : String) : Direct (getUser u) := by
  apply (direct_findUser _).bind
  intro user
  cases user <;> exact trivial

theorem direct_updateFields (u : String) (fields : List Field) :
    Direct (updateFields u fields) := by
  apply direct_raiseIf.bind
  intro _
  exact direct_changeRow u _

theorem direct_deactivate (u : User) : Direct u.deactivate := by
  apply direct_raiseIf.bind
  intro _
  exact direct_now.bind fun _ => trivial

theorem preparing_revokeUserSessions (u : String) : Preparing (revokeUserSessions u) := by
  apply (direct_getActiveSessionsForUser u).prepares.bind
  intro active
  apply (direct_revokeAllSessions u).prepares.bind
  intro _
  apply Prepares.forM
  intro s
  apply Prepares.bind (Prepares.perform rfl)
  intro _
  exact Prepares.perform rfl

theorem preparing_evict (s : UserSession) : Preparing (evict s) := by
  apply (direct_revoke s).prepares.bind
  intro s'
  apply (direct_updateSession s').prepares.bind
  intro _
  exact Prepares.suppress rfl

theorem allOrNothing_commit {Q : Except Exc α → Prop} {f : Unit → M α}
    (hquiet : ∀ u, Silent (f u)) (hset : ∀ u, Settling Q (f u)) :
    AllOrNothing Q (commit >>= f) := by
  refine .commit rfl rfl (fun x => ?_) fun u => hset u
  cases x with
  | ok u => exact hquiet u
  | error x => exact trivial

theorem settling_suppressSet (key : Key) (v : Json) (ttl : Int) :
    Settling (fun r => ∃ u, r = .ok u) (Prog.suppress (setJson key v ttl)) := Settles.suppress rfl

theorem silent_suppress {p : M Unit} (hp : Silent p) : Silent (Prog.suppress p) :=
  hp.tryCatch fun _ => trivial

theorem silent_setJson (key : Key) (v : Json) (ttl : Int) : Silent (setJson key v ttl) :=
  ⟨rfl, fun _ => trivial⟩

theorem silent_cacheDelete (key : Key) : Silent (cacheDelete key) := ⟨rfl, fun _ => trivial⟩

theorem allOrNothing_openSession {user : User} (hname : user.name ≠ none) (d ip : Option String) :
    AllOrNothing Completes (openSession cfg user d ip) := by
  apply direct_uuid4.prepares.staged
  intro sid
  apply direct_now.prepares.staged
  intro t
  apply (direct_createToken _ _ _ _).prepares.staged
  intro access
  apply (direct_createToken _ _ _ _).prepares.staged
  intro refresh
  apply (direct_create _ _ _ _ _ _).prepares.staged
  intro session
  apply (direct_createSession session).prepares.staged
  intro _
  apply allOrNothing_commit
  · intro _
    apply (silent_suppress (silent_setJson _ _ _)).bind
    intro _
    unfold loginResponse
    split <;> exact trivial
  · intro _
    apply (settling_suppressSet _ _ _).bind
    intro _
    unfold loginResponse
    split
    · rename_i hnone
      exact absurd hnone hname
    · exact .inl ⟨_, rfl⟩

theorem allOrNothing_breach (u : String) :
    AllOrNothing (α := TokenPair) Completes (do logoutAll u; throw tokenReuse) := by
  have hsilent : ∀ s : UserSession, Silent (do
      Prog.suppress (cacheDelete (.session s.id))
      Prog.suppress (cacheDelete (.grace s.id))) := by
    intro s
    apply (silent_suppress (silent_cacheDelete _)).bind
    intro _
    exact silent_suppress (silent_cacheDelete _)
  have hset : ∀ s : UserSession, Settling (fun r => ∃ u, r = .ok u) (do
      Prog.suppress (cacheDelete (.session s.id))
      Prog.suppress (cacheDelete (.grace s.id))) := by
    intro s
    apply Settles.bind (Settles.suppress rfl)
    intro _
    exact Settles.suppress rfl
  unfold logoutAll
  simp only [bind_assoc]
  apply (direct_getActiveSessionsForUser u).prepares.staged
  intro active
  apply (direct_revokeAllSessions u).prepares.staged
  intro _
  apply allOrNothing_commit
  · intro _
    exact (Quiet.forM hsilent).bind fun _ => trivial
  · intro _
    exact (Settles.forM hset).bind fun _ => .inr rfl

theorem allOrNothing_rotate (sid u : String) (session : UserSession) (ip : Option String) :
    AllOrNothing Completes (rotate cfg sid u session ip) := by
  apply (direct_revoke session).prepares.staged
  intro s'
  apply (direct_updateSession s').prepares.staged
  intro _
  apply Prepares.staged (Prepares.suppress rfl)
  intro _
  apply direct_now.prepares.staged
  intro t
  apply direct_uuid4.prepares.staged
  intro new
  apply (direct_createToken _ _ _ _).prepares.staged
  intro access
  apply (direct_createToken _ _ _ _).prepares.staged
  intro refresh
  apply (direct_create _ _ _ _ _ _).prepares.staged
  intro successor
  apply (direct_createSession successor).prepares.staged
  intro _
  apply allOrNothing_commit
  · intro _
    apply (silent_suppress (silent_setJson _ _ _)).bind
    intro _
    exact (silent_suppress (silent_setJson _ _ _)).bind fun _ => trivial
  · intro _
    apply (settling_suppressSet _ _ _).bind
    intro _
    exact (settling_suppressSet _ _ _).bind fun _ => .inl ⟨_, rfl⟩

theorem allOrNothing_checkAndRotate (sid u : String) (session : UserSession)
    (ip : Option String) : AllOrNothing Completes (checkAndRotate cfg sid u session ip) := by
  have hexp : Direct session.isExpired := direct_now.bind fun _ => trivial
  apply hexp.prepares.staged
  intro expired
  apply direct_raiseIf.prepares.staged
  intro _
  apply (direct_findUser _).prepares.staged
  intro user
  cases user with
  | none => exact .quiet trivial
  | some user =>
    apply direct_raiseIf.prepares.staged
    intro _
    exact allOrNothing_rotate sid u session ip

theorem allOrNothing_replayOrBreach (sid u : String) (revokedAt : Time) :
    AllOrNothing Completes (replayOrBreach sid u revokedAt) := by
  apply direct_now.prepares.staged
  intro t
  split
  · -- A replay writes nothing.
    apply Staged.quiet
    apply Quiet.bind
    · exact Quiet.tryCatch ⟨rfl, fun _ => trivial⟩ fun _ => trivial
    · intro cached
      split <;> exact trivial
  · exact allOrNothing_breach u

theorem allOrNothing_refreshToken (request : Token) (ip : Option String) :
    AllOrNothing Completes (refreshToken cfg request ip) := by
  have hdecode : Direct (tryCatch (decodeToken cfg request) fun _ =>
      throw (.invalidToken "Invalid or expired refresh token")) :=
    (direct_decodeToken request).tryCatch fun _ => ⟨_, rfl⟩
  apply hdecode.prepares.staged
  intro payload
  apply direct_raiseIf.prepares.staged
  intro _
  apply direct_raiseIf.prepares.staged
  intro _
  apply (direct_getSessionById _).prepares.staged
  intro session
  cases session with
  | none => exact .quiet trivial
  | some session =>
    dsimp only
    split
    · exact allOrNothing_replayOrBreach _ _ _
    · exact allOrNothing_checkAndRotate _ _ session ip

theorem allOrNothing_purgeUser (u : String) (a : α) : AllOrNothing Completes (do
    commit
    cacheDelete (.user u)
    return a) := by
  apply allOrNothing_commit
  · exact fun _ => (silent_cacheDelete _).bind fun _ => trivial
  · exact fun _ => ⟨rfl, fun _ => .inl ⟨_, rfl⟩⟩

theorem allOrNothing_changeStatus (u : String) (st : UserStatus) :
    AllOrNothing Completes (changeStatus u st) := by
  apply (direct_getUser u).prepares.staged
  intro user
  apply Prepares.staged (Prepares.ret _)
  intro user'
  apply (direct_changeRow u _).prepares.staged
  intro updated
  dsimp only
  split
  · apply (preparing_revokeUserSessions u).staged
    intro _
    exact allOrNothing_purgeUser u updated
  · exact allOrNothing_purgeUser u updated

theorem allOrNothing_deleteUser (u : String) : AllOrNothing Completes (deleteUser u) := by
  apply (direct_getUser u).prepares.staged
  intro user
  apply (direct_deactivate user).prepares.staged
  intro user'
  apply (direct_updateFields _ _).prepares.staged
  intro _
  apply (preparing_revokeUserSessions u).staged
  intro _
  apply allOrNothing_commit
  · exact fun _ => silent_cacheDelete _
  · exact fun _ => ⟨rfl, fun _ => .inl ⟨_, rfl⟩⟩

def authenticateUser (cfg : Config) (p : String) (d ip : Option String) (user : User) :
    M LoginResponse := do
  let valid ← verifyPassword cfg p user.hashedPassword
  Prog.raiseIf (valid = false) .invalidCredentials
  Prog.raiseIf (user.status = .suspended) .userSuspended
  Prog.raiseIf (user.status = .banned) .userBanned
  let activeSessions ← getActiveSessionsForUser user.id
  (toRevoke activeSessions).forM evict
  openSession cfg user d ip

theorem allOrNothing_authenticateUser {user : User} (hname : user.name ≠ none) (p : String)
    (d ip : Option String) : AllOrNothing Completes (authenticateUser cfg p d ip user) := by
  apply Prepares.staged (Prepares.ret _)
  intro valid
  apply direct_raiseIf.prepares.staged
  intro _
  apply direct_raiseIf.prepares.staged
  intro _
  apply direct_raiseIf.prepares.staged
  intro _
  apply (direct_getActiveSessionsForUser _).prepares.staged
  intro active
  apply Prepares.staged (Prepares.forM preparing_evict)
  intro _
  exact allOrNothing_openSession hname d ip

def Eff.isOverlong : {β : Type} → Eff β → Bool
  | _, .write v => !v.fits
  | _, _ => false

abbrev Futile (p : M α) : Prop := Terms.Keeps
  ⟨fun e => e.isCommit = false, fun e r => e.isOverlong = true → ∃ x, r = .error x⟩
  (fun _ => True) p

theorem futile_of_silent {p : M α} (hp : Silent p) : Futile p := by
  induction p with
  | ret r => trivial
  | op e k ih => exact ⟨hp.1, fun r _ => ih r (hp.2 r)⟩

theorem futile_bind {β : Type} {p : M α} {f : α → M β} (hp : Silent p)
    (hf : ∀ a, Futile (f a)) : Futile (p >>= f) :=
  Terms.Keeps.bind (futile_of_silent hp) (fun a _ => hf a) fun _ _ => trivial

theorem silent_evict (s : UserSession) : Silent (evict s) := by
  apply (direct_revoke s).quiet.bind
  intro s'
  apply (direct_updateSession s').quiet.bind
  intro _
  exact silent_suppress (silent_cacheDelete _)

theorem futile_openSession {user : User} {d ip : Option String}
    (hfits : ¬ (fitsOpt 255 d = true ∧ fitsOpt 45 ip = true)) :
    Futile (openSession cfg user d ip) := by
  apply futile_bind direct_uuid4.quiet
  intro sid
  apply futile_bind direct_now.quiet
  intro t
  apply futile_bind (direct_createToken _ _ _ _).quiet
  intro access
  apply futile_bind (direct_createToken _ _ _ _).quiet
  intro refresh
  unfold UserSession.create
  rw [bind_assoc]
  apply futile_bind direct_now.quiet
  intro t'
  rw [pure_bind]
  refine ⟨rfl, fun r hr => ?_⟩
  have hlong : (Write.insertSession (UserSession.toModel
      { id := sid, userId := user.id, expiresAt := t + days cfg.refreshTokenExpireDays,
        deviceInfo := d, ipAddress := ip, createdAt := t', revokedAt := none,
        previousSessionId := none })).fits = false := by
    simpa [Write.fits, UserSession.toModel] using hfits
  obtain ⟨x, rfl⟩ := hr (by simp [Eff.isOverlong, hlong])
  trivial

theorem futile_authenticateUser {user : User} {p : String} {d ip : Option String}
    (hfits : ¬ (fitsOpt 255 d = true ∧ fitsOpt 45 ip = true)) :
    Futile (authenticateUser cfg p d ip user) := by
  apply futile_bind (show Silent (verifyPassword cfg p user.hashedPassword) from trivial)
  intro valid
  apply futile_bind direct_raiseIf.quiet
  intro _
  apply futile_bind direct_raiseIf.quiet
  intro _
  apply futile_bind direct_raiseIf.quiet
  intro _
  apply futile_bind (direct_getActiveSessionsForUser _).quiet
  intro active
  apply futile_bind (Quiet.forM silent_evict)
  intro _
  exact futile_openSession hfits

def Call.isMultiWrite : Call → Bool
  | .authenticate _ _ _ _ | .refreshToken _ _ | .changeStatus _ _ | .deleteUser _ => true
  | _ => false

theorem Completes.map {α β : Type} {f : α → β} {r : Except Exc α} (h : Completes r) :
    Completes (r.map f) := by
  obtain ⟨a, rfl⟩ | rfl := h
  · exact .inl ⟨f a, rfl⟩
  · exact .inr rfl

/-- Wherever collaborators raise, with the cache answering as `ρ` says, the committed tables are
those from before the call or those that a complete successful call leaves. What was flushed goes
with the database session. -/
abbrev AllOrNothingAt (cfg : Config) (C : MayCache Key Json γ χ) (ρ : Effect.Replies Eff Exc)
    (i : Nat) (k : Call) (w : World γ) : Prop :=
  (semantics cfg C).Atomic (fun _ e => e.isCache) World.db Completes ρ i 0 (k.body cfg) w

end AsyncPulse
