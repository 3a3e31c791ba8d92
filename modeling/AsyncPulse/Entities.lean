import AsyncPulse.Records
set_option autoImplicit false

namespace AsyncPulse

/-- `if x:` on a value read from JSON. -/
def JVal.truthy : JVal → Bool
  | .null => false
  | .str s => s ≠ ""
  | .tok (.raw s) => s ≠ ""
  | _ => true

/-- `str(x)` where the program goes on to use the text as an id or a name. -/
def JVal.asString : JVal → String
  | .str s => s
  | .tok (.raw s) => s
  | .null => "None"
  | _ => ""

/-- `str(x)` where the program goes on to use the text as a token. -/
def JVal.asToken : JVal → Token
  | .tok t => t
  | v => .raw v.asString

/-- `datetime.fromisoformat(str(x))`. -/
def JVal.fromIso : JVal → Except Exc Time
  | .iso t => .ok t
  | _ => .error .valueError

def Json.truthy : Json → Bool
  | .leaf v => v.truthy
  | .dict fields => !fields.isEmpty

/-- `data[name]`. -/
def Json.item : Json → String → Except Exc JVal
  | .dict fields, name =>
    match fields.lookup name with
    | some v => .ok v
    | none => .error .keyError
  | .leaf _, _ => .error .typeError

/-- `data.get(name)`, where a missing name reads as null. -/
def Json.getD : Json → String → Except Exc JVal
  | .dict fields, name => .ok ((fields.lookup name).getD .null)
  | .leaf _, _ => .error .typeError

namespace User

def validTransitions : UserStatus → List UserStatus
  | .pendingVerification => [.active, .banned]
  | .active => [.suspended, .banned]
  | .suspended => [.active, .banned]
  | .banned => []

def transitionTo (u : User) (newStatus : UserStatus) : Except Exc User :=
  if newStatus = u.status then .ok u
  else if newStatus ∈ validTransitions u.status then .ok { u with status := newStatus }
  else .error (.invalidStatusTransition u.id u.status newStatus)

theorem transitionTo_ok {u v : User} {s : UserStatus} (h : u.transitionTo s = .ok v) :
    v = { u with status := s } := by
  unfold transitionTo at h
  split at h
  · rename_i hs
    cases h
    rw [hs]
  · split at h <;> cases h
    rfl

theorem transitionTo_valid {u v : User} {s : UserStatus} (h : u.transitionTo s = .ok v) :
    s = u.status ∨ s ∈ validTransitions u.status := by
  unfold transitionTo at h
  split at h
  · exact .inl ‹_›
  · split at h
    · exact .inr ‹_›
    · cases h

/-- The identity projection kept under `user:{id}`. -/
def toDict (u : User) : Json :=
  .dict [("id", .str u.id), ("email", .str u.email), ("status", .str u.status.value),
    ("role", .str u.role.value)]

def fromDict (data : Json) : Except Exc User := do
  let id ← data.item "id"
  let email ← data.item "email"
  let status ← data.item "status"
  let role ← data.item "role"
  match UserStatus.ofValue status.asString, UserRole.ofValue role.asString with
  | some status, some role =>
    .ok { id := id.asString, email := email.asString, username := "", name := some "",
          hashedPassword := "", status := status, role := role, deletedAt := none,
          createdAt := none, updatedAt := none }
  | _, _ => .error .valueError

/-- Everything but identity and rights is blank in a cached user. -/
def blank (u : User) : User :=
  { id := u.id, email := u.email, username := "", name := some "", hashedPassword := "",
    status := u.status, role := u.role, deletedAt := none, createdAt := none, updatedAt := none }

theorem fromDict_toDict (u : User) : fromDict u.toDict = .ok u.blank := by
  obtain ⟨id, email, username, name, hashedPassword, status, role, _, _, _⟩ := u
  cases status <;> cases role <;> rfl

end User

namespace SessionValidation

def isRevoked (v : SessionValidation) : Bool := v.revokedAt.isSome

def toDict (v : SessionValidation) : Json :=
  .dict [("id", .str v.id), ("user_id", .str v.userId), ("expires_at", .iso v.expiresAt),
    ("revoked_at", match v.revokedAt with | some t => .iso t | none => .null)]

def fromDict (data : Json) : Except Exc SessionValidation := do
  let id ← data.item "id"
  let userId ← data.item "user_id"
  let expiresAt ← (← data.item "expires_at").fromIso
  let revoked ← data.getD "revoked_at"
  let revokedAt ← if revoked.truthy then some <$> revoked.fromIso else .ok none
  .ok { id := id.asString, userId := userId.asString, expiresAt := expiresAt,
        revokedAt := revokedAt }

theorem fromDict_toDict (v : SessionValidation) : fromDict v.toDict = .ok v := by
  obtain ⟨id, userId, expiresAt, revokedAt⟩ := v
  cases revokedAt <;> rfl

theorem toDict_injective {v v' : SessionValidation} (h : v.toDict = v'.toDict) : v = v' := by
  have hd := fromDict_toDict v
  rw [h, fromDict_toDict] at hd
  exact (Except.ok.inj hd).symm

def fromSession (s : UserSession) : SessionValidation :=
  { id := s.id, userId := s.userId, expiresAt := s.expiresAt, revokedAt := s.revokedAt }

end SessionValidation

namespace TokenPair

def toDict (p : TokenPair) : Json :=
  .dict [("access_token", .tok p.accessToken), ("refresh_token", .tok p.refreshToken),
    ("token_type", .str p.tokenType)]

def fromDict (data : Json) : Except Exc TokenPair := do
  let access ← data.item "access_token"
  let refresh ← data.item "refresh_token"
  .ok { accessToken := access.asToken, refreshToken := refresh.asToken }

theorem fromDict_toDict (a r : Token) :
    fromDict (toDict { accessToken := a, refreshToken := r }) =
      .ok { accessToken := a, refreshToken := r } := rfl

end TokenPair

namespace UserSession

def isRevoked (s : UserSession) : Bool := s.revokedAt.isSome

end UserSession

/-- `_to_session_entity`. -/
def SessionModel.toEntity (m : SessionModel) : UserSession :=
  { id := m.id, userId := m.userId, expiresAt := m.expiresAt, deviceInfo := m.deviceInfo,
    ipAddress := m.ipAddress, createdAt := m.createdAt, revokedAt := m.revokedAt,
    previousSessionId := m.previousSessionId }

/-- The `SessionModel(...)` that `create_session` and `update_session` build. -/
def UserSession.toModel (s : UserSession) : SessionModel :=
  { id := s.id, userId := s.userId, deviceInfo := s.deviceInfo, ipAddress := s.ipAddress,
    createdAt := s.createdAt, expiresAt := s.expiresAt, revokedAt := s.revokedAt,
    previousSessionId := s.previousSessionId }

@[simp] theorem SessionModel.toModel_toEntity (m : SessionModel) : m.toEntity.toModel = m := rfl

/-- `_to_entity`. -/
def UserModel.toEntity (m : UserModel) : User :=
  { id := m.id, email := m.email, username := m.username, name := m.name,
    hashedPassword := m.hashedPassword, status := m.status, role := m.role,
    deletedAt := m.deletedAt, createdAt := some m.createdAt, updatedAt := some m.updatedAt }

end AsyncPulse
