import AsyncPulse.Repositories
set_option autoImplicit false

namespace AsyncPulse
open Effect

variable (cfg : Config)

/-! ### `shared/security.py` -/

def hashPassword (password : String) : M String := .perform (.hashpw password)

def verifyPassword (plain hashed : String) : M Bool := .ret (cfg.checkpw plain hashed)

def createToken (subject : String) (expiresDelta : Time) (tokenType : TokenType)
    (sessionId : Option String) : M Token := do
  let t ← now
  let id := if sessionId = some "" then none else sessionId
  Prog.perform (.encode
    { sub := subject, exp := wholeSeconds (t + expiresDelta), type := tokenType,
      sid := if tokenType = .refresh then none else id,
      jti := if tokenType = .refresh then id else none })

def createAccessToken (subject sessionId : String) : M Token :=
  createToken subject (seconds (cfg.accessTokenExpireMinutes * 60)) .access (some sessionId)

def createRefreshToken (subject sessionId : String) (expiresIn : Option Int) : M Token :=
  createToken subject
    (match expiresIn with
      | some n => seconds n
      | none => days cfg.refreshTokenExpireDays)
    .refresh (some sessionId)

def decodeToken (token : Token) : M Claims :=
  match cfg.jose.verify token with
  | none => throw .jwtError
  | some c => do
    let t ← now
    Prog.raiseIf (c.exp < wholeSeconds t) .jwtError
    return c

/-! ### `AuthSessionRevoker` -/

def revokeUserSessions (userId : String) : M Unit := do
  let activeSessions ← getActiveSessionsForUser userId
  revokeAllSessions userId
  activeSessions.forM fun s => do
    cacheDelete (.session s.id)
    cacheDelete (.grace s.id)

/-! ### `UserService` -/

def lockoutStatuses : List UserStatus := [.suspended, .banned]

def createUser (payload : UserCreate) : M User := do
  let existing ← getByEmailOrUsername payload.email payload.username
  match existing with
  | some u =>
    if u.email = payload.email then
      throw (.userAlreadyExists "A user with this email already exists")
    else throw (.userAlreadyExists "A user with this username already exists")
  | none => do
    let userId ← uuid4
    let hashed ← hashPassword payload.password
    let user ← createRow userId payload.email payload.name payload.username hashed .active
    commit
    return user

def getUser (userId : String) : M User := do
  let user ← getById userId
  match user with
  | none => throw (.userNotFound userId)
  | some u => return u

/-- One of the two uniqueness checks of `update_user`. -/
def checkFree (userId : String) (find : String → M (Option User)) (detail : String) :
    Option String → M Unit
  | none => pure ()
  | some v => do
    let existing ← find v
    match existing with
    | some u => Prog.raiseIf (u.id ≠ userId) (.userAlreadyExists detail)
    | none => pure ()

def updateUser (userId : String) (payload : UserUpdate) : M User := do
  let user ← getUser userId
  checkFree userId getByEmail "A user with this email already exists" payload.email
  checkFree userId getByUsername "A user with this username already exists" payload.username
  let fields := (payload.email.map Field.email).toList ++
    (payload.username.map Field.username).toList
  if fields = [] then return user
  else do
    let user ← updateFields user.id fields
    commit
    cacheDelete (.user userId)
    return user

def setPassword (userId newPassword : String) : M User := do
  let _ ← getUser userId
  let hashed ← hashPassword newPassword
  let updated ← setCredentials userId hashed
  commit
  cacheDelete (.user userId)
  return updated

def changeStatus (userId : String) (newStatus : UserStatus) : M User := do
  let user ← getUser userId
  let user ← Prog.ret (user.transitionTo newStatus)
  let updated ← setStatus userId user.status
  if user.status ∈ lockoutStatuses then revokeUserSessions userId else pure ()
  commit
  cacheDelete (.user userId)
  return updated

def User.deactivate (u : User) : M User := do
  Prog.raiseIf u.deletedAt.isSome (.userAlreadyInactive u.id)
  let t ← now
  return { u with deletedAt := some t }

def deleteUser (userId : String) : M Unit := do
  let user ← getUser userId
  let user ← user.deactivate
  let _ ← updateFields user.id [.deletedAt user.deletedAt]
  revokeUserSessions userId
  commit
  cacheDelete (.user userId)

/-! ### `AuthService` -/

/-- `_GRACE_WINDOW_MS`, 30 seconds. -/
def graceWindow : Time := seconds 30

/-- The device-limit loop of `authenticate`, for one session. -/
def evict (s : UserSession) : M Unit := do
  let s ← s.revoke
  updateSession s
  Prog.suppress (cacheDelete (.session s.id))

/-- The sessions `authenticate` ends: all but the four newest, once there are five. -/
def toRevoke (activeSessions : List UserSession) : List UserSession :=
  if 5 ≤ activeSessions.length then activeSessions.take (activeSessions.length - 4) else []

/-- `UserInfo(...)`: a user without a name does not validate. -/
def loginResponse (user : User) (accessToken refreshToken : Token) : M LoginResponse :=
  match user.name with
  | none => throw .validationError
  | some name => return {
      userInfo := { userId := user.id, email := user.email, name := name,
                    username := user.username, role := user.role.value }
      tokenPair := { accessToken := accessToken, refreshToken := refreshToken } }

/-- The second half of `authenticate`: the new session and its tokens. -/
def openSession (user : User) (deviceInfo ipAddress : Option String) : M LoginResponse := do
  let sessionId ← uuid4
  let t ← now
  let accessToken ← createAccessToken cfg user.id sessionId
  let refreshToken ← createRefreshToken cfg user.id sessionId none
  let session ← UserSession.create sessionId user.id (t + days cfg.refreshTokenExpireDays)
    deviceInfo ipAddress none
  createSession session
  commit
  Prog.suppress (setJson (.session sessionId) (SessionValidation.fromSession session).toDict
    (cfg.refreshTokenExpireDays * 86400))
  loginResponse user accessToken refreshToken

def authenticate (email password : String) (deviceInfo ipAddress : Option String) :
    M LoginResponse := do
  let user ← getByEmail email
  match user with
  | none => throw .invalidCredentials
  | some user => do
    let valid ← verifyPassword cfg password user.hashedPassword
    Prog.raiseIf (valid = false) .invalidCredentials
    Prog.raiseIf (user.status = .suspended) .userSuspended
    Prog.raiseIf (user.status = .banned) .userBanned
    let activeSessions ← getActiveSessionsForUser user.id
    (toRevoke activeSessions).forM evict
    openSession cfg user deviceInfo ipAddress

def logout (sessionId : String) : M Unit := do
  let session ← getSessionById sessionId
  match session with
  | none => pure ()
  | some session => do
    let session ← session.revoke
    updateSession session
    commit
    Prog.suppress (cacheDelete (.session sessionId))
    Prog.suppress (cacheDelete (.grace sessionId))

def logoutAll (userId : String) : M Unit := do
  let activeSessions ← getActiveSessionsForUser userId
  revokeAllSessions userId
  commit
  activeSessions.forM fun s => do
    Prog.suppress (cacheDelete (.session s.id))
    Prog.suppress (cacheDelete (.grace s.id))

def tokenReuse : Exc := .invalidToken "Token reuse detected. All sessions revoked."

/-- Step 2 of `refresh_token`: the row is revoked, and its timestamp decides between a benign
retry and a breach. -/
def replayOrBreach (sessionId userId : String) (revokedAt : Time) : M TokenPair := do
  let t ← now
  if t - revokedAt ≤ graceWindow then do
    let cached ← tryCatch (getJson (.grace sessionId)) fun _ => pure none
    match cached.filter Json.truthy with
    | some data => Prog.ret (TokenPair.fromDict data)
    | none => throw (.invalidToken "Concurrent refresh — please retry")
  else do
    logoutAll userId
    throw tokenReuse

/-- `max(int((chain_expires_at - now).total_seconds()), 0)`. -/
def remainingSeconds (expiresAt t : Time) : Int := max (Int.tdiv (expiresAt - t) 1000000) 0

/-- Step 4 of `refresh_token`: the old session is revoked and its successor inserted in one
transaction; the caches follow the commit. -/
def rotate (sessionId userId : String) (session : UserSession) (ipAddress : Option String) :
    M TokenPair := do
  let session ← session.revoke
  updateSession session
  Prog.suppress (cacheDelete (.session sessionId))
  let t ← now
  let remaining := remainingSeconds session.expiresAt t
  let newSessionId ← uuid4
  let newAccessToken ← createAccessToken cfg userId newSessionId
  let newRefreshToken ← createRefreshToken cfg userId newSessionId (some remaining)
  let newSession ← UserSession.create newSessionId userId session.expiresAt session.deviceInfo
    ipAddress (some session.id)
  createSession newSession
  commit
  Prog.suppress (setJson (.session newSessionId) (SessionValidation.fromSession newSession).toDict
    remaining)
  let newTokens : TokenPair := { accessToken := newAccessToken, refreshToken := newRefreshToken }
  Prog.suppress (setJson (.grace sessionId) newTokens.toDict 30)
  return newTokens

/-- Step 3 of `refresh_token`: only a live session of a user in good standing is rotated. -/
def checkAndRotate (sessionId userId : String) (session : UserSession)
    (ipAddress : Option String) : M TokenPair := do
  let expired ← session.isExpired
  Prog.raiseIf (expired = true) (.invalidToken "Refresh token has expired")
  let user ← getById userId
  match user with
  | none => throw (.invalidToken "User account is inactive or blocked")
  | some user => do
    Prog.raiseIf (user.status = .banned ∨ user.status = .suspended)
      (.invalidToken "User account is inactive or blocked")
    rotate cfg sessionId userId session ipAddress

def refreshToken (request : Token) (ipAddress : Option String) : M TokenPair := do
  let payload ← tryCatch (decodeToken cfg request) fun _ =>
    throw (.invalidToken "Invalid or expired refresh token")
  Prog.raiseIf (payload.type ≠ .refresh) (.invalidToken "Token is not a refresh token")
  let sessionId := payload.jti.getD ""
  let userId := payload.sub
  Prog.raiseIf (sessionId = "" ∨ userId = "") (.invalidToken "Invalid token payload")
  let session ← getSessionById sessionId
  match session with
  | none => throw (.invalidToken "Session not found")
  | some session =>
    match session.revokedAt with
    | some revokedAt => replayOrBreach sessionId userId revokedAt
    | none => checkAndRotate cfg sessionId userId session ipAddress

/-! ### `get_current_user` -/

/-- Cache-aside lookup of the session: the cache first, then the row, which warms it. -/
def lookupSession (sessionId : String) : M (Option SessionValidation) := do
  let data ← getJson (.session sessionId)
  match data.filter Json.truthy with
  | some data => do
    let v ← Prog.ret (SessionValidation.fromDict data)
    return some v
  | none => do
    let full ← getSessionById sessionId
    match full with
    | none => return none
    | some full => do
      let v := SessionValidation.fromSession full
      setJson (.session sessionId) v.toDict 3600
      return some v

def lookupUser (userId : String) : M User := do
  let data ← getJson (.user userId)
  match data.filter Json.truthy with
  | some data => Prog.ret (User.fromDict data)
  | none => do
    let user ← getById userId
    match user with
    | none => throw (.invalidToken "User profile not found")
    | some user => do
      setJson (.user userId) user.toDict 3600
      return user

def getCurrentUser (authorization : Token) : M User := do
  let payload ← tryCatch (decodeToken cfg authorization) fun e =>
    if e = .jwtError then throw (.invalidToken "Invalid or expired token") else throw e
  Prog.raiseIf (payload.type ≠ .access) (.invalidToken "Token is not an access token")
  let sessionId := payload.sid.getD ""
  let userId := payload.sub
  Prog.raiseIf (userId = "" ∨ sessionId = "") (.invalidToken "Invalid token payload")
  let session ← lookupSession sessionId
  match session with
  | none => throw (.invalidToken "Session is invalid or has been logged out")
  | some session => do
    let active ← session.isActive
    Prog.raiseIf (active = false) (.invalidToken "Session is invalid or has been logged out")
    Prog.raiseIf (session.userId ≠ userId) (.invalidToken "Session does not belong to this user")
    let user ← lookupUser userId
    Prog.raiseIf (user.status = .pendingVerification)
      (.invalidToken "User email verification is pending")
    Prog.raiseIf (user.status = .suspended) (.invalidToken "User account has been suspended")
    Prog.raiseIf (user.status = .banned) (.invalidToken "User account has been banned")
    return user

end AsyncPulse
