import AsyncPulse.World
set_option autoImplicit false

namespace AsyncPulse
open Effect

abbrev M (α : Type) := Prog Eff Exc α

def now : M Time := .perform .now
def uuid4 : M String := .perform .uuid4
def commit : M Unit := .perform .commit
def getJson (k : Key) : M (Option Json) := .perform (.cacheGet k)
def setJson (k : Key) (v : Json) (ttl : Int) : M Unit := .perform (.cacheSet k v (some ttl))
def cacheDelete (k : Key) : M Unit := .perform (.cacheDelete k)

def scalarOneOrNone {α : Type} : List α → M (Option α)
  | [] => pure none
  | [a] => pure (some a)
  | _ => throw .multipleResultsFound

def scalarOne {α : Type} : List α → M α
  | [] => throw .noResultFound
  | [a] => pure a
  | _ => throw .multipleResultsFound

def UserSession.create (sessionId userId : String) (expiresAt : Time)
    (deviceInfo ipAddress previousSessionId : Option String) : M UserSession := do
  let t ← now
  return { id := sessionId, userId := userId, expiresAt := expiresAt, deviceInfo := deviceInfo,
           ipAddress := ipAddress, createdAt := t, revokedAt := none,
           previousSessionId := previousSessionId }

/-- `revoke()`: an earlier revocation keeps its timestamp. -/
def UserSession.revoke (s : UserSession) : M UserSession :=
  match s.revokedAt with
  | some _ => pure s
  | none => do
    let t ← now
    return { s with revokedAt := some t }

def UserSession.isExpired (s : UserSession) : M Bool := do
  let t ← now
  return t > s.expiresAt

def SessionValidation.isActive (v : SessionValidation) : M Bool := do
  let t ← now
  return !(t > v.expiresAt) && !v.isRevoked

/-! ### `AuthRepository` -/

def createSession (s : UserSession) : M Unit := .perform (.write (.insertSession s.toModel))

def getSessionById (sessionId : String) : M (Option UserSession) := do
  let rows ← Prog.perform (.selectSessions (.byId sessionId))
  let model ← scalarOneOrNone rows
  return model.map SessionModel.toEntity

def getActiveSessionsForUser (userId : String) : M (List UserSession) := do
  let t ← now
  let models ← Prog.perform (.selectSessions (.activeOf userId t))
  return models.map SessionModel.toEntity

/-- `Session.merge`: the row is loaded again and becomes the entity, column by column.
Nothing is sent when they agree. -/
def updateSession (s : UserSession) : M Unit := do
  let rows ← Prog.perform (.selectSessions (.byId s.id))
  match rows with
  | [] => Prog.perform (.write (.insertSession s.toModel))
  | loaded :: _ =>
    if s.toModel = loaded then pure ()
    else Prog.perform (.write (.updateSession loaded s.toModel))

def revokeAllSessions (userId : String) : M Unit := do
  let models ← Prog.perform (.selectSessions (.unrevokedOf userId))
  let t ← now
  models.forM fun m => Prog.perform (.write (.updateSession m { m with revokedAt := some t }))

/-! ### `UserRepository` -/

def findUser (q : UserQuery) : M (Option User) := do
  let rows ← Prog.perform (.selectUsers q)
  let model ← scalarOneOrNone rows
  return model.map UserModel.toEntity

def getById (userId : String) : M (Option User) := findUser (.byId userId)
def getByEmail (email : String) : M (Option User) := findUser (.byEmail email)
def getByUsername (username : String) : M (Option User) := findUser (.byUsername username)
def getByEmailOrUsername (email username : String) : M (Option User) :=
  findUser (.byEmailOrUsername email username)

def listRows (offset limit : Nat) : M (List User × Nat) := do
  let total ← Prog.perform .countUsers
  let models ← Prog.perform (.selectUsers (.page offset limit))
  return (models.map UserModel.toEntity, total)

def createRow (userId email name username hashedPassword : String) (status : UserStatus) :
    M User := do
  let created ← now
  let updated ← now
  let model : UserModel :=
    { id := userId, email := email, name := some name, username := username,
      hashedPassword := hashedPassword, status := status, role := .user, deletedAt := none,
      createdAt := created, updatedAt := updated }
  Prog.perform (.write (.insertUser model))
  return model.toEntity

/-- Loads the row, changes it, stamps `updated_at` and flushes: the shape of `update`,
`set_credentials` and `set_status`. -/
def changeRow (userId : String) (f : UserModel → UserModel) : M User := do
  let rows ← Prog.perform (.selectUsers (.row userId))
  let loaded ← scalarOne rows
  let t ← now
  let new := { f loaded with updatedAt := t }
  if new = loaded then pure ()
  else Prog.perform (.write (.updateUser loaded new))
  return new.toEntity

/-- A keyword argument of `update`. -/
inductive Field where
  | email (v : String)
  | username (v : String)
  | deletedAt (v : Option Time)
  | hashedPassword (v : String)
  | status (v : UserStatus)
  | role (v : UserRole)
  deriving DecidableEq, Repr

def Field.forbidden : Field → Bool
  | .hashedPassword _ | .status _ | .role _ => true
  | _ => false

/-- `setattr(model, key, value)`. -/
def UserModel.setField (m : UserModel) : Field → UserModel
  | .email v => { m with email := v }
  | .username v => { m with username := v }
  | .deletedAt v => { m with deletedAt := v }
  | .hashedPassword v => { m with hashedPassword := v }
  | .status v => { m with status := v }
  | .role v => { m with role := v }

def updateFields (userId : String) (fields : List Field) : M User := do
  Prog.raiseIf (fields.any Field.forbidden) .typeError
  changeRow userId fun m => fields.foldl UserModel.setField m

def setCredentials (userId hashedPassword : String) : M User :=
  changeRow userId fun m => { m with hashedPassword := hashedPassword }

def setStatus (userId : String) (status : UserStatus) : M User :=
  changeRow userId fun m => { m with status := status }

end AsyncPulse
