import Mathlib.Data.List.Basic
set_option autoImplicit false

namespace AsyncPulse

/-- An instant in UTC, in microseconds. A naive timestamp is read as UTC, as every
`replace(tzinfo=UTC)` of the source does. -/
abbrev Time := Int

def seconds (n : Int) : Time := n * 1000000

def days (n : Int) : Time := seconds (n * 86400)

/-- `timegm(utctimetuple())`: the fraction of the second is dropped. -/
def wholeSeconds (t : Time) : Int := t / 1000000

inductive UserStatus where
  | pendingVerification
  | active
  | suspended
  | banned
  deriving DecidableEq, Repr

def UserStatus.value : UserStatus → String
  | .pendingVerification => "pending_verification"
  | .active => "active"
  | .suspended => "suspended"
  | .banned => "banned"

def UserStatus.ofValue : String → Option UserStatus
  | "pending_verification" => some .pendingVerification
  | "active" => some .active
  | "suspended" => some .suspended
  | "banned" => some .banned
  | _ => none

@[simp] theorem UserStatus.ofValue_value (s : UserStatus) : ofValue s.value = some s := by
  cases s <;> rfl

inductive UserRole where
  | user
  | admin
  | superuser
  deriving DecidableEq, Repr

def UserRole.value : UserRole → String
  | .user => "user"
  | .admin => "admin"
  | .superuser => "superuser"

def UserRole.ofValue : String → Option UserRole
  | "user" => some .user
  | "admin" => some .admin
  | "superuser" => some .superuser
  | _ => none

@[simp] theorem UserRole.ofValue_value (r : UserRole) : ofValue r.value = some r := by
  cases r <;> rfl

/-- `ROLE_HIERARCHY`. -/
def UserRole.rank : UserRole → Nat
  | .user => 1
  | .admin => 2
  | .superuser => 3

inductive TokenType where
  | access
  | refresh
  deriving DecidableEq, Repr

/-- The payload `_create_token` signs. `exp` is in whole seconds. -/
structure Claims where
  sub : String
  exp : Int
  type : TokenType
  sid : Option String
  jti : Option String
  deriving DecidableEq, Repr

/-- A bearer token as a client presents it: something the service has signed, or any other
text. -/
inductive Token where
  | signed (c : Claims)
  | raw (s : String)
  deriving DecidableEq, Repr

inductive ErrorClass where
  | invalidCredentialsError
  | invalidTokenError
  | userNotFoundError
  | userAlreadyExistsError
  | insufficientPermissionsError
  | userAlreadyInactiveError
  | invalidStatusTransitionError
  | userSuspendedError
  | userBannedError
  deriving DecidableEq, Repr

/-- An application error with its message, or an exception of a library. -/
inductive Exc where
  | app (cls : ErrorClass) (message : String)
  | jwtError
  | validationError
  | valueError
  | typeError
  | keyError
  | noResultFound
  | multipleResultsFound
  | integrityError
  | dataError
  | operationalError
  deriving DecidableEq, Repr

namespace Exc

def invalidCredentials : Exc := .app .invalidCredentialsError "Invalid credentials"
def invalidToken (message : String) : Exc := .app .invalidTokenError message
def userNotFound (userId : String) : Exc :=
  .app .userNotFoundError (if userId = "" then "User not found" else "User not found: " ++ userId)
def userAlreadyExists (detail : String) : Exc := .app .userAlreadyExistsError detail
def insufficientPermissions (message : String) : Exc := .app .insufficientPermissionsError message
def userAlreadyInactive (userId : String) : Exc :=
  .app .userAlreadyInactiveError
    (if userId = "" then "User is already inactive" else "User is already inactive: " ++ userId)
def invalidStatusTransition (userId : String) (fromStatus toStatus : UserStatus) : Exc :=
  .app .invalidStatusTransitionError
    ("Cannot transition user " ++ userId ++ " from " ++ fromStatus.value ++ " to " ++ toStatus.value)
def userSuspended : Exc := .app .userSuspendedError "User account has been suspended"
def userBanned : Exc := .app .userBannedError "User account has been banned"

end Exc

structure UserModel where
  id : String
  email : String
  name : Option String
  username : String
  hashedPassword : String
  status : UserStatus
  role : UserRole
  deletedAt : Option Time
  createdAt : Time
  updatedAt : Time
  deriving DecidableEq, Repr

structure SessionModel where
  id : String
  userId : String
  deviceInfo : Option String
  ipAddress : Option String
  createdAt : Time
  expiresAt : Time
  revokedAt : Option Time
  previousSessionId : Option String
  deriving DecidableEq, Repr

structure User where
  id : String
  email : String
  username : String
  name : Option String
  hashedPassword : String
  status : UserStatus
  role : UserRole
  deletedAt : Option Time
  createdAt : Option Time
  updatedAt : Option Time
  deriving DecidableEq, Repr

structure UserSession where
  id : String
  userId : String
  expiresAt : Time
  deviceInfo : Option String
  ipAddress : Option String
  createdAt : Time
  revokedAt : Option Time
  previousSessionId : Option String
  deriving DecidableEq, Repr

structure SessionValidation where
  id : String
  userId : String
  expiresAt : Time
  revokedAt : Option Time
  deriving DecidableEq, Repr

structure TokenPair where
  accessToken : Token
  refreshToken : Token
  tokenType : String := "bearer"
  deriving DecidableEq, Repr

structure UserInfo where
  userId : String
  email : String
  name : String
  username : String
  role : String
  deriving DecidableEq, Repr

structure LoginResponse where
  userInfo : UserInfo
  tokenPair : TokenPair
  deriving DecidableEq, Repr

structure UserCreate where
  email : String
  name : String
  username : String
  password : String
  deriving DecidableEq, Repr

structure UserUpdate where
  email : Option String
  username : Option String
  deriving DecidableEq, Repr

/-- A JSON leaf. The texts of tokens and of ISO timestamps stay symbolic. -/
inductive JVal where
  | null
  | str (s : String)
  | tok (t : Token)
  | iso (t : Time)
  deriving DecidableEq, Repr

inductive Json where
  | leaf (v : JVal)
  | dict (fields : List (String × JVal))
  deriving DecidableEq, Repr

inductive Key where
  | session (id : String)
  | grace (id : String)
  | user (id : String)
  deriving DecidableEq, Repr

def Key.text : Key → String
  | .session id => "session:" ++ id
  | .grace id => "grace:" ++ id
  | .user id => "user:" ++ id

end AsyncPulse
