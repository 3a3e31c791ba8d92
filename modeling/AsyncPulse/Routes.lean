import AsyncPulse.ErrorEnvelope
import AsyncPulse.Requests
set_option autoImplicit false

namespace AsyncPulse
open Effect

structure UserRead where
  id : String
  email : String
  username : String
  name : String
  status : UserStatus
  role : UserRole
  isActive : Bool
  isSuperuser : Bool
  createdAt : Time
  updatedAt : Time
  deriving DecidableEq, Repr

namespace User

def isFullyActive (u : User) : Bool := u.deletedAt.isNone && u.status = .active

def isSuperuser (u : User) : Bool := u.role = .superuser

end User

/-- `UserRead.model_validate`. Nothing when `pydantic` refuses the user. -/
def UserRead.modelValidate (emailStr : String → Option String) (u : User) : Option UserRead := do
  let email ← emailStr u.email
  let name ← u.name
  let createdAt ← u.createdAt
  let updatedAt ← u.updatedAt
  return { id := u.id, email := email, username := u.username, name := name, status := u.status
           role := u.role, isActive := u.isFullyActive, isSuperuser := u.isSuperuser
           createdAt := createdAt, updatedAt := updatedAt }

inductive Data where
  | user (u : UserRead)
  | paged (items : List UserRead) (total page pageSize : Nat)
  | login (r : LoginResponse)
  | pair (p : TokenPair)
  deriving DecidableEq, Repr

structure Success where
  success : Bool := true
  message : String
  data : Data
  timestamp : String
  deriving DecidableEq, Repr

inductive Body where
  | empty
  | success (s : Success)
  | error (c : Content)
  deriving DecidableEq, Repr

def Body.flag : Body → Option Bool
  | .success s => some s.success
  | .error (.json e) => some e.success
  | _ => none

structure Reply where
  statusCode : Int
  body : Body
  deriving DecidableEq, Repr

/-- `PageParams`: a request out of bounds is refused before the service is called. -/
structure PageParams where
  page : Nat
  pageSize : Nat
  page_pos : 1 ≤ page
  size_pos : 1 ≤ pageSize
  size_le : pageSize ≤ 100

namespace PageParams

def offset (q : PageParams) : Nat := (q.page - 1) * q.pageSize

def call (q : PageParams) : Call := .listUsers q.offset q.pageSize

end PageParams

inductive Request where
  | login (email password : String) (deviceInfo ipAddress : Option String)
  | refreshToken (body cookie : Option Token) (ipAddress : Option String)
  | logout (authorization : Token)
  | logoutAll (authorization : Token)
  | createUser (payload : UserCreate)
  | listUsers (pagination : PageParams)
  | getUser (userId : String)
  | updateUser (authorization : Token) (userId : String) (payload : UserUpdate)
  | deleteUser (authorization : Token) (userId : String)

namespace Request

def call : Request → Call
  | login e pw d ip => .authenticate e pw d ip
  | refreshToken b c ip => .refreshRoute b c ip
  | logout t => .logoutRoute t
  | logoutAll t => .logoutAllRoute t
  | createUser p => .createUser p
  | listUsers q => q.call
  | getUser u => .getUser u
  | updateUser t u p => .updateUserRoute t u p
  | deleteUser t u => .deleteUserRoute t u

def statusCode : Request → Int
  | createUser _ => 201
  | logout _ | logoutAll _ | deleteUser _ _ => 204
  | _ => 200

/-- What the route says with its payload. The others send no body. -/
def message : Request → Option String
  | login _ _ _ _ => some "Login successful"
  | refreshToken _ _ _ => some "Token refreshed successfully"
  | createUser _ => some "User created successfully"
  | listUsers _ => some "Users retrieved successfully"
  | getUser _ => some "User retrieved successfully"
  | updateUser _ _ _ => some "User updated successfully"
  | logout _ | logoutAll _ | deleteUser _ _ => none

def data (emailStr : String → Option String) : Request → Out → Option Data
  | createUser _, .user u | getUser _, .user u | updateUser _ _ _, .user u =>
    (UserRead.modelValidate emailStr u).map .user
  | listUsers q, .page users total =>
    (users.mapM (UserRead.modelValidate emailStr)).map fun items =>
      .paged items total q.page q.pageSize
  | login _ _ _ _, .login r => some (.login r)
  | refreshToken _ _ _, .pair p => some (.pair p)
  | _, _ => none

variable (upper : String → String) (emailStr : String → Option String)

/-- The response to a request for `path`. The route or a handler stamps it at `handled`, the
middleware at `left`. -/
def reply (path handled left : String) (q : Request) (r : Except Exc Out) : Reply :=
  let refusal (x : Exc) : Reply :=
    let response := x.response upper path handled left
    { statusCode := response.statusCode, body := .error response.content }
  match r with
  | .error x => refusal x
  | .ok o =>
    match q.message with
    | none => { statusCode := q.statusCode, body := .empty }
    | some message =>
      match q.data emailStr o with
      | none => refusal .validationError
      | some d =>
        { statusCode := q.statusCode
          body := .success { message := message, data := d, timestamp := handled } }

end Request

end AsyncPulse
