import AsyncPulse.Services
set_option autoImplicit false

namespace AsyncPulse
open Effect

/-- A call of a service, or a request of a route that needs a token. -/
inductive Call where
  | createUser (payload : UserCreate)
  | getUser (userId : String)
  | listUsers (offset limit : Nat)
  | updateUser (userId : String) (payload : UserUpdate)
  | setPassword (userId newPassword : String)
  | changeStatus (userId : String) (newStatus : UserStatus)
  | deleteUser (userId : String)
  | authenticate (email password : String) (deviceInfo ipAddress : Option String)
  | refreshToken (request : Token) (ipAddress : Option String)
  | logout (sessionId : String)
  | logoutAll (userId : String)
  | getCurrentUser (authorization : Token)
  | refreshRoute (body cookie : Option Token) (ipAddress : Option String)
  | logoutRoute (authorization : Token)
  | logoutAllRoute (authorization : Token)
  | updateUserRoute (authorization : Token) (userId : String) (payload : UserUpdate)
  | deleteUserRoute (authorization : Token) (userId : String)
  deriving DecidableEq, Repr

inductive Out where
  | done
  | user (u : User)
  | page (users : List User) (total : Nat)
  | login (r : LoginResponse)
  | pair (p : TokenPair)
  deriving DecidableEq, Repr

def Out.pair? : Out → Option TokenPair
  | .login r => some r.tokenPair
  | .pair p => some p
  | _ => none

variable (cfg : Config)

/-- `RoleGuard.__call__`. -/
def requireRole (required : UserRole) (currentUser : User) : M Unit :=
  Prog.raiseIf (currentUser.role.rank < required.rank)
    (.insufficientPermissions ("Requires at least " ++ required.value ++ " role permissions"))

/-- The token that `POST /auth/refresh` takes: the body's, else the cookie's. -/
def chosenToken (body cookie : Option Token) : Option Token :=
  (body.filter (· ≠ .raw "")).or (cookie.filter (· ≠ .raw ""))

/-- `POST /auth/refresh`. -/
def refreshRoute (body cookie : Option Token) (ipAddress : Option String) : M TokenPair :=
  match chosenToken body cookie with
  | none => throw (.invalidToken "Refresh token not provided")
  | some token => refreshToken cfg token ipAddress

/-- `POST /auth/logout`: whatever goes wrong is logged, and the answer is 204. -/
def logoutRoute (authorization : Token) : M Unit :=
  Prog.suppress do
    let payload ← decodeToken cfg authorization
    match payload.sid.filter (· ≠ "") with
    | some sessionId => logout sessionId
    | none => pure ()

/-- `POST /auth/logout-all`. -/
def logoutAllRoute (authorization : Token) : M Unit := do
  let currentUser ← getCurrentUser cfg authorization
  logoutAll currentUser.id

/-- `PATCH /users/{user_id}`. -/
def updateUserRoute (authorization : Token) (userId : String) (payload : UserUpdate) :
    M User := do
  let currentUser ← getCurrentUser cfg authorization
  Prog.raiseIf (currentUser.id ≠ userId ∧ currentUser.role ≠ .superuser)
    (.insufficientPermissions "Cannot update other users' profile")
  updateUser userId payload

/-- `DELETE /users/{user_id}`. -/
def deleteUserRoute (authorization : Token) (userId : String) : M Unit := do
  let currentUser ← getCurrentUser cfg authorization
  requireRole .superuser currentUser
  deleteUser userId

namespace Call

def body : Call → M Out
  | .createUser p => .user <$> AsyncPulse.createUser p
  | .getUser u => .user <$> AsyncPulse.getUser u
  | .listUsers offset limit => do
    let (users, total) ← listRows offset limit
    return .page users total
  | .updateUser u p => .user <$> AsyncPulse.updateUser u p
  | .setPassword u p => .user <$> AsyncPulse.setPassword u p
  | .changeStatus u s => .user <$> AsyncPulse.changeStatus u s
  | .deleteUser u => (fun _ => .done) <$> AsyncPulse.deleteUser u
  | .authenticate e p d ip => .login <$> AsyncPulse.authenticate cfg e p d ip
  | .refreshToken t ip => .pair <$> AsyncPulse.refreshToken cfg t ip
  | .logout s => (fun _ => .done) <$> AsyncPulse.logout s
  | .logoutAll u => (fun _ => .done) <$> AsyncPulse.logoutAll u
  | .getCurrentUser t => .user <$> AsyncPulse.getCurrentUser cfg t
  | .refreshRoute b c ip => .pair <$> AsyncPulse.refreshRoute cfg b c ip
  | .logoutRoute t => (fun _ => .done) <$> AsyncPulse.logoutRoute cfg t
  | .logoutAllRoute t => (fun _ => .done) <$> AsyncPulse.logoutAllRoute cfg t
  | .updateUserRoute t u p => .user <$> AsyncPulse.updateUserRoute cfg t u p
  | .deleteUserRoute t u => (fun _ => .done) <$> AsyncPulse.deleteUserRoute cfg t u

/-- A call runs in a database session of its own, closed when the call is over. -/
def prog (k : Call) : M Out := (k.body cfg).ensure .close

def tokens : Call → List Token
  | .refreshToken t _ | .getCurrentUser t | .logoutRoute t | .logoutAllRoute t
  | .updateUserRoute t _ _ | .deleteUserRoute t _ => [t]
  | .refreshRoute b c _ => (chosenToken b c).toList
  | _ => []

end Call

variable {γ χ : Type}

/-- Nobody else has the secret: a token that verifies was signed by the service. -/
def presentable (w : World γ) (t : Token) : Bool :=
  match cfg.jose.verify t with
  | some c => c ∈ w.minted
  | none => true

def app (C : MayCache Key Json γ χ) : Service Eff Exc (World γ) (Choice χ) Call Out where
  toSem := semantics cfg C
  prog := Call.prog cfg
  accepts k w := k.tokens.all (presentable cfg w)
  tick c w := if w.clock ≤ c.time then some (w.setClock c.time) else none

end AsyncPulse
