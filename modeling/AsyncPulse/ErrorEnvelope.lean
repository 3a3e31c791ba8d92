import AsyncPulse.Records
set_option autoImplicit false

namespace AsyncPulse

/-- An `AppError` as its handler sees it. `errorCode` is the class attribute. -/
structure AppError where
  className : String
  errorCode : Option String
  message : String
  statusCode : Int
  deriving DecidableEq, Repr

/-- `ErrorResponse`, as far as an `AppError` fills it. -/
structure Envelope where
  success : Bool := false
  message : String
  errorCode : String
  timestamp : String
  deriving DecidableEq, Repr

inductive Content where
  | json (e : Envelope)
  | text (s : String)
  deriving DecidableEq, Repr

structure Response where
  statusCode : Int
  content : Content
  deriving DecidableEq, Repr

def errorResponse (message errorCode timestamp : String) : Content :=
  .json { message := message, errorCode := errorCode, timestamp := timestamp }

/-- `raw.replace("Error", "")`. -/
def removeError : List Char → List Char
  | 'E' :: 'r' :: 'r' :: 'o' :: 'r' :: cs => removeError cs
  | c :: cs => c :: removeError cs
  | [] => []

/-- `re.sub(r"([A-Z])", r"_\1", raw).lstrip("_")`. -/
def snakeCase (raw : List Char) : List Char :=
  (raw.flatMap fun c => if c.isUpper then ['_', c] else [c]).dropWhile (· = '_')

/-- `upper` stands for `str.upper`. Nothing below depends on how it treats letters. -/
def AppError.derivedCode (upper : String → String) (e : AppError) : String :=
  match e.errorCode.filter (· ≠ "") with
  | some code => upper code
  | none => upper (String.ofList (snakeCase (removeError e.className.toList)))

variable (upper : String → String)

def appErrorHandler (timestamp : String) (e : AppError) : Response :=
  { statusCode := e.statusCode
    content := errorResponse e.message (e.derivedCode upper) timestamp }

def catchStarletteErrors (path timestamp : String) (response : Response) : Response :=
  if response.statusCode = 404 then
    { statusCode := 404
      content := errorResponse ("Route not found: " ++ path) "NOT_FOUND" timestamp }
  else if response.statusCode = 405 then
    { statusCode := 405
      content := errorResponse "Method not allowed" "METHOD_NOT_ALLOWED" timestamp }
  else response

def unhandledExceptionHandler (timestamp : String) : Response :=
  { statusCode := 500
    content := errorResponse "An unexpected error occurred" "INTERNAL_SERVER_ERROR" timestamp }

/-- What leaves the application when `e` is raised. The two layers stamp their envelopes at
times of their own. -/
def AppError.response (path handled left : String) (e : AppError) : Response :=
  catchStarletteErrors path left (appErrorHandler upper handled e)

def Response.Reports (r : Response) (e : AppError) : Prop :=
  r.statusCode = e.statusCode ∧
    ∃ timestamp, r.content = errorResponse e.message (e.derivedCode upper) timestamp

/-- The error reaches the client as its handler has put it, and the middleware leaves it alone. -/
def AppError.Delivered (path : String) (e : AppError) : Prop :=
  ∀ handled left, (e.response upper path handled left).Reports upper e ∧
    e.response upper path handled left = appErrorHandler upper handled e

theorem errorResponse_inj {m m' c c' t t' : String}
    (h : errorResponse m c t = errorResponse m' c' t') : m = m' ∧ c = c' ∧ t = t' := by
  simp only [errorResponse, Content.json.injEq, Envelope.mk.injEq] at h
  exact ⟨h.2.1, h.2.2.1, h.2.2.2⟩

@[simp] theorem appErrorHandler_statusCode (timestamp : String) (e : AppError) :
    (appErrorHandler upper timestamp e).statusCode = e.statusCode := rfl

theorem catchStarletteErrors_of_ne {r : Response} (h : r.statusCode ≠ 404)
    (h' : r.statusCode ≠ 405) (path timestamp : String) :
    catchStarletteErrors path timestamp r = r := by
  rw [catchStarletteErrors, if_neg h, if_neg h']

/-- A 404 or a 405 leaves with the stamp of the middleware, whoever has raised it. -/
theorem restamped {e : AppError} (h : e.statusCode = 404 ∨ e.statusCode = 405)
    (path handled left : String) : ∃ m c,
      (e.response upper path handled left).content = errorResponse m c left := by
  unfold AppError.response catchStarletteErrors
  rw [appErrorHandler_statusCode]
  split
  · exact ⟨_, _, rfl⟩
  · rename_i hne
    rw [if_pos (h.resolve_left hne)]
    exact ⟨_, _, rfl⟩

theorem delivered_iff (path : String) (e : AppError) :
    e.Delivered upper path ↔ e.statusCode ≠ 404 ∧ e.statusCode ≠ 405 := by
  constructor
  · intro h
    by_contra hne
    rw [← not_or, not_not] at hne
    obtain ⟨m, c, hm⟩ := restamped upper hne path "" "later"
    rw [(h "" "later").2] at hm
    have hstamp := (errorResponse_inj hm).2.2
    exact absurd hstamp (by decide)
  · intro h handled left
    have hsame : e.response upper path handled left = appErrorHandler upper handled e :=
      catchStarletteErrors_of_ne h.1 h.2 path left
    rw [hsame]
    exact ⟨⟨rfl, handled, rfl⟩, rfl⟩

theorem reports_iff (path handled left : String) (e : AppError) :
    (e.response upper path handled left).Reports upper e ↔
      (e.statusCode = 404 →
        e.message = "Route not found: " ++ path ∧ e.derivedCode upper = "NOT_FOUND") ∧
      (e.statusCode = 405 →
        e.message = "Method not allowed" ∧ e.derivedCode upper = "METHOD_NOT_ALLOWED") := by
  unfold AppError.response catchStarletteErrors Response.Reports
  rw [appErrorHandler_statusCode]
  split
  · rename_i h
    rw [h]
    constructor
    · intro hr
      obtain ⟨-, t, ht⟩ := hr
      obtain ⟨hm, hc, -⟩ := errorResponse_inj ht
      exact ⟨fun _ => ⟨hm.symm, hc.symm⟩, fun h => absurd h (by decide)⟩
    · intro hs
      obtain ⟨hm, hc⟩ := hs.1 rfl
      exact ⟨rfl, left, by rw [hm, hc]⟩
  · rename_i h
    split
    · rename_i h'
      rw [h']
      constructor
      · intro hr
        obtain ⟨-, t, ht⟩ := hr
        obtain ⟨hm, hc, -⟩ := errorResponse_inj ht
        exact ⟨fun h => absurd h (by decide), fun _ => ⟨hm.symm, hc.symm⟩⟩
      · intro hs
        obtain ⟨hm, hc⟩ := hs.2 rfl
        exact ⟨rfl, left, by rw [hm, hc]⟩
    · rename_i h'
      exact ⟨fun _ => ⟨fun h404 => absurd h404 h, fun h405 => absurd h405 h'⟩,
        fun _ => ⟨rfl, handled, rfl⟩⟩

def ErrorClass.className : ErrorClass → String
  | .invalidCredentialsError => "InvalidCredentialsError"
  | .invalidTokenError => "InvalidTokenError"
  | .userNotFoundError => "UserNotFoundError"
  | .userAlreadyExistsError => "UserAlreadyExistsError"
  | .insufficientPermissionsError => "InsufficientPermissionsError"
  | .userAlreadyInactiveError => "UserAlreadyInactiveError"
  | .invalidStatusTransitionError => "InvalidStatusTransitionError"
  | .userSuspendedError => "UserSuspendedError"
  | .userBannedError => "UserBannedError"

/-- What the base class sets: its `error_code`, and the status it passes on. -/
def ErrorClass.base : ErrorClass → String × Int
  | .userNotFoundError => ("NOT_FOUND", 404)
  | .invalidCredentialsError | .invalidTokenError | .userSuspendedError | .userBannedError =>
    ("UNAUTHORIZED", 401)
  | .insufficientPermissionsError => ("FORBIDDEN", 403)
  | .userAlreadyExistsError => ("CONFLICT", 409)
  | .userAlreadyInactiveError | .invalidStatusTransitionError => ("VALIDATION_FAILED", 422)

def ErrorClass.error (c : ErrorClass) (message : String) : AppError :=
  { className := c.className, errorCode := some c.base.1, message := message
    statusCode := c.base.2 }

/-- How the application answers an exception of the services. What is no `AppError` is
answered outside the middleware. -/
def Exc.response (path handled left : String) : Exc → Response
  | .app c message => (c.error message).response upper path handled left
  | _ => unhandledExceptionHandler handled

/-- An `AppError` reaches the client unless its status is one of the two that the middleware
takes for its own. Of those, a response is right only when it says the same. -/
theorem app_error_delivered_iff (path : String) (e : AppError) :
    (e.Delivered upper path ↔ e.statusCode ≠ 404 ∧ e.statusCode ≠ 405) ∧
    ∀ handled left, (e.response upper path handled left).Reports upper e ↔
      (e.statusCode = 404 →
        e.message = "Route not found: " ++ path ∧ e.derivedCode upper = "NOT_FOUND") ∧
      (e.statusCode = 405 →
        e.message = "Method not allowed" ∧ e.derivedCode upper = "METHOD_NOT_ALLOWED") :=
  ⟨delivered_iff upper path e, fun handled left => reports_iff upper path handled left e⟩

/-- `GET /users/{user_id}` for a user that does not exist: the client is told that there is no
such route. -/
theorem missing_user_misreported :
    (Exc.userNotFound "00000000-0000-0000-0000-000000000007").response String.toUpper
        "/api/v1/users/00000000-0000-0000-0000-000000000007" "t" "t'" =
      { statusCode := 404
        content := errorResponse
          "Route not found: /api/v1/users/00000000-0000-0000-0000-000000000007" "NOT_FOUND" "t'" } ∧
    ¬ (ErrorClass.userNotFoundError.error
        "User not found: 00000000-0000-0000-0000-000000000007").Delivered String.toUpper
      "/api/v1/users/00000000-0000-0000-0000-000000000007" := by
  constructor
  · decide +kernel
  · intro h
    obtain ⟨-, t, ht⟩ := (h "t" "t'").1
    exact absurd (errorResponse_inj ht).1 (by decide +kernel)

theorem service_error_delivered_iff (path message : String) (c : ErrorClass) :
    (c.error message).Delivered upper path ↔ c ≠ .userNotFoundError := by
  rw [delivered_iff]
  cases c <;> simp [ErrorClass.error, ErrorClass.base]

end AsyncPulse
