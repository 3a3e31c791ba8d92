import AsyncPulse.EffectOrder
import AsyncPulse.UniqueIndexes
set_option autoImplicit false

namespace AsyncPulse
open Effect

def Write.ofUser : Write → Bool
  | .insertUser _ | .updateUser _ _ => true
  | .insertSession _ | .updateSession _ _ => false

def Act.writes : Act → Bool
  | .wrote _ => true
  | _ => false

def Act.writesUser : Act → Bool
  | .wrote v => v.ofUser
  | _ => false

def Act.readsActive : Act → Bool
  | .readSessions (.activeOf _ _) _ => true
  | _ => false

/-- `b` may stand before `a` in the record of a call: a user is written before anything else is,
and the active sessions are read only once. -/
def Act.Precedes (b a : Act) : Prop :=
  ¬ (b.writes = true ∧ a.writesUser = true) ∧ ¬ (b.readsActive = true ∧ a.readsActive = true)

def Ordered (h : List Act) : Prop := h.Pairwise Act.Precedes

theorem ordered_snoc {h : List Act} {a : Act} :
    Ordered (h ++ [a]) ↔ Ordered h ∧ ∀ b ∈ h, b.Precedes a := by
  simp [Ordered, List.pairwise_append]

def Act.Prior (a : Act) : Prop := a.writes = false ∧ a.readsActive = false

def Act.Later (a : Act) : Prop := a.writesUser = false ∧ a.readsActive = false

def Prior (h : List Act) : Prop := ∀ a ∈ h, a.Prior

def Unread (h : List Act) : Prop := Ordered h ∧ ∀ a ∈ h, a.readsActive = false

theorem Prior.unread {h : List Act} (hp : Prior h) : Unread h := by
  refine ⟨List.Pairwise.imp_of_mem ?_ (List.pairwise_of_forall (R := fun _ _ => True) fun _ _ =>
    trivial), fun a ha => (hp a ha).2⟩
  intro b a hb _ _
  exact ⟨fun hw => by simp [(hp b hb).1] at hw, fun hr => by simp [(hp b hb).2] at hr⟩

theorem Act.Later.precedes {a : Act} (ha : a.Later) (b : Act) : b.Precedes a :=
  ⟨fun hw => by simp [ha.1] at hw, fun hr => by simp [ha.2] at hr⟩

def Eff.Looks : {β : Type} → Eff β → Prop
  | _, .write _ | _, .commit | _, .close | _, .selectSessions (.activeOf _ _) => False
  | _, _ => True

def Eff.Prior : {β : Type} → Eff β → Prop
  | _, .write _ | _, .selectSessions (.activeOf _ _) => False
  | _, _ => True

def Eff.Later : {β : Type} → Eff β → Prop
  | _, .write v => v.ofUser = false
  | _, .selectSessions (.activeOf _ _) => False
  | _, _ => True

theorem Eff.Looks.prior {β : Type} {e : Eff β} (he : e.Looks) : e.Prior := by
  cases e with
  | write v => exact he.elim
  | selectSessions q => cases q <;> exact he
  | _ => trivial

theorem Eff.Prior.act {β : Type} {e : Eff β} (he : e.Prior) (r : Except Exc β) :
    (e.act r).Prior := by
  cases e with
  | write v => exact he.elim
  | selectSessions q =>
    cases q with
    | activeOf u t => exact he.elim
    | _ => cases r <;> exact ⟨rfl, rfl⟩
  | _ => cases r <;> exact ⟨rfl, rfl⟩

theorem Eff.Prior.later {β : Type} {e : Eff β} (he : e.Prior) : e.Later := by
  cases e with
  | write v => exact he.elim
  | selectSessions q => cases q <;> exact he
  | _ => trivial

theorem Eff.Later.act {β : Type} {e : Eff β} (he : e.Later) (r : Except Exc β) :
    (e.act r).Later := by
  cases e with
  | write v =>
    cases r with
    | ok => exact ⟨he, rfl⟩
    | error => exact ⟨rfl, rfl⟩
  | selectSessions q =>
    cases q with
    | activeOf u t => exact he.elim
    | _ => cases r <;> exact ⟨rfl, rfl⟩
  | _ => cases r <;> exact ⟨rfl, rfl⟩

section

variable {cfg : Config} {h : List Act} {α β : Type}

abbrev InOrder (cfg : Config) (p : M α) (R : List Act → Prop) (h : List Act) : Prop :=
  (records cfg).wp Ordered p (fun _ => R) h

theorem inOrder_prior {p : M α} (hp : Only Eff.Prior p) (hh : Prior h) : InOrder cfg p Prior h := by
  refine hp.wp (fun _ hi => hi.unread.1) (fun e h r he hi => ?_) hh
  intro a ha
  rcases List.mem_append.mp ha with ha | ha
  · exact hi a ha
  · rw [List.mem_singleton.mp ha]
    exact he.act r

theorem inOrder_later {p : M α} (hp : Only Eff.Later p) (hh : Ordered h) :
    InOrder cfg p Ordered h :=
  hp.wp (fun _ => id) (fun _ _ r he hi => ordered_snoc.mpr ⟨hi, fun b _ => (he.act r).precedes b⟩) hh

theorem inOrder_unread {p : M α} (hp : Only Eff.Later p) (hh : Unread h) :
    InOrder cfg p Unread h := by
  refine hp.wp (fun _ hi => hi.1) (fun e h r he hi => ?_) hh
  refine ⟨ordered_snoc.mpr ⟨hi.1, fun b _ => (he.act r).precedes b⟩, fun a ha => ?_⟩
  rcases List.mem_append.mp ha with ha | ha
  · exact hi.2 a ha
  · rw [List.mem_singleton.mp ha]
    exact (he.act r).2

theorem inOrder_after {p : M β} {f : β → M α} (hp : Only Eff.Prior p) (hh : Prior h)
    (hf : ∀ b h, Prior h → InOrder cfg (f b) Ordered h) : InOrder cfg (p >>= f) Ordered h :=
  Trace.wp_then (inOrder_prior hp hh) (fun _ hi => hi.unread.1) hf

theorem inOrder_write {v : Write} (hh : Prior h) : InOrder cfg (.perform (.write v)) Unread h := by
  rintro r -
  have hr : ((Eff.write v).act r).readsActive = false := by cases r <;> rfl
  have ho : Ordered (h ++ [(Eff.write v).act r]) := by
    refine ordered_snoc.mpr ⟨hh.unread.1, fun b hb => ⟨fun hw => ?_, fun ha => ?_⟩⟩
    · simp [(hh b hb).1] at hw
    · simp [hr] at ha
  refine ⟨ho, ho, fun a ha => ?_⟩
  rcases List.mem_append.mp ha with ha | ha
  · exact (hh a ha).2
  · rw [List.mem_singleton.mp ha]
    exact hr

theorem inOrder_activeSessions {u : String} (hh : Unread h) :
    InOrder cfg (getActiveSessionsForUser u) Ordered h := by
  refine Trace.wp_then (inOrder_unread (Only.perform trivial) hh) (fun _ hi => hi.1) fun t h hh => ?_
  refine Trace.wp_then (R := Ordered) ?_ (fun _ => id) fun rows h hh => hh
  rintro r -
  have ho : Ordered (h ++ [(Eff.selectSessions (.activeOf u t)).act r]) := by
    refine ordered_snoc.mpr ⟨hh.1, fun b hb => ⟨fun hw => ?_, fun ha => ?_⟩⟩
    · cases r <;> simp [Eff.act, Act.writesUser] at hw
    · simp [hh.2 b hb] at ha
  exact ⟨ho, ho⟩

theorem only_scalar {asks : {β : Type} → Eff β → Prop} (rows : List α) :
    Only asks (scalarOneOrNone rows) := by
  rcases rows with _ | ⟨a, _ | ⟨b, rest⟩⟩
  · exact Only.pure
  · exact Only.pure
  · exact Only.throw

theorem only_scalarOne {asks : {β : Type} → Eff β → Prop} (rows : List α) :
    Only asks (scalarOne rows) := by
  rcases rows with _ | ⟨a, _ | ⟨b, rest⟩⟩
  · exact Only.throw
  · exact Only.pure
  · exact Only.throw

theorem only_prior {p : M α} (hp : Only Eff.Looks p) : Only Eff.Prior p :=
  hp.mono fun _ => Eff.Looks.prior

theorem only_findUser (q : UserQuery) : Only Eff.Looks (findUser q) :=
  (Only.perform trivial).bind fun _ => (only_scalar _).bind fun _ => Only.pure

theorem only_getSessionById (s : String) : Only Eff.Looks (getSessionById s) :=
  (Only.perform trivial).bind fun _ => (only_scalar _).bind fun _ => Only.pure

theorem only_getUser (u : String) : Only Eff.Looks (getUser u) := by
  refine (only_findUser _).bind fun o => ?_
  cases o with
  | none => exact Only.throw
  | some x => exact Only.pure

theorem only_checkFree {asks : {β : Type} → Eff β → Prop} (u : String)
    {find : String → M (Option User)} (hf : ∀ v, Only asks (find v)) (detail : String)
    (o : Option String) : Only asks (checkFree u find detail o) := by
  cases o with
  | none => exact Only.pure
  | some v =>
    refine (hf v).bind fun found => ?_
    cases found with
    | none => exact Only.pure
    | some x => exact Only.raiseIf

theorem only_decodeToken (token : Token) : Only Eff.Looks (decodeToken cfg token) := by
  unfold decodeToken
  cases cfg.jose.verify token with
  | none => exact Only.throw
  | some c => exact (Only.perform trivial).bind fun _ => Only.raiseIf.bind fun _ => Only.pure

theorem only_lookupSession (s : String) : Only Eff.Looks (lookupSession s) := by
  refine (Only.perform trivial).bind fun data => ?_
  split
  · exact Only.ret.bind fun _ => Only.pure
  · refine (only_getSessionById s).bind fun full => ?_
    cases full with
    | none => exact Only.pure
    | some full => exact (Only.perform trivial).bind fun _ => Only.pure

theorem only_lookupUser (u : String) : Only Eff.Looks (lookupUser u) := by
  refine (Only.perform trivial).bind fun data => ?_
  split
  · exact Only.ret
  · refine (only_findUser _).bind fun user => ?_
    cases user with
    | none => exact Only.throw
    | some user => exact (Only.perform trivial).bind fun _ => Only.pure

theorem only_getCurrentUser (token : Token) : Only Eff.Looks (getCurrentUser cfg token) := by
  refine ((only_decodeToken token).tryCatch fun e => ?_).bind fun c => ?_
  · split
    · exact Only.throw
    · exact Only.throw
  refine Only.raiseIf.bind fun _ => Only.raiseIf.bind fun _ => (only_lookupSession _).bind fun o => ?_
  cases o with
  | none => exact Only.throw
  | some session =>
    refine Only.bind ((Only.perform trivial).bind fun _ => Only.pure) fun _ => Only.raiseIf.bind
      fun _ => Only.raiseIf.bind fun _ => (only_lookupUser _).bind fun user => ?_
    exact Only.raiseIf.bind fun _ => Only.raiseIf.bind fun _ => Only.raiseIf.bind fun _ => Only.pure

theorem only_write {v : Write} (hv : v.ofUser = false) :
    Only Eff.Later (.perform (.write v) : M Unit) :=
  Only.perform hv

theorem only_updateSession (s : UserSession) : Only Eff.Later (updateSession s) := by
  refine (Only.perform trivial).bind fun rows => ?_
  cases rows with
  | nil => exact only_write rfl
  | cons loaded rest =>
    simp only
    split
    · exact Only.pure
    · exact only_write rfl

theorem only_revoke (s : UserSession) : Only Eff.Prior s.revoke := by
  unfold UserSession.revoke
  cases s.revokedAt with
  | none => exact (Only.perform trivial).bind fun _ => Only.pure
  | some t => exact Only.pure

theorem only_revokeAllSessions (u : String) : Only Eff.Later (revokeAllSessions u) :=
  (Only.perform trivial).bind fun _ => (Only.perform trivial).bind fun _ =>
    Only.forM fun _ => only_write rfl

theorem only_purge (s : UserSession) : Only Eff.Later (do
    Prog.suppress (cacheDelete (.session s.id))
    Prog.suppress (cacheDelete (.grace s.id)) : M Unit) :=
  (Only.suppress (Only.perform trivial)).bind fun _ => Only.suppress (Only.perform trivial)

theorem only_createToken (subject : String) (d : Time) (ty : TokenType) (s : Option String) :
    Only Eff.Later (createToken subject d ty s) :=
  (Only.perform trivial).bind fun _ => Only.perform trivial

theorem only_create (s u : String) (exp : Time) (d ip prev : Option String) :
    Only Eff.Later (UserSession.create s u exp d ip prev) :=
  (Only.perform trivial).bind fun _ => Only.pure

theorem only_suppressSet (key : Key) (v : Json) (ttl : Int) :
    Only Eff.Later (Prog.suppress (setJson key v ttl)) :=
  Only.suppress (Only.perform trivial)

theorem only_openSession (user : User) (d ip : Option String) :
    Only Eff.Later (openSession cfg user d ip) := by
  refine (Only.perform trivial).bind fun _ => (Only.perform trivial).bind fun _ => ?_
  refine (only_createToken ..).bind fun _ => (only_createToken ..).bind fun _ => ?_
  refine (only_create ..).bind fun _ => (only_write rfl).bind fun _ => ?_
  refine (Only.perform trivial).bind fun _ => (only_suppressSet ..).bind fun _ => ?_
  unfold loginResponse
  cases user.name with
  | none => exact Only.throw
  | some name => exact Only.pure

theorem only_evict (s : UserSession) : Only Eff.Later (evict s) :=
  ((only_revoke s).mono fun _ => Eff.Prior.later).bind fun _ => (only_updateSession _).bind fun _ =>
    Only.suppress (Only.perform trivial)

theorem only_rotate (s u : String) (session : UserSession) (ip : Option String) :
    Only Eff.Later (rotate cfg s u session ip) := by
  refine ((only_revoke session).mono fun _ => Eff.Prior.later).bind fun _ => ?_
  refine (only_updateSession _).bind fun _ => (Only.suppress (Only.perform trivial)).bind fun _ => ?_
  refine (Only.perform trivial).bind fun _ => (Only.perform trivial).bind fun _ => ?_
  refine (only_createToken ..).bind fun _ => (only_createToken ..).bind fun _ => ?_
  refine (only_create ..).bind fun _ => (only_write rfl).bind fun _ => ?_
  refine (Only.perform trivial).bind fun _ => (only_suppressSet ..).bind fun _ => ?_
  exact (only_suppressSet ..).bind fun _ => Only.pure

theorem only_checkAndRotate (s u : String) (session : UserSession) (ip : Option String) :
    Only Eff.Later (checkAndRotate cfg s u session ip) := by
  refine Only.bind ((Only.perform trivial).bind fun _ => Only.pure) fun _ => Only.raiseIf.bind
    fun _ => ((only_findUser _).mono fun _ h => h.prior.later).bind fun user => ?_
  cases user with
  | none => exact Only.throw
  | some user => exact Only.raiseIf.bind fun _ => only_rotate ..

theorem inOrder_logoutAll {u : String} (hh : Unread h) : InOrder cfg (logoutAll u) Ordered h := by
  refine Trace.wp_then (inOrder_activeSessions hh) (fun _ => id) fun active h hh => ?_
  refine inOrder_later ((only_revokeAllSessions u).bind fun _ => ?_) hh
  exact (Only.perform trivial).bind fun _ => Only.forM only_purge

theorem inOrder_revokeUserSessions {u : String} (hh : Unread h) :
    InOrder cfg (revokeUserSessions u) Ordered h := by
  refine Trace.wp_then (inOrder_activeSessions hh) (fun _ => id) fun active h hh => ?_
  refine inOrder_later ((only_revokeAllSessions u).bind fun _ => Only.forM fun s => ?_) hh
  exact (Only.perform trivial).bind fun _ => Only.perform trivial

theorem inOrder_changeRow {u : String} {f : UserModel → UserModel} (hh : Prior h) :
    InOrder cfg (changeRow u f) Unread h := by
  refine Trace.wp_then (inOrder_prior (Only.perform trivial) hh) (fun _ => Prior.unread)
    fun rows h hh => ?_
  refine Trace.wp_then (inOrder_prior (only_scalarOne rows) hh) (fun _ => Prior.unread)
    fun loaded h hh => ?_
  refine Trace.wp_then (inOrder_prior (Only.perform trivial) hh) (fun _ => Prior.unread)
    fun t h hh => ?_
  simp only
  split
  · exact hh.unread
  · exact Trace.wp_then (inOrder_write hh) (fun _ => id) fun _ h hh => hh

theorem inOrder_updateFields {u : String} {fields : List Field} (hh : Prior h) :
    InOrder cfg (updateFields u fields) Unread h :=
  Trace.wp_then (inOrder_prior Only.raiseIf hh) (fun _ => Prior.unread) fun _ _ =>
    inOrder_changeRow

theorem inOrder_createUser {p : UserCreate} : InOrder cfg (createUser p) Ordered [] := by
  have hnil : Prior [] := by simp [Prior]
  refine inOrder_after (only_prior (only_findUser _)) hnil fun o h hh => ?_
  cases o with
  | some u =>
    simp only
    split <;> exact hh.unread.1
  | none =>
    refine inOrder_after (Only.perform trivial) hh fun u h hh => ?_
    refine inOrder_after (Only.perform trivial) hh fun hashed h hh => ?_
    refine Trace.wp_then (R := Unread) ?_ (fun _ hh => hh.1) fun user h hh =>
      inOrder_later ((Only.perform trivial).bind fun _ => Only.pure) hh.1
    refine Trace.wp_then (inOrder_prior (Only.perform trivial) hh) (fun _ => Prior.unread)
      fun t h hh => ?_
    refine Trace.wp_then (inOrder_prior (Only.perform trivial) hh) (fun _ => Prior.unread)
      fun t' h hh => ?_
    exact Trace.wp_then (inOrder_write hh) (fun _ => id) fun _ h hh => hh

theorem only_commitDelete {β : Type} (u : String) (x : β) : Only Eff.Later (do
    commit
    cacheDelete (.user u)
    return x : M β) :=
  (Only.perform trivial).bind fun _ => (Only.perform trivial).bind fun _ => Only.pure

theorem inOrder_updateUser {u : String} {p : UserUpdate} (hh : Prior h) :
    InOrder cfg (updateUser u p) Ordered h := by
  refine inOrder_after (only_prior (only_getUser u)) hh fun user h hh => ?_
  refine inOrder_after (only_checkFree u (fun _ => only_prior (only_findUser _)) _ _) hh
    fun _ h hh => ?_
  refine inOrder_after (only_checkFree u (fun _ => only_prior (only_findUser _)) _ _) hh
    fun _ h hh => ?_
  simp only
  split
  · exact hh.unread.1
  · exact Trace.wp_then (inOrder_updateFields hh) (fun _ hh => hh.1) fun x h hh =>
      inOrder_later (only_commitDelete u x) hh.1

theorem inOrder_setPassword {u pw : String} : InOrder cfg (setPassword u pw) Ordered [] := by
  have hnil : Prior [] := by simp [Prior]
  refine inOrder_after (only_prior (only_getUser u)) hnil fun user h hh => ?_
  refine inOrder_after (Only.perform trivial) hh fun hashed h hh => ?_
  exact Trace.wp_then (inOrder_changeRow hh) (fun _ hh => hh.1) fun x h hh =>
    inOrder_later (only_commitDelete u x) hh.1

theorem inOrder_changeStatus {u : String} {st : UserStatus} :
    InOrder cfg (changeStatus u st) Ordered [] := by
  have hnil : Prior [] := by simp [Prior]
  refine inOrder_after (only_prior (only_getUser u)) hnil fun user h hh => ?_
  refine inOrder_after Only.ret hh fun user h hh => ?_
  refine Trace.wp_then (inOrder_changeRow hh) (fun _ hh => hh.1) fun x h hh => ?_
  split
  · exact Trace.wp_then (inOrder_revokeUserSessions hh) (fun _ => id) fun _ h hh =>
      inOrder_later (only_commitDelete u x) hh
  · exact inOrder_later (only_commitDelete u x) hh.1

theorem inOrder_deleteUser {u : String} (hh : Prior h) :
    InOrder cfg (deleteUser u) Ordered h := by
  refine inOrder_after (only_prior (only_getUser u)) hh fun user h hh => ?_
  have hdeactivate : Only Eff.Prior user.deactivate :=
    Only.raiseIf.bind fun _ => (Only.perform trivial).bind fun _ => Only.pure
  refine inOrder_after hdeactivate hh fun user h hh => ?_
  refine Trace.wp_then (inOrder_updateFields hh) (fun _ hh => hh.1) fun _ h hh => ?_
  refine Trace.wp_then (inOrder_revokeUserSessions hh) (fun _ => id) fun _ h hh => ?_
  exact inOrder_later ((Only.perform trivial).bind fun _ => Only.perform trivial) hh

theorem inOrder_authenticate {e pw : String} {d ip : Option String} :
    InOrder cfg (authenticate cfg e pw d ip) Ordered [] := by
  have hnil : Prior [] := by simp [Prior]
  refine inOrder_after (only_prior (only_findUser _)) hnil fun o h hh => ?_
  cases o with
  | none => exact hh.unread.1
  | some user =>
    refine inOrder_after Only.ret hh fun _ h hh => ?_
    refine inOrder_after Only.raiseIf hh fun _ h hh => ?_
    refine inOrder_after Only.raiseIf hh fun _ h hh => ?_
    refine inOrder_after Only.raiseIf hh fun _ h hh => ?_
    refine Trace.wp_then (inOrder_activeSessions hh.unread) (fun _ => id) fun active h hh => ?_
    exact inOrder_later ((Only.forM only_evict).bind fun _ => only_openSession ..) hh

theorem inOrder_refreshToken {request : Token} {ip : Option String} :
    InOrder cfg (refreshToken cfg request ip) Ordered [] := by
  have hnil : Prior [] := by simp [Prior]
  refine inOrder_after ((only_prior (only_decodeToken _)).tryCatch fun _ => Only.throw) hnil
    fun c h hh => ?_
  refine inOrder_after Only.raiseIf hh fun _ h hh => ?_
  refine inOrder_after Only.raiseIf hh fun _ h hh => ?_
  refine inOrder_after (only_prior (only_getSessionById _)) hh fun o h hh => ?_
  cases o with
  | none => exact hh.unread.1
  | some session =>
    simp only
    split
    · refine inOrder_after (Only.perform trivial) hh fun t h hh => ?_
      split
      · refine inOrder_after ((Only.perform trivial).tryCatch fun _ => Only.pure) hh
          fun cached h hh => ?_
        split
        · exact hh.unread.1
        · exact hh.unread.1
      · exact Trace.wp_then (inOrder_logoutAll hh.unread) (fun _ => id) fun _ h hh => hh
    · exact inOrder_later (only_checkAndRotate ..) hh.unread.1

theorem inOrder_logout {s : String} (hh : Prior h) : InOrder cfg (logout s) Ordered h := by
  refine inOrder_after (only_prior (only_getSessionById s)) hh fun o h hh => ?_
  cases o with
  | none => exact hh.unread.1
  | some session =>
    refine inOrder_later (((only_revoke session).mono fun _ => Eff.Prior.later).bind fun _ => ?_)
      hh.unread.1
    refine (only_updateSession _).bind fun _ => (Only.perform trivial).bind fun _ => ?_
    exact (Only.suppress (Only.perform trivial)).bind fun _ => Only.suppress (Only.perform trivial)

theorem inOrder_body (k : Call) : InOrder cfg (k.body cfg) Ordered [] := by
  have hnil : Prior [] := by simp [Prior]
  cases k with
  | createUser p => exact (Trace.wp_map _ _ _ _ _).mpr inOrder_createUser
  | getUser u =>
    exact (Trace.wp_map _ _ _ _ _).mpr (Trace.wp_mono _
      (inOrder_prior (only_prior (only_getUser u)) hnil) fun _ _ hh => hh.unread.1)
  | listUsers offset limit =>
    refine inOrder_later (Only.bind ?_ fun _ => Only.pure) hnil.unread.1
    exact (Only.perform trivial).bind fun _ => (Only.perform trivial).bind fun _ => Only.pure
  | updateUser u p => exact (Trace.wp_map _ _ _ _ _).mpr (inOrder_updateUser hnil)
  | setPassword u pw => exact (Trace.wp_map _ _ _ _ _).mpr inOrder_setPassword
  | changeStatus u st => exact (Trace.wp_map _ _ _ _ _).mpr inOrder_changeStatus
  | deleteUser u => exact (Trace.wp_map _ _ _ _ _).mpr (inOrder_deleteUser hnil)
  | authenticate e pw d ip => exact (Trace.wp_map _ _ _ _ _).mpr inOrder_authenticate
  | refreshToken t ip => exact (Trace.wp_map _ _ _ _ _).mpr inOrder_refreshToken
  | logout s => exact (Trace.wp_map _ _ _ _ _).mpr (inOrder_logout hnil)
  | logoutAll u => exact (Trace.wp_map _ _ _ _ _).mpr (inOrder_logoutAll hnil.unread)
  | getCurrentUser t =>
    exact (Trace.wp_map _ _ _ _ _).mpr (Trace.wp_mono _
      (inOrder_prior (only_prior (only_getCurrentUser t)) hnil) fun _ _ hh => hh.unread.1)
  | refreshRoute b c ip =>
    refine (Trace.wp_map _ _ _ _ _).mpr ?_
    unfold refreshRoute
    cases chosenToken b c with
    | none => exact hnil.unread.1
    | some t => exact inOrder_refreshToken
  | logoutRoute t =>
    refine (Trace.wp_map _ _ _ _ _).mpr ((Trace.wp_suppress _ _ _ _).mpr ?_)
    refine inOrder_after (only_prior (only_decodeToken t)) hnil fun c h hh => ?_
    split
    · exact inOrder_logout hh
    · exact hh.unread.1
  | logoutAllRoute t =>
    exact (Trace.wp_map _ _ _ _ _).mpr (inOrder_after (only_prior (only_getCurrentUser t)) hnil
      fun _ _ hh => inOrder_logoutAll hh.unread)
  | updateUserRoute t u p =>
    refine (Trace.wp_map _ _ _ _ _).mpr (inOrder_after (only_prior (only_getCurrentUser t)) hnil
      fun x h hh => ?_)
    exact inOrder_after Only.raiseIf hh fun _ _ =>
      inOrder_updateUser
  | deleteUserRoute t u =>
    refine (Trace.wp_map _ _ _ _ _).mpr (inOrder_after (only_prior (only_getCurrentUser t)) hnil
      fun x h hh => ?_)
    exact inOrder_after Only.raiseIf hh fun _ _ =>
      inOrder_deleteUser

/-- Every call keeps its statements in order. -/
theorem inOrder_prog (k : Call) : InOrder cfg (k.prog cfg) Ordered [] := by
  refine (Trace.wp_ensure _ _ _ _ _).mpr (Trace.wp_mono _ (inOrder_body k) fun r h hh => ?_)
  have hclose : Only Eff.Later (.perform .close : M Unit) := Only.perform trivial
  exact inOrder_later hclose hh

end

end AsyncPulse
