import AsyncPulse.Columns
import AsyncPulse.Review
import AsyncPulse.WriteOrder
set_option autoImplicit false

namespace AsyncPulse
open Effect

variable {γ χ : Type} {cfg : Config} {C : MayCache Key Json γ χ}

def SawLive (u : String) (h : List Act) : Prop :=
  ∃ x, SawUser h x ∧ x.id = u ∧ x.deletedAt = none

theorem SawLive.mono {u : String} {h : List Act} (hs : SawLive u h) (l : List Act) :
    SawLive u (h ++ l) := by
  obtain ⟨x, hx, hu⟩ := hs
  exact ⟨x, hx.mono, hu⟩

def Careful (h : List Act) : Prop :=
  ∀ l n, .wrote (.updateUser l n) ∈ h →
    SawLive l.id h ∧ (n.deletedAt = l.deletedAt ∨ n.deletedAt ≠ none)

theorem Careful.snoc {h : List Act} {a : Act} (hh : Careful h)
    (ha : ∀ l n, a = .wrote (.updateUser l n) →
      SawLive l.id h ∧ (n.deletedAt = l.deletedAt ∨ n.deletedAt ≠ none)) : Careful (h ++ [a]) := by
  intro l n hm
  rcases List.mem_append.mp hm with hm | hm
  · exact ⟨(hh l n hm).1.mono _, (hh l n hm).2⟩
  · obtain ⟨hl, hn⟩ := ha l n (List.mem_singleton.mp hm).symm
    exact ⟨hl.mono _, hn⟩

def Eff.Spares : {β : Type} → Eff β → Prop
  | _, .write (.updateUser _ _) => False
  | _, _ => True

theorem Eff.Later.spares {β : Type} {e : Eff β} (he : e.Later) : e.Spares := by
  cases e with
  | write v =>
    cases v with
    | updateUser l n => simp [Eff.Later, Write.ofUser] at he
    | _ => trivial
  | _ => trivial

theorem Eff.Spares.careful {β : Type} {e : Eff β} (he : e.Spares) {h : List Act}
    (hh : Careful h) (r : Except Exc β) : Careful (h ++ [e.act r]) := by
  refine hh.snoc fun l n ha => ?_
  cases e with
  | write v =>
    cases r <;> simp only [Eff.act, reduceCtorEq, Act.wrote.injEq] at ha
    rw [ha] at he
    exact he.elim
  | _ => cases r <;> simp [Eff.act] at ha

section Programs

variable {α β : Type} {h : List Act} {u : String} {p : M α} {Q : Except Exc α → List Act → Prop}

def Met (u : String) (h : List Act) : Prop := Careful h ∧ SawLive u h

abbrev Carefully (cfg : Config) (p : M α) (Q : Except Exc α → List Act → Prop) (h : List Act) :
    Prop :=
  (records cfg).wp Careful p Q h

theorem spares_prior (hp : Only Eff.Prior p) : Only Eff.Spares p :=
  hp.mono fun _ he => he.later.spares

theorem spares_later (hp : Only Eff.Later p) : Only Eff.Spares p := hp.mono fun _ => Eff.Later.spares

theorem careful_spares (hp : Only Eff.Spares p) (hh : Careful h) :
    Carefully cfg p (fun _ => Careful) h :=
  hp.wp (fun _ => id) (fun _ _ r he hi => he.careful hi r) hh

theorem met_spares (hp : Only Eff.Spares p) (hh : Met u h) : Carefully cfg p (fun _ => Met u) h :=
  hp.wp (fun _ hi => hi.1) (fun _ _ r he hi => ⟨he.careful hi.1 r, hi.2.mono _⟩) hh

theorem careful_getUser {f : User → M α} (hh : Careful h)
    (hok : ∀ x, x.id = u → x.deletedAt = none → Met u (h ++ [Act.readUsers (.byId u) [x]]) →
      Carefully cfg (f x.toEntity) Q (h ++ [Act.readUsers (.byId u) [x]]))
    (herr : Careful (h ++ [Act.readUsers (.byId u) []]) →
      Q (.error (.userNotFound u)) (h ++ [Act.readUsers (.byId u) []])) :
    Carefully cfg (getUser u >>= f) Q h := by
  rintro r ⟨rows, rfl, hr⟩
  have hc : Careful (h ++ [Act.readUsers (.byId u) rows]) := hh.snoc (by simp)
  refine ⟨hc, ?_⟩
  rcases rows with _ | ⟨x, _ | ⟨y, rest⟩⟩
  · exact herr hc
  · have hx : x.id = u ∧ x.deletedAt = none := by
      simpa [UserQuery.selects] using hr.selects x (by simp)
    exact hok x hx.1 hx.2 ⟨hc, x, ⟨.byId u, [x], by simp, by simp⟩, hx⟩
  · have hn := hr.nodup
    have h1 : x.id = u ∧ x.deletedAt = none := by
      simpa [UserQuery.selects] using hr.selects x (by simp)
    have h2 : y.id = u ∧ y.deletedAt = none := by
      simpa [UserQuery.selects] using hr.selects y (by simp)
    simp [h1, h2] at hn

theorem met_changeRow {f : UserModel → UserModel}
    (hf : ∀ x, (f x).deletedAt = x.deletedAt ∨ (f x).deletedAt ≠ none) (hh : Met u h) :
    Carefully cfg (changeRow u f) (fun _ => Met u) h := by
  rintro r ⟨rows, rfl, hr⟩
  have h₁ : Met u (h ++ [Act.readUsers (.row u) rows]) := ⟨hh.1.snoc (by simp), hh.2.mono _⟩
  refine ⟨h₁.1, ?_⟩
  rcases rows with _ | ⟨x, _ | ⟨y, rest⟩⟩
  · exact h₁
  · have hid : x.id = u := by simpa [UserQuery.selects] using hr.selects x (by simp)
    rintro r ⟨t, rfl, -⟩
    have h₂ : Met u (h ++ [Act.readUsers (.row u) [x]] ++ [Act.clock t]) :=
      ⟨h₁.1.snoc (by simp), h₁.2.mono _⟩
    refine ⟨h₂.1, ?_⟩
    change Carefully cfg (if { f x with updatedAt := t } = x then _ else _) _ _
    split
    · exact h₂
    · refine Trace.wp_then (R := Met u) ?_ (fun _ => id) fun _ _ hh => hh
      intro r _
      have h₃ : Met u (h ++ [Act.readUsers (.row u) [x]] ++ [Act.clock t] ++
          [(Eff.write (.updateUser x { f x with updatedAt := t })).act r]) := by
        refine ⟨h₂.1.snoc fun l n ha => ?_, h₂.2.mono _⟩
        cases r <;> simp only [Eff.act, reduceCtorEq, Act.wrote.injEq, Write.updateUser.injEq] at ha
        obtain ⟨rfl, rfl⟩ := ha
        exact ⟨hid ▸ h₂.2, hf x⟩
      exact ⟨h₃.1, h₃⟩
  · exact h₁

theorem met_updateFields {fields : List Field}
    (hf : ∀ x : UserModel, (fields.foldl UserModel.setField x).deletedAt = x.deletedAt ∨
      (fields.foldl UserModel.setField x).deletedAt ≠ none) (hh : Met u h) :
    Carefully cfg (updateFields u fields) (fun _ => Met u) h :=
  Trace.wp_then (met_spares (spares_prior Only.raiseIf) hh) (fun _ => id) fun _ _ =>
    met_changeRow hf

def Turned (u : String) (r : Except Exc α) (h : List Act) : Prop :=
  SawLive u h ∨ r = .error (.userNotFound u)

theorem turned_getUser {f : User → M α} (hh : Careful h)
    (hok : ∀ (x : UserModel) h, x.id = u → x.deletedAt = none → Met u h →
      Carefully cfg (f x.toEntity) (fun _ => Met u) h) :
    Carefully cfg (getUser u >>= f) (fun r h => Careful h ∧ Turned u r h) h :=
  careful_getUser hh
    (fun x hid hd hm => Trace.wp_mono _ (hok x _ hid hd hm) fun _ _ hm => ⟨hm.1, .inl hm.2⟩)
    fun hc => ⟨hc, .inr rfl⟩

theorem turned_updateUser {payload : UserUpdate} (hh : Careful h) :
    Carefully cfg (updateUser u payload) (fun r h => Careful h ∧ Turned u r h) h := by
  refine turned_getUser hh fun x h hid _ hm => ?_
  subst hid
  have hcheck : ∀ (q : String → UserQuery) detail o,
      Only Eff.Spares (checkFree x.id (fun v => findUser (q v)) detail o) := fun q detail o =>
    spares_prior (only_checkFree x.id (fun _ => only_prior (only_findUser _)) detail o)
  refine Trace.wp_then (met_spares (hcheck .byEmail _ _) hm) (fun _ => id) fun _ h hm => ?_
  refine Trace.wp_then (met_spares (hcheck .byUsername _ _) hm) (fun _ => id) fun _ h hm => ?_
  simp only
  split
  · exact hm
  · refine Trace.wp_then (met_updateFields (fun z => .inl ?_) hm) (fun _ => id) fun z h hm =>
      met_spares (spares_later (only_commitDelete x.id z)) hm
    cases payload.email <;> cases payload.username <;> rfl

theorem turned_setPassword {pw : String} (hh : Careful h) :
    Carefully cfg (setPassword u pw) (fun r h => Careful h ∧ Turned u r h) h := by
  refine turned_getUser hh fun x h _ _ hm => ?_
  refine Trace.wp_then (met_spares (Only.perform trivial) hm) (fun _ => id) fun hashed h hm => ?_
  exact Trace.wp_then (met_changeRow (fun _ => .inl rfl) hm) (fun _ => id) fun z h hm =>
    met_spares (spares_later (only_commitDelete u z)) hm

theorem spares_activeSessions (u : String) : Only Eff.Spares (getActiveSessionsForUser u) :=
  (Only.perform trivial).bind fun _ => (Only.perform trivial).bind fun _ => Only.pure

theorem spares_logoutAll (u : String) : Only Eff.Spares (logoutAll u) := by
  refine (spares_activeSessions u).bind fun _ => (spares_later (only_revokeAllSessions u)).bind
    fun _ => (Only.perform trivial).bind fun _ => Only.forM fun s => spares_later (only_purge s)

theorem spares_revokeUserSessions (u : String) : Only Eff.Spares (revokeUserSessions u) := by
  refine (spares_activeSessions u).bind fun _ => (spares_later (only_revokeAllSessions u)).bind
    fun _ => Only.forM fun s => (Only.perform trivial).bind fun _ => Only.perform trivial

theorem turned_changeStatus {st : UserStatus} (hh : Careful h) :
    Carefully cfg (changeStatus u st) (fun r h => Careful h ∧ Turned u r h) h := by
  refine turned_getUser hh fun x h _ _ hm => ?_
  refine Trace.wp_then (met_spares Only.ret hm) (fun _ => id) fun user h hm => ?_
  refine Trace.wp_then (met_changeRow (fun _ => .inl rfl) hm) (fun _ => id) fun z h hm => ?_
  split
  · exact Trace.wp_then (met_spares (spares_revokeUserSessions u) hm) (fun _ => id) fun _ h hm =>
      met_spares (spares_later (only_commitDelete u z)) hm
  · exact met_spares (spares_later (only_commitDelete u z)) hm

theorem turned_deleteUser (hh : Careful h) :
    Carefully cfg (deleteUser u) (fun r h => Careful h ∧ Turned u r h) h := by
  refine turned_getUser hh fun x h hid hd hm => ?_
  subst hid
  unfold User.deactivate
  simp only [bind_assoc, pure_bind]
  refine Trace.wp_then (met_spares Only.raiseIf hm) (fun _ => id) fun _ h hm => ?_
  refine Trace.wp_then (met_spares (Only.perform trivial) hm) (fun _ => id) fun t h hm => ?_
  refine Trace.wp_then (met_updateFields (fun _ => .inr (by simp [UserModel.setField])) hm)
    (fun _ => id) fun _ h hm => ?_
  refine Trace.wp_then (met_spares (spares_revokeUserSessions x.id) hm) (fun _ => id) fun _ h hm => ?_
  exact met_spares ((Only.perform trivial).bind fun _ => Only.perform trivial) hm

def Yields (R : α → Prop) (p : M α) : Prop :=
  Terms.Keeps ⟨Eff.Spares, fun _ _ => True⟩ (fun r => ∀ a, r = .ok a → R a) p

theorem Yields.bind {R : β → Prop} {f : α → M β} (hp : Only Eff.Spares p)
    (hf : ∀ a, Yields R (f a)) : Yields R (p >>= f) :=
  Terms.Keeps.bind hp (fun a _ => hf a) fun _ _ _ he => by cases he

theorem Yields.throw {R : α → Prop} {x : Exc} : Yields R (throw x : M α) := fun _ he => by cases he

theorem Yields.pure {R : α → Prop} {a : α} (ha : R a) : Yields R (Pure.pure a) := fun _ he =>
  Except.ok.inj he ▸ ha

theorem yields_openSession {user : User} {d ip : Option String} :
    Yields (fun resp => resp.userInfo.userId = user.id) (openSession cfg user d ip) := by
  have hperform : ∀ {β : Type} {e : Eff β}, e.Spares → Only Eff.Spares (Prog.perform e : M β) :=
    fun he => Only.perform he
  refine .bind (hperform trivial) fun _ => .bind (hperform trivial) fun _ => ?_
  refine .bind (spares_later (only_createToken ..)) fun _ => ?_
  refine .bind (spares_later (only_createToken ..)) fun _ => ?_
  refine .bind (spares_later (only_create ..)) fun _ => ?_
  refine .bind (hperform trivial) fun _ => .bind (hperform trivial) fun _ => ?_
  refine .bind (spares_later (only_suppressSet ..)) fun _ => ?_
  unfold loginResponse
  cases user.name with
  | none => exact .throw
  | some name => exact .pure rfl

/-- `live` holds of the users that a call has answered about; about others it has raised. -/
def Call.Heeds (live : String → Prop) (k : Call) (r : Except Exc Out) : Prop :=
  match k with
  | .getUser u | .updateUser u _ | .setPassword u _ | .changeStatus u _ | .deleteUser u =>
    live u ∨ r = .error (.userNotFound u)
  | .updateUserRoute _ u _ | .deleteUserRoute _ u => live u ∨ ∃ e, r = .error e
  | .listUsers _ _ => ∀ users total, r = .ok (.page users total) → ∀ x ∈ users, live x.id
  | .authenticate _ _ _ _ => ∀ resp, r = .ok (.login resp) → live resp.userInfo.userId
  | _ => True

theorem Call.Heeds.mono {live live' : String → Prop} {k : Call} {r : Except Exc Out}
    (hk : k.Heeds live r) (hl : ∀ u, live u → live' u) : k.Heeds live' r := by
  cases k
  case getUser | updateUser | setPassword | changeStatus | deleteUser => exact hk.imp_left (hl _)
  case updateUserRoute | deleteUserRoute => exact hk.imp_left (hl _)
  case listUsers => exact fun users total hr x hx => hl _ (hk users total hr x hx)
  case authenticate => exact fun resp hr => hl _ (hk resp hr)
  all_goals trivial

def Heeding (k : Call) (r : Except Exc Out) (h : List Act) : Prop :=
  Careful h ∧ k.Heeds (fun u => SawLive u h) r

theorem heeding_listUsers {offset limit : Nat} :
    Carefully cfg ((Call.listUsers offset limit).body cfg) (Heeding (.listUsers offset limit)) [] := by
  rintro r ⟨n, rfl⟩
  refine ⟨Careful.snoc (by simp [Careful]) (by simp [records, Eff.act]), ?_⟩
  rintro r ⟨rows, rfl, hr⟩
  have hc : Careful ([] ++ [(records cfg).event .countUsers (.ok n)] ++
      [(records cfg).event (.selectUsers (.page offset limit)) (.ok rows)]) :=
    Careful.snoc (Careful.snoc (by simp [Careful]) (by simp [records, Eff.act]))
      (by simp [records, Eff.act])
  refine ⟨hc, hc, fun users total he x hx => ?_⟩
  cases he
  obtain ⟨m, hm, rfl⟩ := List.mem_map.mp hx
  have hlive : m.deletedAt = none := by simpa [UserQuery.selects] using hr.selects m hm
  exact ⟨m, ⟨.page offset limit, rows, by simp [records, Eff.act], hm⟩, rfl, hlive⟩

theorem heeding_authenticate {e pw : String} {d ip : Option String} :
    Carefully cfg ((Call.authenticate e pw d ip).body cfg) (Heeding (.authenticate e pw d ip)) [] := by
  refine (Trace.wp_map _ _ _ _ _).mpr ?_
  have herror : ∀ (x : Exc) {h : List Act}, Careful h →
      Heeding (.authenticate e pw d ip) ((.error x : Except Exc LoginResponse).map Out.login) h :=
    fun x h hc => ⟨hc, fun resp hr => by cases hr⟩
  rintro r ⟨rows, rfl, hr⟩
  have hc : Careful ([] ++ [(records cfg).event (.selectUsers (.byEmail e)) (.ok rows)]) :=
    Careful.snoc (by simp [Careful]) (by simp [records, Eff.act])
  refine ⟨hc, ?_⟩
  rcases rows with _ | ⟨x, _ | ⟨y, rest⟩⟩
  · exact herror _ hc
  · have hx : x.email = e ∧ x.deletedAt = none := by
      simpa [UserQuery.selects] using hr.selects x (by simp)
    have hm : Met x.id ([] ++ [(records cfg).event (.selectUsers (.byEmail e)) (.ok [x])]) :=
      ⟨hc, x, ⟨.byEmail e, [x], by simp [records, Eff.act], by simp⟩, rfl, hx.2⟩
    have hyields : Yields (fun resp => resp.userInfo.userId = x.id) (do
        let valid ← verifyPassword cfg pw x.hashedPassword
        Prog.raiseIf (valid = false) .invalidCredentials
        Prog.raiseIf (x.status = .suspended) .userSuspended
        Prog.raiseIf (x.status = .banned) .userBanned
        let activeSessions ← getActiveSessionsForUser x.id
        (toRevoke activeSessions).forM evict
        openSession cfg x.toEntity d ip) := by
      refine .bind Only.ret fun _ => .bind Only.raiseIf fun _ => .bind Only.raiseIf fun _ => ?_
      refine .bind Only.raiseIf fun _ => .bind (spares_activeSessions _) fun _ => ?_
      have hopen : Yields (fun resp => resp.userInfo.userId = x.toEntity.id)
        (openSession cfg x.toEntity d ip) := yields_openSession
      exact .bind (Only.forM fun s => spares_later (only_evict s)) fun _ => hopen
    have hwp := Only.wp_and (T := records cfg) (P := Careful) (I := Met x.id) hyields
      (fun _ hi => hi.1) (fun _ _ r he hi => ⟨he.careful hi.1 r, hi.2.mono _⟩) hm
    refine Trace.wp_mono _ hwp fun r h hq => ⟨hq.2.1, fun resp he => ?_⟩
    obtain ⟨a, rfl, ha⟩ := map_eq_ok he
    cases ha
    rw [hq.1 resp rfl]
    exact hq.2.2
  · exact herror _ hc

theorem spares_createUser {payload : UserCreate} : Only Eff.Spares (createUser payload) := by
  refine (spares_prior (only_prior (only_findUser _))).bind fun o => ?_
  cases o with
  | some u =>
    simp only
    split <;> exact Only.throw
  | none =>
    refine (Only.perform trivial).bind fun _ => (Only.perform trivial).bind fun _ => ?_
    refine Only.bind ?_ fun _ => (Only.perform trivial).bind fun _ => Only.pure
    refine (Only.perform trivial).bind fun _ => (Only.perform trivial).bind fun _ => ?_
    exact (Only.perform trivial).bind fun _ => Only.pure

theorem spares_refreshToken {request : Token} {ip : Option String} :
    Only Eff.Spares (refreshToken cfg request ip) := by
  refine Only.bind (Only.tryCatch (spares_prior (only_prior (only_decodeToken _)))
    fun _ => Only.throw) fun c => ?_
  refine Only.raiseIf.bind fun _ => Only.raiseIf.bind fun _ => ?_
  refine (spares_prior (only_prior (only_getSessionById _))).bind fun o => ?_
  cases o with
  | none => exact Only.throw
  | some session =>
    simp only
    split
    · refine (Only.perform trivial).bind fun t => ?_
      split
      · refine Only.bind ((Only.perform trivial).tryCatch fun _ => Only.pure) fun cached => ?_
        split
        · exact Only.ret
        · exact Only.throw
      · exact (spares_logoutAll _).bind fun _ => Only.throw
    · exact spares_later (only_checkAndRotate ..)

theorem spares_logout {s : String} : Only Eff.Spares (logout s) := by
  refine (spares_prior (only_prior (only_getSessionById s))).bind fun o => ?_
  cases o with
  | none => exact Only.pure
  | some session =>
    refine (spares_prior (only_revoke session)).bind fun _ => ?_
    refine (spares_later (only_updateSession _)).bind fun _ => (Only.perform trivial).bind fun _ => ?_
    exact (Only.suppress (Only.perform trivial)).bind fun _ => Only.suppress (Only.perform trivial)

theorem turned_map {p : M β} {f : β → Out}
    (hp : Carefully cfg p (fun r h => Careful h ∧ Turned u r h) h) :
    Carefully cfg (f <$> p) (fun r h => Careful h ∧ Turned u r h) h := by
  refine (Trace.wp_map _ _ _ _ _).mpr (Trace.wp_mono _ hp fun r h ht => ⟨ht.1, ht.2.imp_right ?_⟩)
  rintro rfl
  rfl

theorem turned_gated {token : Token} {p : M β} {f : β → Out} {c : User → Prop} [DecidablePred c]
    {e : Exc} (hp : ∀ h, Careful h → Carefully cfg p (fun r h => Careful h ∧ Turned u r h) h) :
    Carefully cfg (f <$> (do
        let currentUser ← getCurrentUser cfg token
        Prog.raiseIf (c currentUser) e
        p)) (fun r h => Careful h ∧ (SawLive u h ∨ ∃ e, r = .error e)) [] := by
  refine (Trace.wp_map _ _ _ _ _).mpr ((Trace.wp_bind _ _ _ _ _).mpr ?_)
  have hgate : Carefully cfg (getCurrentUser cfg token) (fun _ => Careful) [] :=
    careful_spares (spares_prior (only_prior (only_getCurrentUser token))) (by simp [Careful])
  refine Trace.wp_mono _ hgate fun r h hc => ?_
  cases r with
  | error y => exact ⟨hc, .inr ⟨y, rfl⟩⟩
  | ok x =>
    refine (Trace.wp_bind _ _ _ _ _).mpr ((Trace.wp_raiseIf _ _ _ _ _).mpr ⟨fun _ => ?_, fun _ => ?_⟩)
    · exact ⟨hc, .inr ⟨e, rfl⟩⟩
    · refine Trace.wp_mono _ (hp h hc) fun r h ht => ⟨ht.1, ht.2.imp_right fun hr => ?_⟩
      rw [hr]
      exact ⟨_, rfl⟩

theorem heeding_body (k : Call) : Carefully cfg (k.body cfg) (Heeding k) [] := by
  have hnil : Careful [] := by simp [Careful]
  have hspares : ∀ {β : Type} {p : M β} {f : β → Out}, (∀ r, k.Heeds (fun _ => False) r) →
      Only Eff.Spares p → Carefully cfg (f <$> p) (Heeding k) [] := fun hk hp =>
    Trace.wp_mono _ (careful_spares hp.map hnil) fun r h hc => ⟨hc, (hk r).mono fun _ => False.elim⟩
  cases k with
  | createUser p => exact hspares (fun _ => trivial) spares_createUser
  | getUser u =>
    refine turned_map ?_
    rw [← bind_pure (getUser u)]
    exact turned_getUser hnil fun x h _ _ hm => hm
  | listUsers offset limit => exact heeding_listUsers
  | updateUser u p => exact turned_map (turned_updateUser hnil)
  | setPassword u pw => exact turned_map (turned_setPassword hnil)
  | changeStatus u st => exact turned_map (turned_changeStatus hnil)
  | deleteUser u => exact turned_map (turned_deleteUser hnil)
  | authenticate e pw d ip => exact heeding_authenticate
  | refreshToken t ip => exact hspares (fun _ => trivial) spares_refreshToken
  | logout s => exact hspares (fun _ => trivial) spares_logout
  | logoutAll u => exact hspares (fun _ => trivial) (spares_logoutAll u)
  | getCurrentUser t =>
    exact hspares (fun _ => trivial) (spares_prior (only_prior (only_getCurrentUser t)))
  | refreshRoute b c ip =>
    refine hspares (fun _ => trivial) ?_
    unfold refreshRoute
    cases chosenToken b c with
    | none => exact Only.throw
    | some t => exact spares_refreshToken
  | logoutRoute t =>
    refine hspares (fun _ => trivial) (Only.suppress ?_)
    refine (spares_prior (only_prior (only_decodeToken t))).bind fun c => ?_
    split
    · exact spares_logout
    · exact Only.pure
  | logoutAllRoute t =>
    exact hspares (fun _ => trivial)
      ((spares_prior (only_prior (only_getCurrentUser t))).bind fun x => spares_logoutAll x.id)
  | updateUserRoute t u p => exact turned_gated fun h hc => turned_updateUser hc
  | deleteUserRoute t u => exact turned_gated fun h hc => turned_deleteUser hc

theorem heeding_prog (k : Call) : Carefully cfg (k.prog cfg) (Heeding k) [] := by
  refine (Trace.wp_ensure _ _ _ _ _).mpr (Trace.wp_mono _ (heeding_body k) ?_)
  rintro r h ⟨hc, hk⟩ x -
  have hclose : Eff.close.Spares := trivial
  have hc' : Careful (h ++ [Eff.close.act x]) := hclose.careful hc x
  exact ⟨hc', hc', hk.mono fun u hu => hu.mono _⟩

end Programs

section Runs

variable {s s' : State γ} {u : String}

theorem Reachable.careful (hr : Reachable cfg C s) {i : Nat} {l n : UserModel}
    (hv : .wrote (.updateUser l n) ∈ s.world.hist i) :
    SawLive l.id (s.world.hist i) ∧ (n.deletedAt = l.deletedAt ∨ n.deletedAt ≠ none) := by
  obtain ⟨k, hk, -⟩ := hr.provenance.lawful_of_mem hv
  exact (hr.programs (fun _ => by simp [Careful]) heeding_prog hk).1 l n hv

def Gone (u : String) (d : Database) : Prop := ∃ x, d.users.get u = some x ∧ x.deletedAt ≠ none

theorem Gone.applyAll {d : Database} {ws : List Write} (hd : Gone u d) (hs : ∀ v ∈ ws, v.Sound d)
    (hc : ∀ l n, .updateUser l n ∈ ws → n.deletedAt = l.deletedAt ∨ n.deletedAt ≠ none) :
    Gone u (d.applyAll ws) := by
  obtain ⟨x, hx, hne⟩ := hd
  obtain ⟨y, hy, -⟩ := (Database.applyAll_grows hs).users u x hx
  refine ⟨y, hy, ?_⟩
  have hlast : y.deletedAt = LastWriter.last (Write.sets u .deletedAt) ws x.deletedAt :=
    Database.applyAll_sets .deletedAt hx hy
  rw [hlast]
  rcases LastWriter.last_cases (Write.sets u .deletedAt) ws x.deletedAt with
    ⟨he, -⟩ | ⟨ws₁, v, ws₂, rfl, hv, -⟩
  · rw [he]
    exact hne
  · obtain ⟨l, n, rfl, -, hln, he⟩ := Write.sets_eq_some hv
    rw [he]
    exact (hc l n (by simp)).resolve_left hln

theorem Reachable.view_gone (hr : Reachable cfg C s) (hd : Gone u s.world.db) (i : Nat) :
    Gone u (s.world.view i) := by
  have hprov := hr.provenance
  refine hd.applyAll (hprov.sound_pending i) fun l n hv => ?_
  exact (hr.careful (hprov.of_pending hv).2).2

theorem Moved.sawLive {i : Nat} {a : Act} {w w' : World γ} (hmv : Moved C i a w w')
    (hd : Gone u (w.view i)) {j : Nat} (hs : SawLive u (w'.hist j)) : SawLive u (w.hist j) := by
  obtain ⟨x, hx, hid, hlive⟩ := hs
  rcases hmv.sawUser.mp hx with hx | ⟨-, q, rows, ha, hmem⟩
  · exact ⟨x, hx, hid, hlive⟩
  · obtain ⟨rank, rfl⟩ := hmv.readUsers q rows ha
    have hget := Keyed.get_of_mem (UserQuery.mem_of_eval hmem).1
    obtain ⟨y, hy, hne⟩ := hd
    rw [← hid] at hy
    rw [Option.some.inj (hget.symm.trans hy)] at hlive
    exact absurd hlive hne

theorem Reachable.gone (hr : Reachable cfg C s) (hd : Gone u s.world.db)
    {ls : List (Label Call (Choice χ))} (hs : (app cfg C).execs ls s = some s') :
    Gone u s'.world.db ∧ ∀ i, s.script i = none → ¬ SawLive u (s'.world.hist i) := by
  refine ((app cfg C).execs_invariant (A := fun _ _ => True)
    (P := fun t => Reachable cfg C t ∧ Gone u t.world.db ∧
      ∀ i, s.script i = none → ¬ SawLive u (t.world.hist i)) ?_ ⟨hr, hd, fun i hi hl => ?_⟩
    (app cfg C).along_trivial hs).2
  · rintro l t t' ⟨hr, hd, hl⟩ - hs
    refine ⟨hr.exec hs, ?_⟩
    generalize hw : t'.world = w'
    cases hw ▸ hr.change hs with
    | idle _ c w _ hw =>
      rw [hw]
      exact ⟨hd, hl⟩
    | moved i c k β e f r w _ _ hmv _ =>
      refine ⟨?_, fun j hj hs => hl j hj (hmv.sawLive (hr.view_gone hd i) hs)⟩
      rw [hmv.db]
      split
      · exact hr.view_gone hd i
      · exact hd
  · obtain ⟨x, ⟨q, rows, hmem, -⟩, -⟩ := hl
    rw [hr.provenance.idle i hi] at hmem
    simp at hmem

theorem Reachable.unowned (hr : Reachable cfg C s) {ls : List (Label Call (Choice χ))}
    (hs : (app cfg C).execs ls s = some s') {x y : UserModel}
    (hx : s.world.db.users.get u = some x) (hy : s'.world.db.users.get u = some y) {c : Column}
    (hc : ∀ k, c.ownedBy k = false) : y.get c = x.get c := by
  rw [execs_db hs] at hy
  rw [Database.applyAll_sets c hx hy]
  rcases LastWriter.last_cases (Write.sets u c) ((commitLog cfg C ls s).map Prod.snd) (x.get c) with
    ⟨he, -⟩ | ⟨ws₁, v, ws₂, hws, hv, -⟩
  · exact he
  · obtain ⟨l, n, rfl, -, hln, -⟩ := Write.sets_eq_some hv
    have hmem : Write.updateUser l n ∈ (commitLog cfg C ls s).map Prod.snd := by simp [hws]
    obtain ⟨⟨i, v⟩, hm, rfl⟩ := List.mem_map.mp hmem
    obtain ⟨k, -, hown⟩ := (hr.execs hs).provenance.sets_owned (commitLog_written hr hs hm)
    exact absurd (hown c hln) (by simp [hc k])

/-- A deletion is final. Whatever is still running, the row stays, deleted; and what is asked after
the deletion was committed neither changes it, nor opens a session for the user, nor answers about
the user otherwise than that there is none. -/
theorem deleted_for_good (hr : Reachable cfg C s) {x : UserModel}
    (hx : s.world.db.users.get u = some x) (hd : x.deletedAt ≠ none)
    {ls : List (Label Call (Choice χ))} (hs : (app cfg C).execs ls s = some s') :
    (∃ y, s'.world.db.users.get u = some y ∧ y.deletedAt ≠ none ∧ y.name = x.name ∧
      y.role = x.role ∧ y.createdAt = x.createdAt) ∧
    ∀ i, s.script i = none →
      (∀ l n, .wrote (.updateUser l n) ∈ s'.world.hist i → l.id ≠ u) ∧
      (∀ r, .wrote (.insertSession r) ∈ s'.world.hist i → r.userId ≠ u) ∧
      ∀ k r, s'.script i = some k → s'.answer i = some r → k.Heeds (· ≠ u) r := by
  obtain ⟨⟨y, hy, hne⟩, hlive⟩ := hr.gone ⟨x, hx, hd⟩ hs
  have hr' := hr.execs hs
  refine ⟨⟨y, hy, hne, ?_, ?_, ?_⟩, fun i hi => ⟨fun l n hv he => ?_, fun r hv he => ?_,
    fun k r hk ha => ?_⟩⟩
  · exact hr.unowned (c := .name) hs hx hy fun _ => rfl
  · exact hr.unowned (c := .role) hs hx hy fun _ => rfl
  · exact hr.unowned (c := .createdAt) hs hx hy fun _ => rfl
  · exact hlive i hi (he ▸ (hr'.careful hv).1)
  · obtain ⟨k, h₁, h₂, -, hh, -, -, hop⟩ := hr'.provenance.wrote hv
    obtain ⟨z, hz, hid, hserv⟩ := hop.user
    refine hlive i hi ⟨z, ?_, hid.trans he, hserv.1⟩
    rw [hh]
    exact hz.mono
  · have hheeding := (hr'.programs (fun _ => by simp [Careful]) heeding_prog hk).2 r ha
    exact hheeding.2.mono fun v hv he => hlive i hi (he ▸ hv)

end Runs

def removal : List (Label Call (Choice Unit)) :=
  .call 0 (.updateUser "alice" { email := some "a@example.org", username := none }) ::
    effects 0 3 1 "" ++ .call 1 (.deleteUser "alice") :: effects 1 12 2 ""

def aftermath : List (Label Call (Choice Unit)) :=
  effects 0 5 3 "" ++ .call 2 (.getUser "alice") :: effects 2 2 4 ""

theorem deleted_for_good_alice : ∃ (s s' : State (TimedStore Key Json)) (y : UserModel),
    sampleApp.execs removal sampleState = some s ∧ sampleApp.execs aftermath s = some s' ∧
    s'.world.db.users.get "alice" = some y ∧ y.email = "a@example.org" ∧ y.deletedAt ≠ none ∧
    s'.answer 2 = some (.error (.userNotFound "alice")) := by
  have hs : sampleApp.execs removal sampleState = some (sampleApp.afterwards removal sampleState) :=
    sampleApp.execs_afterwards (by decide +kernel)
  have hs' : sampleApp.execs aftermath (sampleApp.afterwards removal sampleState) =
      some (sampleApp.afterwards aftermath (sampleApp.afterwards removal sampleState)) :=
    sampleApp.execs_afterwards (by decide +kernel)
  have hx : (sampleApp.afterwards removal sampleState).world.db.users.get "alice" =
      some { alice with deletedAt := some (seconds 2), updatedAt := seconds 2 } := by decide +kernel
  obtain ⟨⟨y, hy, hne, -⟩, hafter⟩ :=
    deleted_for_good (sampleState_reachable.execs hs) hx (by simp) hs'
  have hemail : ((sampleApp.afterwards aftermath (sampleApp.afterwards removal
      sampleState)).world.db.users.get "alice").map UserModel.email = some "a@example.org" := by
    decide +kernel
  have hans : ((sampleApp.afterwards aftermath (sampleApp.afterwards removal
      sampleState)).answer 2).isSome = true := by decide +kernel
  obtain ⟨r, hr⟩ := Option.isSome_iff_exists.mp hans
  rw [hy, Option.map_some, Option.some.injEq] at hemail
  have hheeds := (hafter 2 (by decide +kernel)).2.2 (.getUser "alice") r (by decide +kernel) hr
  refine ⟨_, _, y, hs, hs', hy, hemail, hne, ?_⟩
  rw [hr, hheeds.resolve_left fun h => h rfl]

end AsyncPulse
