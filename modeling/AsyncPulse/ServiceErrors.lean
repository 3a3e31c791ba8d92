import AsyncPulse.EffectRaising
import AsyncPulse.Refusals
set_option autoImplicit false

namespace AsyncPulse
open Effect Trace

variable {cfg : Config} {h : List Act} {α β : Type}

def refusals (cfg : Config) : Trace Eff Exc Act where
  event := Eff.act
  valid h e r := Answer cfg h e r ∧ Replies cfg h e r

abbrev Never : Exc → Prop := fun _ => False

theorem raising_reply {e : Eff β} {F : β → List Act → Prop}
    (he : ∀ r, Answer cfg h e r → Replies cfg h e r →
      ∃ b, r = .ok b ∧ F b (h ++ [e.act (.ok b)])) :
    (refusals cfg).Raising (.perform e) Never F h := by
  rintro r ⟨ha, hr⟩
  obtain ⟨b, rfl, hF⟩ := he r ha hr
  exact ⟨trivial, hF⟩

theorem raising_now : (refusals cfg).Raising now Never (fun t h' => h' = h ++ [.clock t]) h :=
  raising_reply fun _ ⟨t, ht, _⟩ _ => ⟨t, ht, rfl⟩

theorem raising_uuid4 : (refusals cfg).Raising uuid4 Never
    (fun u h' => h' = h ++ [.drew u] ∧ ∀ x, .wrote (.insertSession x) ∈ h → x.id ≠ u) h :=
  raising_reply fun _ ⟨u, hu, _⟩ hr => ⟨u, hu, rfl, hr u hu⟩

theorem raising_commit : (refusals cfg).Raising commit Never (fun _ _ => True) h :=
  raising_reply fun _ hr _ => ⟨(), hr, trivial⟩

theorem raising_getJson {key : Key} : (refusals cfg).Raising (getJson key) Never
    (fun v _ => ∀ x, v = some x → key.Fits cfg.jose x) h :=
  raising_reply fun _ ⟨v, hv, hfits⟩ _ => ⟨v, hv, hfits⟩

theorem raising_setJson {key : Key} {v : Json} {ttl : Int} :
    (refusals cfg).Raising (setJson key v ttl) Never (fun _ _ => True) h :=
  raising_reply fun _ hr _ => ⟨(), hr, trivial⟩

theorem raising_cacheDelete {key : Key} :
    (refusals cfg).Raising (cacheDelete key) Never (fun _ _ => True) h :=
  raising_reply fun _ hr _ => ⟨(), hr, trivial⟩

theorem raising_hashPassword {pw : String} : (refusals cfg).Raising (hashPassword pw)
    (fun x => ∃ salt, cfg.hashpw salt pw = .error x)
    (fun s _ => ∃ salt, cfg.hashpw salt pw = .ok s) h := by
  rintro (x | s) ⟨-, hr⟩
  · exact ⟨trivial, hr⟩
  · exact ⟨trivial, hr⟩

theorem raising_selectUsers {q : UserQuery} : (refusals cfg).Raising (.perform (.selectUsers q))
    Never (fun rows h' => h' = h ++ [.readUsers q rows] ∧ UserAnswer q rows ∧
      (q.single = true → rows.length ≤ 1) ∧ ∀ x, SawUser h x → q = .row x.id → rows ≠ []) h :=
  raising_reply fun _ ⟨rows, hrows, ha⟩ hr => ⟨rows, hrows, rfl, ha, hr rows hrows⟩

theorem raising_selectSessions {q : SessionQuery} :
    (refusals cfg).Raising (.perform (.selectSessions q)) Never
      (fun rows h' => h' = h ++ [.readSessions q rows] ∧ SessionAnswer h q rows ∧
        (∀ x ∈ rows, fitsOpt 255 x.deviceInfo = true) ∧
        ∀ x, Saw h x → q = .byId x.id → rows ≠ []) h :=
  raising_reply fun _ ⟨rows, hrows, ha⟩ hr => ⟨rows, hrows, rfl, ha, hr rows hrows⟩

/-- A statement can be aborted while it waits, or refused for what it says. -/
theorem raising_write {v : Write} : (refusals cfg).Raising (.perform (.write v))
    (fun x => x = .operationalError ∨ x = .integrityError ∧ v.Clashes h ∨
      x = .dataError ∧ v.fits = false) (fun _ _ => True) h := by
  rintro (x | u) ⟨-, hr⟩
  · refine ⟨trivial, ?_⟩
    rcases hr with ⟨hr, -⟩ | hr | ⟨hr, hv⟩ | ⟨hr, hv⟩ <;> cases hr
    · exact .inl rfl
    · exact .inr (.inl ⟨rfl, hv⟩)
    · exact .inr (.inr ⟨rfl, hv⟩)
  · exact ⟨trivial, trivial⟩

theorem raising_findUser {q : UserQuery} :
    (refusals cfg).Raising (findUser q) (fun x => x = .multipleResultsFound ∧ q.single = false)
      (fun o h' => ∀ u, o = some u → ∃ x, SawUser h' x ∧ u = x.toEntity ∧ q.selects x = true) h := by
  refine raising_selectUsers.step fun rows l ⟨hl, ha, hone, _⟩ => ?_
  rw [hl]
  cases rows with
  | nil => exact fun u hu => by cases hu
  | cons x rest =>
    cases rest with
    | nil =>
      rintro u ⟨rfl⟩
      exact ⟨x, ⟨q, [x], by simp, by simp⟩, rfl, ha.selects x (by simp)⟩
    | cons y rest =>
      refine ⟨rfl, ?_⟩
      by_contra hs
      have hlen := hone (by simpa using hs)
      simp at hlen

theorem raising_lookup {q : UserQuery} (hq : q.single = true) :
    (refusals cfg).Raising (findUser q) Never
      (fun o h' => ∀ u, o = some u → ∃ x, SawUser h' x ∧ u = x.toEntity ∧ q.selects x = true) h := by
  refine raising_findUser.mono (fun x hx => ?_) fun _ _ => id
  rw [hq] at hx
  cases hx.2

theorem raising_getSessionById {s : String} : (refusals cfg).Raising (getSessionById s) Never
    (fun o h' => ∀ u, o = some u → ∃ x, Saw h' x ∧ x.id = s ∧ u = x.toEntity ∧
      fitsOpt 255 x.deviceInfo = true) h := by
  refine raising_selectSessions.step fun rows l ⟨hl, ha, hfits, _⟩ => ?_
  rw [hl]
  rcases ha.at_most_one with rfl | ⟨x, rfl, hid⟩
  · exact fun u hu => by cases hu
  · rintro u ⟨rfl⟩
    exact ⟨x, ⟨.byId s, [x], by simp, by simp⟩, hid, rfl, hfits x (by simp)⟩

theorem raising_getActiveSessions {u : String} :
    (refusals cfg).Raising (getActiveSessionsForUser u) Never
      (fun ss h' => ∀ s ∈ ss, ∃ x, Saw h' x ∧ x.id = s.id) h := by
  refine raising_now.step fun t l _ => raising_selectSessions.step fun rows l' ⟨hl, _⟩ => ?_
  rw [hl]
  intro s hs
  obtain ⟨x, hx, rfl⟩ := List.mem_map.mp hs
  exact ⟨x, ⟨.activeOf u t, rows, by simp, hx⟩, rfl⟩

abbrev Aborted : Exc → Prop := fun x => x = .operationalError

theorem raising_updateSession {s : UserSession} (hs : ∃ x, Saw h x ∧ x.id = s.id) :
    (refusals cfg).Raising (updateSession s) Aborted (fun _ _ => True) h := by
  obtain ⟨x, hx, hid⟩ := hs
  refine raising_selectSessions.step fun rows l ⟨_, _, _, hrow⟩ => ?_
  cases rows with
  | nil => exact absurd rfl (hrow x hx (by rw [hid]))
  | cons loaded rest =>
    simp only
    split
    · trivial
    · refine raising_write.mono ?_ fun _ _ => id
      rintro e (he | ⟨-, hc⟩ | ⟨-, hf⟩)
      · exact he
      · exact hc.elim
      · cases hf

theorem raising_revokeAllSessions {u : String} :
    (refusals cfg).Raising (revokeAllSessions u) Aborted (fun _ _ => True) h := by
  refine raising_selectSessions.step fun rows l _ => raising_now.step fun t l' _ => ?_
  refine Raising.forM (I := fun _ => True) (fun _ _ _ => trivial) trivial fun m _ h' _ => ?_
  refine raising_write.mono ?_ fun _ _ => id
  rintro e (he | ⟨-, hc⟩ | ⟨-, hf⟩)
  · exact he
  · exact hc.elim
  · cases hf

theorem raising_createSession {s : UserSession} (hc : ¬ (Write.insertSession s.toModel).Clashes h) :
    (refusals cfg).Raising (createSession s)
      (fun x => x = .operationalError ∨ x = .dataError ∧
        (fitsOpt 255 s.deviceInfo = false ∨ fitsOpt 45 s.ipAddress = false))
      (fun _ _ => True) h := by
  refine raising_write.mono ?_ fun _ _ => id
  rintro e (he | ⟨-, hcl⟩ | ⟨he, hf⟩)
  · exact .inl he
  · exact absurd hcl hc
  · exact .inr ⟨he, by simpa [Write.fits, UserSession.toModel, imp_iff_not_or] using hf⟩

theorem raising_changeRow {u : String} {f : UserModel → UserModel}
    (hu : ∃ x, SawUser h x ∧ x.id = u) : (refusals cfg).Raising (changeRow u f)
      (fun e => e = .operationalError ∨
        ∃ l t, e = .integrityError ∧ (Write.updateUser l { f l with updatedAt := t }).Clashes [] ∨
          e = .dataError ∧ (Write.updateUser l { f l with updatedAt := t }).fits = false)
      (fun _ _ => True) h := by
  obtain ⟨x, hx, hid⟩ := hu
  refine raising_selectUsers.step fun rows l ⟨_, _, hone, hrow⟩ => ?_
  cases rows with
  | nil => exact absurd rfl (hrow x hx (by rw [hid]))
  | cons loaded rest =>
    cases rest with
    | cons y rest =>
      have hlen := hone rfl
      simp at hlen
    | nil =>
      refine raising_now.step fun t l' _ => ?_
      simp only
      split
      · trivial
      · refine Raising.bind (raising_write.mono ?_ fun _ _ => id) fun _ _ _ => trivial
        rintro e (he | ⟨he, hc⟩ | ⟨he, hf⟩)
        · exact .inl he
        · exact .inr ⟨loaded, t, .inl ⟨he, hc⟩⟩
        · exact .inr ⟨loaded, t, .inr ⟨he, hf⟩⟩

theorem raising_getUser {u : String} : (refusals cfg).Raising (getUser u)
    (fun x => x = .userNotFound u)
    (fun v h' => ∃ x, SawUser h' x ∧ x.id = u ∧ v = x.toEntity ∧ x.deletedAt = none) h := by
  refine (raising_lookup rfl).step fun o l ho => ?_
  cases o with
  | none => exact Raising.throw rfl
  | some v =>
    obtain ⟨x, hx, hv, hsel⟩ := ho v rfl
    have hsel : x.id = u ∧ x.deletedAt = none := by simpa [UserQuery.selects] using hsel
    exact ⟨x, hx, hsel.1, hv, hsel.2⟩

theorem raising_checkFree {u detail : String} {q : String → UserQuery}
    (hq : ∀ v, (q v).single = true) (o : Option String) :
    (refusals cfg).Raising (checkFree u (fun v => findUser (q v)) detail o)
      (fun x => x = .userAlreadyExists detail) (fun _ _ => True) h := by
  cases o with
  | none => trivial
  | some v =>
    refine (raising_lookup (hq v)).step fun found l _ => ?_
    cases found with
    | none => trivial
    | some y => exact Raising.raiseIf (fun _ => rfl) fun _ => trivial

def UpdateErrors (u : String) (p : UserUpdate) (x : Exc) : Prop :=
  x ∈ [.userNotFound u, emailTaken, usernameTaken, .operationalError, .integrityError] ∨
    x = .dataError ∧ ((∃ e, p.email = some e ∧ fits 255 e = false) ∨
      ∃ n, p.username = some n ∧ fits 100 n = false)

theorem UserUpdate.unfit {p : UserUpdate} {r n : UserModel} (he : n.email = p.email.getD r.email)
    (hn : n.username = p.username.getD r.username) (hh : n.hashedPassword = r.hashedPassword)
    (hf : (Write.updateUser r n).fits = false) :
    (∃ e, p.email = some e ∧ fits 255 e = false) ∨
      ∃ m, p.username = some m ∧ fits 100 m = false := by
  by_contra hall
  obtain ⟨hemail, huser⟩ := not_or.mp hall
  have hemail : n.email = r.email ∨ fits 255 n.email = true := by
    cases hp : p.email with
    | none => exact .inl (by rw [he, hp]; rfl)
    | some e =>
      rw [he, hp]
      exact .inr (by_contra fun hfit => hemail ⟨e, hp, by simpa using hfit⟩)
  have huser : n.username = r.username ∨ fits 100 n.username = true := by
    cases hp : p.username with
    | none => exact .inl (by rw [hn, hp]; rfl)
    | some m =>
      rw [hn, hp]
      exact .inr (by_contra fun hfit => huser ⟨m, hp, by simpa using hfit⟩)
  rw [← Bool.not_eq_true] at hf
  exact hf (by simp [Write.fits, hemail, huser, hh])

theorem raising_updateUser {u : String} {p : UserUpdate} :
    (refusals cfg).Raising (updateUser u p) (UpdateErrors u p) (fun _ _ => True) h := by
  refine raising_getUser.seq (fun x hx => .inl (by simp [hx])) fun v l hv => ?_
  obtain ⟨x, hx, hid, rfl, -⟩ := hv
  refine (raising_checkFree (q := .byEmail) (fun _ => rfl) _).seq
    (fun x hx => .inl (by simp [hx, emailTaken])) fun _ l₁ _ => ?_
  refine (raising_checkFree (q := .byUsername) (fun _ => rfl) _).seq
    (fun x hx => .inl (by simp [hx, usernameTaken])) fun _ l₂ _ => ?_
  simp only
  split
  · trivial
  · have hrow : ∃ y, SawUser (h ++ l ++ l₁ ++ l₂) y ∧ y.id = x.toEntity.id := ⟨x, hx.mono.mono, rfl⟩
    have hallowed : ((p.email.map Field.email).toList ++
        (p.username.map Field.username).toList).any Field.forbidden = false := by
      cases p.email <;> cases p.username <;> rfl
    refine Raising.bind (F := fun _ _ => True) ?_ fun _ _ _ => raising_commit.step fun _ _ _ =>
      raising_cacheDelete.step fun _ _ _ => trivial
    refine Raising.bind (F := fun _ _ => True) (Raising.raiseIf (fun hf => ?_) fun _ => trivial)
      fun _ l₃ _ => ?_
    · rw [hallowed] at hf
      cases hf
    · have hrow' : ∃ y, SawUser (h ++ l ++ l₁ ++ l₂ ++ l₃) y ∧ y.id = x.toEntity.id :=
        hrow.imp fun y hy => ⟨hy.1.mono, hy.2⟩
      refine (raising_changeRow hrow').mono ?_ fun _ _ => id
      rintro e (rfl | ⟨r, t, ⟨rfl, -⟩ | ⟨rfl, hf⟩⟩)
      · exact .inl (by simp)
      · exact .inl (by simp)
      · refine .inr ⟨rfl, UserUpdate.unfit ?_ ?_ ?_ hf⟩
        all_goals cases p.email <;> cases p.username <;> rfl

def PasswordErrors (cfg : Config) (u pw : String) (x : Exc) : Prop :=
  x = .userNotFound u ∨ x = .operationalError ∨ (∃ salt, cfg.hashpw salt pw = .error x) ∨
    x = .dataError ∧ ∃ salt hashed, cfg.hashpw salt pw = .ok hashed ∧ fits 255 hashed = false

theorem raising_setPassword {u pw : String} : (refusals cfg).Raising (setPassword u pw)
    (PasswordErrors cfg u pw) (fun _ _ => True) h := by
  refine raising_getUser.seq (fun x hx => .inl hx) fun v l ⟨x, hx, hid, _⟩ => ?_
  refine raising_hashPassword.seq (fun x hx => .inr (.inr (.inl hx))) fun s l₁ ⟨salt, hs⟩ => ?_
  refine (raising_changeRow ⟨x, hx.mono, hid⟩).seq ?_ fun _ _ _ => raising_commit.step fun _ _ _ =>
    raising_cacheDelete.step fun _ _ _ => trivial
  rintro e (rfl | ⟨r, t, ⟨rfl, hc⟩ | ⟨rfl, hf⟩⟩)
  · exact .inr (.inl rfl)
  · simp [Write.Clashes] at hc
  · simp [Write.fits] at hf
    exact .inr (.inr (.inr ⟨rfl, salt, s, hs, hf.2⟩))

theorem raising_revokeUserSessions {u : String} :
    (refusals cfg).Raising (revokeUserSessions u) Aborted (fun _ _ => True) h := by
  refine raising_getActiveSessions.step fun ss l _ => raising_revokeAllSessions.bind fun _ l₁ _ => ?_
  refine Raising.forM (I := fun _ => True) (fun _ _ _ => trivial) trivial fun s _ h' _ => ?_
  exact raising_cacheDelete.step fun _ _ _ => raising_cacheDelete.mono (fun _ => False.elim)
    fun _ _ => id

def StatusErrors (u : String) (st : UserStatus) (x : Exc) : Prop :=
  x = .userNotFound u ∨ x = .operationalError ∨ ∃ old, st ≠ old ∧
    st ∉ User.validTransitions old ∧ x = .invalidStatusTransition u old st

theorem User.transitionTo_error {u : User} {st : UserStatus} {x : Exc}
    (h : u.transitionTo st = .error x) : st ≠ u.status ∧ st ∉ validTransitions u.status ∧
      x = .invalidStatusTransition u.id u.status st := by
  unfold transitionTo at h
  split at h
  · cases h
  · rename_i hne
    split at h <;> cases h
    rename_i hmem
    exact ⟨hne, hmem, rfl⟩

theorem raising_changeStatus {u : String} {st : UserStatus} :
    (refusals cfg).Raising (changeStatus u st) (StatusErrors u st) (fun _ _ => True) h := by
  refine raising_getUser.seq (fun x hx => .inl hx) fun v l ⟨x, hx, hid, hv, _⟩ => ?_
  refine Raising.bind (F := fun v' _ => True) ?_ fun v' l₁ _ => ?_
  · cases ht : v.transitionTo st with
    | ok v' => trivial
    | error e =>
      obtain ⟨hne, hmem, rfl⟩ := User.transitionTo_error ht
      refine .inr (.inr ⟨v.status, hne, hmem, ?_⟩)
      rw [hv, ← hid]
      rfl
  · refine (raising_changeRow ⟨x, hx.mono, hid⟩).seq ?_ fun updated l₂ _ => ?_
    · rintro e (rfl | ⟨r, t, ⟨rfl, hc⟩ | ⟨rfl, hf⟩⟩)
      · exact .inr (.inl rfl)
      · simp [Write.Clashes] at hc
      · simp [Write.fits] at hf
    · have hend : ∀ l, (refusals cfg).Raising (do
          commit
          cacheDelete (.user u)
          return updated) (StatusErrors u st) (fun _ _ => True) l := fun l =>
        raising_commit.step fun _ _ _ => raising_cacheDelete.step fun _ _ _ => trivial
      split
      · exact raising_revokeUserSessions.seq (fun x hx => .inr (.inl hx)) fun _ _ _ => hend _
      · exact hend _

/-- The errors of a removal of `u`. A user that is found is not removed yet, so
`UserAlreadyInactiveError` is not among them. -/
def DeleteErrors (u : String) (x : Exc) : Prop := x = .userNotFound u ∨ x = .operationalError

theorem raising_deleteUser {u : String} : (refusals cfg).Raising (deleteUser u) (DeleteErrors u)
    (fun _ _ => True) h := by
  refine raising_getUser.seq (fun x hx => .inl hx) fun v l ⟨x, hx, hid, hv, hlive⟩ => ?_
  refine Raising.step (F := fun v' _ => v'.id = v.id) ?_ fun v' l₁ hv' => ?_
  · refine (Raising.raiseIf (F := fun _ _ => True) (fun hd => ?_) fun _ => trivial).step fun _ _ _ =>
      raising_now.step fun _ _ _ => rfl
    rw [hv] at hd
    simp [UserModel.toEntity, hlive] at hd
  · refine Raising.seq (F := fun _ _ => True) (R := Aborted) ?_ (fun x hx => .inr hx)
      fun _ _ _ => raising_revokeUserSessions.seq (fun x hx => .inr hx) fun _ _ _ =>
        raising_commit.step fun _ _ _ => raising_cacheDelete.mono (fun _ => False.elim) fun _ _ => id
    refine Raising.step (F := fun _ _ => True) (Raising.raiseIf (fun hf => ?_) fun _ => trivial)
      fun _ l₂ _ => ?_
    · cases hf
    · refine (raising_changeRow ⟨x, hx.mono.mono, ?_⟩).mono ?_ fun _ _ => id
      · rw [hv', hv]
        rfl
      · rintro e (rfl | ⟨r, t, ⟨rfl, hc⟩ | ⟨rfl, hf⟩⟩)
        · rfl
        · simp [Write.Clashes, UserModel.setField] at hc
        · simp [Write.fits, UserModel.setField] at hf

def RegistrationErrors (cfg : Config) (p : UserCreate) (x : Exc) : Prop :=
  x ∈ [emailTaken, usernameTaken, .multipleResultsFound, .operationalError, .integrityError] ∨
    (∃ salt, cfg.hashpw salt p.password = .error x) ∨
    x = .dataError ∧ (¬ p.Fits ∨
      ∃ salt hashed, cfg.hashpw salt p.password = .ok hashed ∧ fits 255 hashed = false)

theorem raising_createUser {p : UserCreate} : (refusals cfg).Raising (createUser p)
    (RegistrationErrors cfg p) (fun _ _ => True) h := by
  refine raising_findUser.seq (fun x hx => .inl (by simp [hx.1])) fun o l _ => ?_
  cases o with
  | some u =>
    simp only
    split
    · exact Raising.throw (.inl (by simp [emailTaken]))
    · exact Raising.throw (.inl (by simp [usernameTaken]))
  | none =>
    refine raising_uuid4.step fun u l₁ _ => ?_
    refine raising_hashPassword.seq (fun x hx => .inr (.inl hx)) fun s l₂ ⟨salt, hs⟩ => ?_
    refine Raising.bind (F := fun _ _ => True) ?_ fun _ _ _ => raising_commit.step fun _ _ _ => trivial
    refine raising_now.step fun t l₃ _ => raising_now.step fun t' l₄ _ => ?_
    refine raising_write.seq ?_ fun _ _ _ => trivial
    rintro e (rfl | ⟨rfl, -⟩ | ⟨rfl, hf⟩)
    · exact .inl (by simp)
    · exact .inl (by simp)
    · refine .inr (.inr ⟨rfl, ?_⟩)
      by_contra hall
      obtain ⟨hp, hhash⟩ := not_or.mp hall
      have hfits : fits 255 s = true := by
        by_contra hc
        exact hhash ⟨salt, s, hs, by simpa using hc⟩
      obtain ⟨he, hn, hu⟩ := not_not.mp hp
      simp [Write.fits, fitsOpt, he, hn, hu, hfits] at hf

theorem raising_createToken {subject : String} {d : Time} {ty : TokenType} {s : Option String} :
    (refusals cfg).Raising (createToken subject d ty s) Never
      (fun _ h' => ∃ t c, h' = h ++ [.clock t, .signed c]) h := by
  refine raising_now.step fun t l ht => raising_reply fun r ha _ => ?_
  exact ⟨_, ha, t, _, by rw [ht]; simp; rfl⟩

theorem raising_decodeToken {token : Token} : (refusals cfg).Raising (decodeToken cfg token)
    (fun x => x = .jwtError) (fun _ _ => True) h := by
  unfold decodeToken
  cases cfg.jose.verify token with
  | none => exact Raising.throw rfl
  | some c =>
    refine raising_now.step fun t l _ => ?_
    exact Raising.bind (F := fun _ _ => True) (Raising.raiseIf (fun _ => rfl) fun _ => trivial)
      fun _ _ _ => trivial

theorem raising_revoke {s : UserSession} : (refusals cfg).Raising s.revoke Never
    (fun s' _ => s'.id = s.id ∧ s'.deviceInfo = s.deviceInfo) h := by
  unfold UserSession.revoke
  cases s.revokedAt with
  | some t => exact ⟨rfl, rfl⟩
  | none => exact raising_now.step fun t l _ => ⟨rfl, rfl⟩

theorem raising_create {s u : String} {exp : Time} {d ip prev : Option String} :
    (refusals cfg).Raising (UserSession.create s u exp d ip prev) Never
      (fun s' h' => ∃ t, h' = h ++ [.clock t] ∧
        s' = { id := s, userId := u, expiresAt := exp, deviceInfo := d, ipAddress := ip,
               createdAt := t, revokedAt := none, previousSessionId := prev }) h :=
  raising_now.step fun t _ hl => ⟨t, hl, rfl⟩

theorem raising_logout {s : String} :
    (refusals cfg).Raising (logout s) Aborted (fun _ _ => True) h := by
  refine raising_getSessionById.step fun o l ho => ?_
  cases o with
  | none => trivial
  | some u =>
    obtain ⟨x, hx, hid, rfl, -⟩ := ho u rfl
    refine raising_revoke.step fun s' l₁ hs' => ?_
    refine (raising_updateSession ⟨x, hx.mono, hs'.1.symm⟩).bind fun _ _ _ =>
      raising_commit.step fun _ _ _ => ?_
    exact (Raising.suppress _).bind fun _ _ _ => Raising.suppress _

theorem raising_logoutAll {u : String} :
    (refusals cfg).Raising (logoutAll u) Aborted (fun _ _ => True) h := by
  refine raising_getActiveSessions.step fun ss l _ => raising_revokeAllSessions.bind fun _ l₁ _ =>
    raising_commit.step fun _ l₂ _ => ?_
  refine Raising.forM (I := fun _ => True) (fun _ _ _ => trivial) trivial fun s _ h' _ => ?_
  exact (Raising.suppress _).bind fun _ _ _ => Raising.suppress _

def LoginErrors (cfg : Config) (pw : String) (d ip : Option String) (x : Exc) : Prop :=
  x ∈ [.invalidCredentials, .userSuspended, .userBanned, .validationError, .operationalError] ∨
    (∃ hashed, cfg.checkpw pw hashed = .error x) ∨
    x = .dataError ∧ (fitsOpt 255 d = false ∨ fitsOpt 45 ip = false)

theorem raising_openSession {pw : String} {user : User} {d ip : Option String}
    (hu : ∃ x, SawUser h x ∧ x.id = user.id) : (refusals cfg).Raising (openSession cfg user d ip)
      (LoginErrors cfg pw d ip) (fun _ _ => True) h := by
  obtain ⟨x, hx, hid⟩ := hu
  refine raising_uuid4.step fun s l ⟨hl, hfresh⟩ => raising_now.step fun t l₁ hl₁ => ?_
  refine raising_createToken.step fun access l₂ ⟨t₂, c₂, hl₂⟩ =>
    raising_createToken.step fun refresh l₃ ⟨t₃, c₃, hl₃⟩ =>
      raising_create.step fun session l₄ hs => ?_
  obtain ⟨t₄, hl₄, rfl⟩ := hs
  rw [hl₄, hl₃, hl₂, hl₁, hl]
  refine (raising_createSession (not_not.mpr ⟨by simp [UserSession.toModel], ?_, ?_, ?_⟩)).seq ?_
    fun _ l₅ _ => raising_commit.step fun _ l₆ _ => (Raising.suppress _).bind fun _ l₇ _ => ?_
  · intro y hy
    exact hfresh y (by simpa using hy)
  · simp only [List.append_assoc]
    exact ⟨x, hx.mono, hid⟩
  · rintro p ⟨⟩
  · rintro e (rfl | ⟨rfl, hf⟩)
    · exact .inl (by simp)
    · exact .inr (.inr ⟨rfl, hf⟩)
  · unfold loginResponse
    cases user.name with
    | none => exact Raising.throw (.inl (by simp))
    | some name => trivial

theorem raising_authenticate {e pw : String} {d ip : Option String} :
    (refusals cfg).Raising (authenticate cfg e pw d ip) (LoginErrors cfg pw d ip)
      (fun _ _ => True) h := by
  refine (raising_lookup rfl).step fun o l ho => ?_
  cases o with
  | none => exact Raising.throw (.inl (by simp))
  | some user =>
    obtain ⟨x, hx, hv, -⟩ := ho user rfl
    refine Raising.bind (F := fun _ _ => True) ?_ fun valid l₁ _ => ?_
    · unfold verifyPassword
      cases hc : cfg.checkpw pw user.hashedPassword with
      | ok b => trivial
      | error y => exact .inr (.inl ⟨_, hc⟩)
    refine Raising.bind (F := fun _ _ => True)
      (Raising.raiseIf (fun _ => .inl (by simp)) fun _ => trivial) fun _ l₂ _ => ?_
    refine Raising.bind (F := fun _ _ => True)
      (Raising.raiseIf (fun _ => .inl (by simp)) fun _ => trivial) fun _ l₃ _ => ?_
    refine Raising.bind (F := fun _ _ => True)
      (Raising.raiseIf (fun _ => .inl (by simp)) fun _ => trivial) fun _ l₄ _ => ?_
    refine raising_getActiveSessions.step fun ss l₅ hss => ?_
    refine Raising.seq (R := Aborted) (F := fun _ _ => True) (Raising.forM
      (I := fun h' => ∀ s ∈ ss, ∃ y, Saw h' y ∧ y.id = s.id) ?_ hss fun s hs h' hI => ?_)
      (fun y hy => .inl (by simp [show y = _ from hy])) fun _ l₆ _ => ?_
    · intro h' l' hI s hs
      obtain ⟨y, hy, hid⟩ := hI s hs
      exact ⟨y, hy.mono, hid⟩
    · have hmem : s ∈ ss := by
        unfold toRevoke at hs
        split at hs
        · exact List.mem_of_mem_take hs
        · cases hs
      obtain ⟨y, hy, hid⟩ := hI s hmem
      refine raising_revoke.step fun s' l' hs' => ?_
      exact (raising_updateSession ⟨y, hy.mono, hid.trans hs'.1.symm⟩).bind fun _ _ _ =>
        Raising.suppress _
    · exact raising_openSession ⟨x, hx.mono.mono.mono.mono.mono.mono, by rw [hv]; rfl⟩

def refreshMessages : List String :=
  ["Invalid or expired refresh token", "Token is not a refresh token", "Invalid token payload",
    "Session not found", "Concurrent refresh — please retry",
    "Token reuse detected. All sessions revoked.", "Refresh token has expired",
    "User account is inactive or blocked"]

def RefreshErrors (ip : Option String) (x : Exc) : Prop :=
  (∃ m ∈ refreshMessages, x = .invalidToken m) ∨ x = .operationalError ∨
    x = .dataError ∧ fitsOpt 45 ip = false

theorem refreshErrors_message {ip : Option String} (m : String) (hm : m ∈ refreshMessages) :
    RefreshErrors ip (.invalidToken m) := .inl ⟨m, hm, rfl⟩

theorem raising_rotate {s u : String} {session : UserSession} {ip : Option String}
    (hs : ∃ x, Saw h x ∧ x.id = session.id) (hd : fitsOpt 255 session.deviceInfo = true)
    (hu : ∃ y, SawUser h y ∧ y.id = u) :
    (refusals cfg).Raising (rotate cfg s u session ip) (RefreshErrors ip) (fun _ _ => True) h := by
  obtain ⟨x, hx, hid⟩ := hs
  obtain ⟨y, hy, hyid⟩ := hu
  refine raising_revoke.step fun s' l hs' => ?_
  refine (raising_updateSession ⟨x, hx.mono, hid.trans hs'.1.symm⟩).seq (fun e he => .inr (.inl he))
    fun _ l₁ _ => (Raising.suppress _).bind fun _ l₂ _ => raising_now.step fun t l₃ _ => ?_
  refine raising_uuid4.step fun new l₄ ⟨hl₄, hfresh⟩ =>
    raising_createToken.step fun access l₅ ht₅ =>
    raising_createToken.step fun refresh l₆ ht₆ => raising_create.step fun new' l₇ hnew => ?_
  obtain ⟨t₅, c₅, hl₅⟩ := ht₅
  obtain ⟨t₆, c₆, hl₆⟩ := ht₆
  obtain ⟨t₇, hl₇, rfl⟩ := hnew
  rw [hl₇, hl₆, hl₅, hl₄]
  refine (raising_createSession (not_not.mpr ⟨by simp [UserSession.toModel], ?_, ?_, ?_⟩)).seq ?_
    fun _ l₈ _ => raising_commit.step fun _ l₉ _ => (Raising.suppress _).bind fun _ _ _ =>
      (Raising.suppress _).bind fun _ _ _ => trivial
  · intro z hz
    exact hfresh z (by simpa using hz)
  · simp only [List.append_assoc]
    exact ⟨y, hy.mono, hyid⟩
  · rintro p ⟨rfl⟩
    simp only [List.append_assoc]
    exact ⟨x, hx.mono, hid.trans hs'.1.symm⟩
  · rintro e (rfl | ⟨rfl, hf⟩)
    · exact .inr (.inl rfl)
    · refine .inr (.inr ⟨rfl, hf.resolve_left ?_⟩)
      rw [hs'.2, hd]
      simp

theorem raising_refreshToken {request : Token} {ip : Option String} :
    (refusals cfg).Raising (refreshToken cfg request ip) (RefreshErrors ip) (fun _ _ => True) h := by
  have hpass : ∀ {c : Prop} [Decidable c] {m : String} {h : List Act}, m ∈ refreshMessages →
      (refusals cfg).Raising (Prog.raiseIf c (Exc.invalidToken m)) (RefreshErrors ip)
        (fun _ _ => True) h :=
    fun hm => Raising.raiseIf (fun _ => refreshErrors_message _ hm) fun _ => trivial
  refine Raising.bind (F := fun _ _ => True) (raising_decodeToken.tryCatch fun _ _ _ =>
    Raising.throw (refreshErrors_message _ (by simp [refreshMessages]))) fun c l _ => ?_
  refine (hpass (by simp [refreshMessages])).bind fun _ l₁ _ => ?_
  refine (hpass (by simp [refreshMessages])).bind fun _ l₂ _ => ?_
  refine raising_getSessionById.step fun o l₃ ho => ?_
  cases o with
  | none => exact Raising.throw (refreshErrors_message _ (by simp [refreshMessages]))
  | some session =>
    obtain ⟨x, hx, hid, rfl, hfits⟩ := ho session rfl
    simp only
    split
    · refine raising_now.step fun t l₄ _ => ?_
      split
      · refine Raising.step (F := fun v _ => ∀ x, v = some x → (Key.grace (c.jti.getD "")).Fits
          cfg.jose x) (raising_getJson.tryCatch fun _ _ => False.elim) fun v l₅ hv => ?_
        split
        · rename_i data hdata
          obtain ⟨a, b, rfl⟩ := hv data (Option.filter_eq_some_iff.mp hdata).1
          trivial
        · exact Raising.throw (refreshErrors_message _ (by simp [refreshMessages]))
      · exact raising_logoutAll.seq (fun e he => .inr (.inl he)) fun _ _ _ =>
          Raising.throw (refreshErrors_message _ (by simp [refreshMessages]))
    · refine Raising.step (F := fun _ _ => True) (raising_now.step fun _ _ _ => trivial)
        fun expired l₄ _ => ?_
      refine (hpass (by simp [refreshMessages])).bind fun _ l₅ _ => ?_
      refine (raising_lookup rfl).step fun o' l₆ ho' => ?_
      cases o' with
      | none => exact Raising.throw (refreshErrors_message _ (by simp [refreshMessages]))
      | some user =>
        obtain ⟨y, hy, -, hsel⟩ := ho' user rfl
        refine (hpass (by simp [refreshMessages])).bind fun _ l₇ _ => ?_
        refine raising_rotate ⟨x, hx.mono.mono.mono.mono, rfl⟩ hfits ⟨y, hy.mono, ?_⟩
        simp only [UserQuery.selects, Bool.and_eq_true, decide_eq_true_eq] at hsel
        exact hsel.1

def gateMessages : List String :=
  ["Invalid or expired token", "Token is not an access token", "Invalid token payload",
    "Session is invalid or has been logged out", "Session does not belong to this user",
    "User profile not found", "User email verification is pending",
    "User account has been suspended", "User account has been banned"]

def GateErrors (x : Exc) : Prop := ∃ m ∈ gateMessages, x = .invalidToken m

theorem raising_lookupSession {s : String} :
    (refusals cfg).Raising (lookupSession s) Never (fun _ _ => True) h := by
  refine raising_getJson.step fun v l hv => ?_
  split
  · rename_i data hdata
    obtain ⟨p, -, rfl⟩ := hv data (Option.filter_eq_some_iff.mp hdata).1
    rw [SessionValidation.fromDict_toDict]
    trivial
  · refine raising_getSessionById.step fun o l₁ _ => ?_
    cases o with
    | none => trivial
    | some full => exact raising_setJson.step fun _ _ _ => trivial

theorem raising_lookupUser {u : String} :
    (refusals cfg).Raising (lookupUser u) GateErrors (fun _ _ => True) h := by
  refine raising_getJson.step fun v l hv => ?_
  split
  · rename_i data hdata
    obtain ⟨x, -, rfl⟩ := hv data (Option.filter_eq_some_iff.mp hdata).1
    rw [User.fromDict_toDict]
    trivial
  · refine (raising_lookup rfl).step fun o l₁ _ => ?_
    cases o with
    | none => exact Raising.throw ⟨_, by simp [gateMessages], rfl⟩
    | some user => exact raising_setJson.step fun _ _ _ => trivial

theorem raising_getCurrentUser {token : Token} :
    (refusals cfg).Raising (getCurrentUser cfg token) GateErrors (fun _ _ => True) h := by
  have hpass : ∀ {c : Prop} [Decidable c] {m : String} {h : List Act}, m ∈ gateMessages →
      (refusals cfg).Raising (Prog.raiseIf c (Exc.invalidToken m)) GateErrors
        (fun _ _ => True) h :=
    fun hm => Raising.raiseIf (fun _ => ⟨_, hm, rfl⟩) fun _ => trivial
  refine Raising.bind (F := fun _ _ => True) (raising_decodeToken.tryCatch fun x _ hx => ?_)
    fun c l _ => ?_
  · rw [hx, if_pos rfl]
    exact Raising.throw ⟨_, by simp [gateMessages], rfl⟩
  refine (hpass (by simp [gateMessages])).bind fun _ l₁ _ => ?_
  refine (hpass (by simp [gateMessages])).bind fun _ l₂ _ => ?_
  refine raising_lookupSession.step fun o l₃ _ => ?_
  cases o with
  | none => exact Raising.throw ⟨_, by simp [gateMessages], rfl⟩
  | some session =>
    refine Raising.step (F := fun _ _ => True) (raising_now.step fun _ _ _ => trivial)
      fun active l₄ _ => ?_
    refine (hpass (by simp [gateMessages])).bind fun _ l₅ _ => ?_
    refine (hpass (by simp [gateMessages])).bind fun _ l₆ _ => ?_
    refine raising_lookupUser.bind fun user l₇ _ => ?_
    refine (hpass (by simp [gateMessages])).bind fun _ l₈ _ => ?_
    refine (hpass (by simp [gateMessages])).bind fun _ l₉ _ => ?_
    exact (hpass (by simp [gateMessages])).bind fun _ _ _ => trivial

end AsyncPulse
