import AsyncPulse.EffectTerms
import AsyncPulse.SignIn
set_option autoImplicit false

namespace AsyncPulse
open Effect

def SessionModel.Fits (r : SessionModel) : Prop :=
  fitsOpt 255 r.deviceInfo = true ∧ fitsOpt 45 r.ipAddress = true

instance (r : SessionModel) : Decidable r.Fits := inferInstanceAs (Decidable (_ ∧ _))

def UserSession.Fits (s : UserSession) : Prop := s.toModel.Fits

theorem UserSession.Fits.insert {s : UserSession} (hs : s.Fits) :
    (Write.insertSession s.toModel).fits = true := by
  simp only [Write.fits, Bool.and_eq_true]
  exact hs

def Stored (d : Database) : Prop := ∀ r ∈ d.sessions.rows, r.Fits

def Write.Short : Write → Prop
  | .updateSession _ n => n.Fits
  | v => v.fits = true

theorem Write.Short.fits {v : Write} (h : v.Short) : v.fits = true := by
  cases v with
  | updateSession l n => rfl
  | _ => exact h

theorem SessionModel.Fits.patch {l n c : SessionModel} (hn : n.Fits) (hc : c.Fits) :
    (l.patch n c).Fits := by
  have hcolumn : ∀ (limit : Nat) (a b c : Option String), fitsOpt limit b = true →
      fitsOpt limit c = true → fitsOpt limit (column a b c) = true := by
    intro limit a b c hb hc
    unfold column
    split
    · exact hc
    · exact hb
  exact ⟨hcolumn 255 _ _ _ hn.1 hc.1, hcolumn 45 _ _ _ hn.2 hc.2⟩

theorem Stored.apply {d : Database} (hd : Stored d) {v : Write} (hv : v.Short) :
    Stored (d.apply v) := by
  cases v with
  | insertUser r => exact hd
  | updateUser l n => exact hd
  | insertSession r =>
    intro x hx
    cases hr : d.sessions.get r.id with
    | none =>
      have hrows : (d.sessions.insert r).rows = d.sessions.rows ++ [r] := Keyed.rows_insert hr
      change x ∈ (d.sessions.insert r).rows at hx
      rw [hrows, List.mem_append, List.mem_singleton] at hx
      cases hx with
      | inl hx => exact hd x hx
      | inr hx =>
        rw [hx]
        simpa [Write.fits, SessionModel.Fits] using hv.fits
    | some y =>
      have hsame : d.sessions.insert r = d.sessions := Keyed.insert_of_taken hr
      change x ∈ (d.sessions.insert r).rows at hx
      rw [hsame] at hx
      exact hd x hx
  | updateSession l n =>
    intro x hx
    obtain ⟨y, hy, rfl⟩ := List.mem_map.mp hx
    split
    · exact SessionModel.Fits.patch hv (hd y hy)
    · exact hd y hy

def Eff.Short : {β : Type} → Eff β → Prop
  | _, .write v => v.Short
  | _, .hashpw pw => pw.utf8ByteSize ≤ 72
  | _, _ => True

def Eff.Yields : {β : Type} → Eff β → β → Prop
  | _, .selectSessions _, rows => ∀ r ∈ rows, r.Fits
  | _, _, _ => True

def Landed {α : Type} (Q : α → Prop) : Except Exc α → Prop
  | .ok a => Q a
  | .error x => x ≠ .dataError

def limits : Terms Eff Exc where
  asks := Eff.Short
  answers e := Landed e.Yields

abbrev Terse {α : Type} (Q : α → Prop) (p : M α) : Prop := limits.Keeps (Landed Q) p

section

variable {α β : Type} {Q : α → Prop}

theorem terse_pure {a : α} (ha : Q a) : Terse Q (pure a) := ha

theorem terse_throw {x : Exc} (hx : x ≠ .dataError) : Terse Q (throw x : M α) := hx

theorem terse_perform {e : Eff α} (he : e.Short) (hq : ∀ a, e.Yields a → Q a) :
    Terse Q (.perform e) := by
  apply Terms.Keeps.perform he
  intro r hr
  cases r with
  | ok a => exact hq a hr
  | error x => exact hr

theorem Terse.bind {R : β → Prop} {p : M β} {f : β → M α} (hp : Terse R p)
    (hf : ∀ b, R b → Terse Q (f b)) : Terse Q (p >>= f) :=
  Terms.Keeps.bind hp hf fun _ hx => hx

theorem Terse.catch {R : α → Prop} {p : M α} {f : Exc → M α} (hp : Terse R p)
    (hok : ∀ a, R a → Q a) (hf : ∀ x, Terse Q (f x)) : Terse Q (tryCatch p f) :=
  Terms.Keeps.tryCatch hp hok fun x _ => hf x

theorem terse_raiseIf {c : Prop} [Decidable c] {x : Exc} (hx : x ≠ .dataError) :
    Terse (fun _ => True) (Prog.raiseIf c x) := Terms.Keeps.raiseIf hx trivial

end

abbrev Anything {α : Type} (_ : α) : Prop := True

section

variable {cfg : Config}

theorem terse_now : Terse Anything now := terse_perform trivial fun _ _ => trivial

theorem terse_decodeToken (token : Token) : Terse Anything (decodeToken cfg token) := by
  unfold decodeToken
  split
  · exact terse_throw (by simp)
  · apply terse_now.bind
    intro t _
    apply (terse_raiseIf (by simp)).bind
    exact fun _ _ => terse_pure trivial

theorem terse_createToken (subject : String) (delta : Time) (type : TokenType)
    (sid : Option String) : Terse Anything (createToken subject delta type sid) := by
  apply terse_now.bind
  intro t _
  exact terse_perform trivial fun _ _ => trivial

theorem terse_scalarOneOrNone {α : Type} {Q : α → Prop} {rows : List α} (hrows : ∀ a ∈ rows, Q a) :
    Terse (fun o => ∀ a ∈ o, Q a) (scalarOneOrNone rows) := by
  unfold scalarOneOrNone
  split
  · exact terse_pure (by simp)
  · exact terse_pure (by simpa using hrows)
  · exact terse_throw (by simp)

theorem terse_getSessionById (s : String) :
    Terse (fun o => ∀ x ∈ o, x.Fits) (getSessionById s) := by
  apply (terse_perform (e := .selectSessions (.byId s)) trivial fun _ hr => hr).bind
  intro rows hrows
  apply (terse_scalarOneOrNone hrows).bind
  intro o ho
  apply terse_pure
  intro x hx
  obtain ⟨r, hr, rfl⟩ := Option.map_eq_some_iff.mp hx
  exact ho r hr

theorem terse_findUser (q : UserQuery) : Terse Anything (findUser q) := by
  apply (terse_perform (e := .selectUsers q) trivial fun _ hr => hr).bind
  intro rows _
  apply (terse_scalarOneOrNone (Q := Anything) fun _ _ => trivial).bind
  exact fun _ _ => terse_pure trivial

theorem terse_getActiveSessionsForUser (u : String) :
    Terse Anything (getActiveSessionsForUser u) := by
  apply terse_now.bind
  intro t _
  apply (terse_perform (e := .selectSessions (.activeOf u t)) trivial fun _ hr => hr).bind
  exact fun _ _ => terse_pure trivial

theorem terse_revokeAllSessions (u : String) : Terse Anything (revokeAllSessions u) := by
  apply (terse_perform (e := .selectSessions (.unrevokedOf u)) trivial fun _ hr => hr).bind
  intro rows hrows
  apply terse_now.bind
  intro t _
  apply Terms.Keeps.forM trivial
  intro r hr
  exact terse_perform (hrows r hr) fun _ _ => trivial

theorem terse_updateSession {s : UserSession} (hs : s.Fits) : Terse Anything (updateSession s) := by
  apply (terse_perform (e := .selectSessions (.byId s.id)) trivial fun _ hr => hr).bind
  intro rows _
  cases rows with
  | nil => exact terse_perform hs.insert fun _ _ => trivial
  | cons loaded _ =>
    change Terse Anything (if s.toModel = loaded then pure () else _)
    split
    · exact terse_pure trivial
    · exact terse_perform hs fun _ _ => trivial

theorem terse_revoke {s : UserSession} (hs : s.Fits) : Terse UserSession.Fits s.revoke := by
  unfold UserSession.revoke
  split
  · exact terse_pure hs
  · apply terse_now.bind
    exact fun t _ => terse_pure hs

theorem terse_create {sid u : String} {expiresAt : Time} {dev ip prev : Option String}
    (hdev : fitsOpt 255 dev = true) (hip : fitsOpt 45 ip = true) :
    Terse UserSession.Fits (UserSession.create sid u expiresAt dev ip prev) := by
  apply terse_now.bind
  exact fun t _ => terse_pure ⟨hdev, hip⟩

theorem terse_createSession {s : UserSession} (hs : s.Fits) : Terse Anything (createSession s) :=
  terse_perform hs.insert fun _ _ => trivial

theorem terse_suppress {p : M Unit} (hp : Terse Anything p) :
    Terse Anything (Prog.suppress p) := Terms.Keeps.suppress hp trivial

theorem terse_suppressDelete (key : Key) : Terse Anything (Prog.suppress (cacheDelete key)) :=
  terse_suppress (terse_perform trivial fun _ _ => trivial)

theorem terse_suppressSet (key : Key) (v : Json) (ttl : Int) :
    Terse Anything (Prog.suppress (setJson key v ttl)) :=
  terse_suppress (terse_perform trivial fun _ _ => trivial)

theorem terse_logoutAll (u : String) : Terse Anything (logoutAll u) := by
  apply (terse_getActiveSessionsForUser u).bind
  intro active _
  apply (terse_revokeAllSessions u).bind
  intro _ _
  apply (terse_perform (e := .commit) trivial fun _ hr => hr).bind
  intro _ _
  apply Terms.Keeps.forM trivial
  intro s _
  apply (terse_suppressDelete (.session s.id)).bind
  intro _ _
  exact terse_suppressDelete (.grace s.id)

theorem fromDict_landed (data : Json) : Landed Anything (TokenPair.fromDict data) := by
  have hitem : ∀ s x, data.item s = .error x → x ≠ .dataError := by
    intro s x hx
    cases data with
    | leaf v =>
      cases hx
      simp
    | dict fields =>
      simp only [Json.item] at hx
      split at hx
      · cases hx
      · cases hx
        simp
  unfold TokenPair.fromDict
  cases ha : data.item "access_token" with
  | error x => exact hitem _ _ ha
  | ok a =>
    cases hr : data.item "refresh_token" with
    | error x => exact hitem _ _ hr
    | ok r => exact trivial

theorem terse_replayOrBreach (sid u : String) (revokedAt : Time) :
    Terse Anything (replayOrBreach sid u revokedAt) := by
  unfold replayOrBreach
  apply terse_now.bind
  intro t _
  split
  · have hget : Terse Anything (getJson (.grace sid)) := terse_perform trivial fun _ _ => trivial
    apply (hget.catch (fun _ _ => trivial) fun _ => terse_pure trivial).bind
    intro cached _
    split
    · exact fromDict_landed _
    · exact terse_throw (by simp [Exc.invalidToken])
  · apply (terse_logoutAll u).bind
    exact fun _ _ => terse_throw (by simp [tokenReuse, Exc.invalidToken])

theorem terse_rotate {sid u : String} {s : UserSession} (hs : s.Fits) {ip : Option String}
    (hip : fitsOpt 45 ip = true) : Terse Anything (rotate cfg sid u s ip) := by
  apply (terse_revoke hs).bind
  intro s' hs'
  apply (terse_updateSession hs').bind
  intro _ _
  apply (terse_suppressDelete (.session sid)).bind
  intro _ _
  apply terse_now.bind
  intro t _
  apply (terse_perform (e := .uuid4) trivial fun _ hr => hr).bind
  intro new _
  apply (terse_createToken _ _ _ _).bind
  intro access _
  apply (terse_createToken _ _ _ _).bind
  intro refresh _
  apply (terse_create hs'.1 hip).bind
  intro row hrow
  apply (terse_createSession hrow).bind
  intro _ _
  apply (terse_perform (e := .commit) trivial fun _ hr => hr).bind
  intro _ _
  apply (terse_suppressSet (.session new) _ _).bind
  intro _ _
  apply (terse_suppressSet (.grace sid) _ _).bind
  exact fun _ _ => terse_pure trivial

theorem terse_checkAndRotate {sid u : String} {s : UserSession} (hs : s.Fits) {ip : Option String}
    (hip : fitsOpt 45 ip = true) : Terse Anything (checkAndRotate cfg sid u s ip) := by
  unfold checkAndRotate
  apply Terse.bind (R := Anything)
  · apply terse_now.bind
    exact fun _ _ => terse_pure trivial
  intro expired _
  apply (terse_raiseIf (by simp [Exc.invalidToken])).bind
  intro _ _
  apply (terse_findUser (.byId u)).bind
  intro user _
  split
  · exact terse_throw (by simp [Exc.invalidToken])
  · apply (terse_raiseIf (by simp [Exc.invalidToken])).bind
    exact fun _ _ => terse_rotate hs hip

theorem terse_refreshToken {token : Token} {ip : Option String} (hip : fitsOpt 45 ip = true) :
    Terse Anything (refreshToken cfg token ip) := by
  unfold refreshToken
  apply ((terse_decodeToken token).catch (fun _ _ => trivial) fun _ =>
    terse_throw (by simp [Exc.invalidToken])).bind
  intro payload _
  apply (terse_raiseIf (by simp [Exc.invalidToken])).bind
  intro _ _
  apply (terse_raiseIf (by simp [Exc.invalidToken])).bind
  intro _ _
  apply (terse_getSessionById _).bind
  intro session hsession
  split
  · exact terse_throw (by simp [Exc.invalidToken])
  · rename_i s
    have hs : s.Fits := hsession s rfl
    split
    · exact terse_replayOrBreach _ _ _
    · exact terse_checkAndRotate hs hip

end

def Sent (h : List Act) : Prop := ∀ v, .wrote v ∈ h ∨ .refused v ∈ h → v.fits = true

theorem Sent.snoc {h : List Act} (hs : Sent h) {a : Act}
    (ha : ∀ v, a = .wrote v ∨ a = .refused v → v.fits = true) : Sent (h ++ [a]) := by
  intro v hv
  simp only [List.mem_append, List.mem_singleton] at hv
  obtain (hv | hv) | (hv | hv) := hv
  · exact hs v (.inl hv)
  · exact ha v (.inl hv.symm)
  · exact hs v (.inr hv)
  · exact ha v (.inr hv.symm)

variable {cfg : Config} {d : Database} {t₀ : Time}

theorem Given.landed (hb : Bcrypt cfg) {h : List Act} (hst : Stored (seen d h)) {β : Type}
    {e : Eff β} (he : e.Short) {r : Except Exc β} (hr : Given cfg d t₀ h e r) :
    Landed e.Yields r := by
  cases e with
  | write v =>
    change if (seen d h).admits v = true ∧ v.fits = true then r = .ok ()
      else r = .error (if (seen d h).admits v = true then .dataError else .integrityError) at hr
    have hv : v.fits = true := Write.Short.fits he
    cases ha : (seen d h).admits v with
    | true =>
      rw [if_pos ⟨ha, hv⟩] at hr
      subst hr
      exact trivial
    | false =>
      rw [ha, if_neg (by simp), if_neg (by simp)] at hr
      subst hr
      exact fun h => by cases h
  | hashpw pw =>
    obtain ⟨salt, rfl⟩ := hr
    obtain ⟨hashed, hok, -⟩ := hb.hashes salt pw he
    rw [hok]
    exact trivial
  | selectSessions q =>
    obtain ⟨rank, rfl⟩ := hr
    exact fun x hx => hst x (SessionQuery.mem_eval.mp hx).1
  | now =>
    obtain ⟨t, rfl, -⟩ := hr
    exact trivial
  | uuid4 =>
    obtain ⟨u, rfl, -⟩ := hr
    exact trivial
  | selectUsers q =>
    obtain ⟨rank, rfl⟩ := hr
    exact trivial
  | countUsers =>
    obtain ⟨n, rfl⟩ := hr
    exact trivial
  | cacheGet key =>
    obtain ⟨v, rfl⟩ := hr
    exact trivial
  | _ =>
    obtain rfl := hr
    exact trivial

theorem Eff.Short.wrote {β : Type} {e : Eff β} (he : e.Short) {r : Except Exc β} {v : Write}
    (hv : e.act r = .wrote v ∨ e.act r = .refused v) : v.Short := by
  cases e with
  | write v' =>
    cases r with
    | ok _ =>
      obtain rfl : v' = v := by simpa [Eff.act] using hv
      exact he
    | error _ =>
      obtain rfl : v' = v := by simpa [Eff.act] using hv
      exact he
  | _ => cases r <;> simp [Eff.act] at hv

theorem Terse.alone (hb : Bcrypt cfg) {α : Type} {Q : α → Prop} {p : M α} (hp : Terse Q p)
    (hst : Stored d) :
    Alone cfg d t₀ p (fun r h => Landed Q r ∧ Guarded Stored d h ∧ Sent h) [] := by
  have hnil : Guarded Stored d [] := ⟨hst, hst⟩
  apply Terms.Keeps.wp (S := solo cfg d t₀) (I := fun h => Guarded Stored d h ∧ Sent h) ?_ hp
    ⟨hnil, by simp [Sent]⟩
  intro β e h r hi he hr
  obtain ⟨hg, hs⟩ := hi
  refine ⟨hr.landed hb hg.2 he, hg.snoc fun v hv => hg.2.apply (he.wrote (.inl hv)), ?_⟩
  exact hs.snoc fun v hv => (he.wrote hv).fits

/-- A request that has passed its validation, with an address of at most 45 characters to come
from. A login has the password of the user whom it finds. -/
inductive Admissible (emailStr : String → Option String) (cfg : Config) (d : Database) :
    Call → Prop where
  | create {b : UserCreateBody} {p : UserCreate} : UserCreate.validate emailStr b = some p →
      Admissible emailStr cfg d (.createUser p)
  | update {u : String} {b : UserUpdateBody} {p : UserUpdate} :
      UserUpdate.validate emailStr b = some p → Admissible emailStr cfg d (.updateUser u p)
  | login {e pw : String} {agent ip : Option String} {x : UserModel} : Found d e x →
      cfg.checkpw pw x.hashedPassword = .ok true → fitsOpt 45 ip = true →
      Admissible emailStr cfg d (.authenticate e pw agent ip)
  | refresh {token : Token} {ip : Option String} : fitsOpt 45 ip = true →
      Admissible emailStr cfg d (.refreshToken token ip)

/-- The call passes on nothing that is too long, and does not fail for that. -/
structure WithinLimits (k : Call) (r : Except Exc Out) (h : List Act) : Prop where
  hashed : ∀ p, k = .createUser p → .hashed ∈ h → p.password.utf8ByteSize ≤ 72
  sent : Sent h
  answered : r ≠ .error .dataError
  registered : ∀ p, k = .createUser p → r ≠ .error .valueError

/-- A password that is hashed has 72 bytes at most, and a `User-Agent` that is stored 255
characters. -/
def Call.Short (cfg : Config) (d : Database) : Call → Prop
  | .createUser p => (∃ x ∈ d.users.rows, x.Holds p ∧ x.deletedAt = none) ∨
    p.password.utf8ByteSize ≤ 72
  | .authenticate e pw agent _ => (∃ x, Credentials cfg d e pw x) → fitsOpt 255 agent = true
  | _ => True

theorem WithinLimits.create {p : UserCreate} {r : Except Exc Out} {h : List Act}
    (hp : .hashed ∈ h → p.password.utf8ByteSize ≤ 72) (hs : Sent h) (hr : r ≠ .error .dataError)
    (hr' : r ≠ .error .valueError) : WithinLimits (.createUser p) r h := by
  refine ⟨fun q hq => ?_, hs, hr, fun _ _ => hr'⟩
  cases hq
  exact hp

theorem WithinLimits.other {k : Call} {r : Except Exc Out} {h : List Act}
    (hk : ∀ p, k ≠ .createUser p) (hs : Sent h) (hr : r ≠ .error .dataError) :
    WithinLimits k r h := ⟨fun p hp => absurd hp (hk p), hs, hr, fun p hp => absurd hp (hk p)⟩

theorem sent_of_none {h : List Act} (hw : ∀ v, .wrote v ∉ h) (hr : ∀ v, .refused v ∉ h) :
    Sent h := fun v hv => hv.elim (fun hm => absurd hm (hw v)) fun hm => absurd hm (hr v)

theorem Write.Refusal.of_fits {v : Write} {x : Exc} (h : v.Refusal d x) (hf : v.fits = true) :
    x = .integrityError := by
  obtain ⟨hx, -⟩ | ⟨-, -, hno⟩ := h
  · exact hx
  · rw [hf] at hno
    cases hno

theorem RegistrationRun.limits_iff (hb : Bcrypt cfg) {p : UserCreate}
    (hemail : p.email.length ≤ 254) (hname : p.name.length ≤ 100)
    (husername : p.username.length ≤ 25) {r : Except Exc User} {h : List Act}
    (hrun : RegistrationRun cfg d p r h) :
    WithinLimits (.createUser p) (r.map Out.user) (h ++ [Act.closed]) ↔
      Call.Short cfg d (.createUser p) := by
  have hshort : ∀ {salt hashed}, cfg.hashpw salt p.password = .ok hashed →
      p.password.utf8ByteSize ≤ 72 ∧ hashed.length ≤ 255 := by
    intro salt hashed hok
    by_cases hle : p.password.utf8ByteSize ≤ 72
    · obtain ⟨hashed', hok', hlen⟩ := hb.hashes salt _ hle
      rw [hok] at hok'
      cases hok'
      exact ⟨hle, hlen⟩
    · rw [hb.hash_long salt _ (by omega)] at hok
      cases hok
  have hfits : p.Fits := by
    refine ⟨?_, ?_, ?_⟩
    · exact decide_eq_true (Nat.le_trans hemail (by decide))
    · exact decide_eq_true hname
    · exact decide_eq_true (Nat.le_trans husername (by decide))
  cases hrun with
  | @taken x hx hholds hlive _ =>
    constructor
    · exact fun _ => .inl ⟨x, hx, hholds, hlive⟩
    · intro _
      obtain ⟨m, hm⟩ := userAlreadyExists_taken (x.email = p.email)
      rw [hm]
      exact .create (by simp) (sent_of_none (by simp) (by simp)) (fun h => by cases h)
        fun h => by cases h
  | @ambiguous x y _ hx _ _ hholds _ hlive _ =>
    constructor
    · exact fun _ => .inl ⟨x, hx, hholds, hlive⟩
    · intro _
      exact .create (by simp) (sent_of_none (by simp) (by simp)) (fun h => by cases h)
        fun h => by cases h
  | @unhashed u salt x hfree herr =>
    have hlong : ¬ p.password.utf8ByteSize ≤ 72 := by
      intro hle
      obtain ⟨hashed, hok, -⟩ := hb.hashes salt _ hle
      rw [herr] at hok
      cases hok
    constructor
    · exact fun hlim => absurd (hlim.hashed p rfl (by simp)) hlong
    · intro hs
      cases hs with
      | inl hx =>
        obtain ⟨x, hx, hholds, hlive⟩ := hx
        exact absurd hlive (hfree x hx hholds)
      | inr hle => exact absurd hle hlong
  | @refused u salt hashed t t' x _ hhash _ href =>
    obtain ⟨hle, hlen⟩ := hshort hhash
    have hfit : (Write.insertUser (newRow p u hashed t t')).fits = true :=
      (fits_newRow hlen).mpr hfits
    obtain rfl := href.of_fits hfit
    constructor
    · exact fun _ => .inr hle
    · intro _
      refine .create (fun _ => hle) (fun v hv => ?_) (fun h => by cases h) fun h => by cases h
      obtain rfl : v = .insertUser (newRow p u hashed t t') := by
        simpa [registrationTrail] using hv
      exact hfit
  | @registered u salt hashed t t' _ hhash _ hfit =>
    obtain ⟨hle, -⟩ := hshort hhash
    constructor
    · exact fun _ => .inr hle
    · intro _
      refine .create (fun _ => hle) (fun v hv => ?_) (fun h => by cases h) fun h => by cases h
      obtain rfl : v = .insertUser (newRow p u hashed t t') := by
        simpa [registrationTrail] using hv
      exact hfit

theorem UpdateRun.limits {u : String} {p : UserUpdate}
    (hemail : ∀ e, p.email = some e → e.length ≤ 254)
    (husername : ∀ s, p.username = some s → s.length ≤ 100) {r : Except Exc User} {h : List Act}
    (hrun : UpdateRun d u p r h) :
    WithinLimits (.updateUser u p) (r.map Out.user) (h ++ [Act.closed]) := by
  have hcolumn : ∀ (limit : Nat) (o : Option String) (s : String),
      (∀ v, o = some v → v.length ≤ limit) → o.getD s = s ∨ fits limit (o.getD s) = true := by
    intro limit o s ho
    cases o with
    | none => exact .inl rfl
    | some v => exact .inr (decide_eq_true (ho v rfl))
  have hfit : ∀ x t, (Write.updateUser x (UserModel.revised x p t)).fits = true := by
    intro x t
    simp only [Write.fits, Bool.and_eq_true, Bool.or_eq_true, decide_eq_true_eq]
    exact ⟨⟨hcolumn 255 _ _ fun e he => Nat.le_trans (hemail e he) (by decide),
      hcolumn 100 _ _ husername⟩, .inl rfl⟩
  have hnone : ∀ {l : List Act}, Checking l → ∀ v, .wrote v ∉ l :=
    fun hl v hv => by cases hl _ hv
  cases hrun with
  | missing hh _ =>
    exact .other (by simp) (sent_of_none (by simp [hnone hh]) (by simp [hh.not_refused]))
      fun h => by cases h
  | taken hh _ _ _ =>
    exact .other (by simp) (sent_of_none (by simp [hnone hh]) (by simp [hh.not_refused]))
      fun h => by cases h
  | empty hh _ _ _ =>
    exact .other (by simp) (sent_of_none (by simp [hnone hh]) (by simp [hh.not_refused]))
      fun h => by cases h
  | unchanged hh _ _ _ _ =>
    exact .other (by simp) (sent_of_none (by simp [hnone hh]) (by simp [hh.not_refused]))
      fun h => by cases h
  | @refused x t h e hh _ _ _ _ he =>
    obtain rfl := he.of_fits (hfit x t)
    refine .other (by simp) (fun v hv => ?_) fun h => by cases h
    obtain rfl : v = .updateUser x (x.revised p t) := by
      simpa [hnone hh, hh.not_refused] using hv
    exact hfit x t
  | @updated x t h hh _ _ _ _ _ _ =>
    refine .other (by simp) (fun v hv => ?_) fun h => by cases h
    obtain rfl : v = .updateUser x (x.revised p t) := by
      simpa [hnone hh, hh.not_refused] using hv
    exact hfit x t

theorem sent_loginTrail {e : String} {x : UserModel} {rank : String → Nat}
    {evs : List (SessionModel × Time)} {u : String} {now t t₁ t₂ t₃ : Time} {a b : Claims} :
    Sent (loginTrail d e x rank evs u now t t₁ t₂ t₃ a b) := by
  intro v hv
  have hv' : ∃ z ∈ evs, v = eviction z := by
    simpa [loginTrail, evictionTrail, openingTrail, eq_comm, and_comm] using hv
  obtain ⟨z, -, rfl⟩ := hv'
  rfl

theorem LoginRun.limits_iff {e pw : String} {agent ip : Option String} {x : UserModel}
    (hx : Found d e x) (hpw : cfg.checkpw pw x.hashedPassword = .ok true)
    (hip : fitsOpt 45 ip = true) {r : Except Exc LoginResponse} {h : List Act}
    (hrun : LoginRun cfg d e pw agent ip r h) :
    WithinLimits (.authenticate e pw agent ip) (r.map Out.login) (h ++ [Act.closed]) ↔
      Call.Short cfg d (.authenticate e pw agent ip) := by
  cases hrun with
  | @denied y rows hden =>
    constructor
    · intro _ hc
      obtain ⟨z, hz⟩ := hc
      exact absurd hz (hden.not_credentials z)
    · intro _
      apply WithinLimits.other (by simp) (sent_of_none (by simp) (by simp))
      intro hy
      obtain rfl : y = .dataError := Except.error.inj hy
      generalize hd : Exc.dataError = y at hden
      cases hden with
      | unchecked hz hp =>
        rw [hz.unique hx, hpw] at hp
        cases hp
      | _ => cases hd
  | @refused y z now t t₁ t₂ t₃ rank evs u a b hz href =>
    have hfits : (Write.insertSession (loginRow cfg z agent ip u t t₃)).fits = true ↔
        fitsOpt 255 agent = true ∧ fitsOpt 45 ip = true := fits_loginRow
    constructor
    · intro hlim _
      have hsent := hlim.sent (.insertSession (loginRow cfg z agent ip u t t₃)) (by simp)
      exact (hfits.mp hsent).1
    · intro hshort
      have hfit := hfits.mpr ⟨hshort ⟨z, hz⟩, hip⟩
      obtain rfl := href.of_fits hfit
      apply WithinLimits.other (by simp)
      · apply Sent.snoc
        · apply sent_loginTrail.snoc
          intro v hv
          obtain rfl : .insertSession (loginRow cfg z agent ip u t t₃) = v := by simpa using hv
          exact hfit
        · simp
      · exact fun h => by cases h
  | @opened _ z now t t₁ t₂ t₃ rank evs u a b hz hans _ _ hfit =>
    simp only [Unfit, not_or, Bool.not_eq_false] at hfit
    constructor
    · exact fun _ _ => hfit.1
    · intro _
      apply WithinLimits.other (by simp)
      · intro v hv
        have hv' : (.wrote v ∈ loginTrail d e z rank evs u now t t₁ t₂ t₃ a b ∨
            .refused v ∈ loginTrail d e z rank evs u now t t₁ t₂ t₃ a b) ∨
              v = .insertSession (loginRow cfg z agent ip u t t₃) := by
          simp only [committedTrail, List.mem_append, List.mem_cons, reduceCtorEq, or_false,
            List.not_mem_nil, Act.wrote.injEq] at hv
          obtain (hv | hv) | hv := hv
          · exact .inl (.inl hv)
          · exact .inr hv
          · exact .inl (.inr hv)
        cases hv' with
        | inl hv => exact sent_loginTrail v hv
        | inr hv =>
          rw [hv]
          exact fits_loginRow.mpr ⟨hfit.1, hfit.2.1⟩
      · obtain ⟨-, resp, rfl⟩ | ⟨-, rfl⟩ := hans
        · exact fun h => by cases h
        · exact fun h => by cases h

variable {emailStr : String → Option String} {γ χ : Type} {C : MayCache Key Json γ χ} {i : Nat}
  {w w' : World γ}

/-- Validation covers the limits behind it but for the bytes of a password and the length of a
`User-Agent`. -/
theorem limits_covered_iff (hb : Bcrypt cfg)
    (hemail : ∀ e e', emailStr e = some e' → e'.length ≤ 254) (hw : Vacant w i)
    (hi : Indexed w.db.users) (hst : Stored w.db) {k : Call}
    (hk : Admissible emailStr cfg w.db k) {cs : List (Choice χ)} {r : Except Exc Out}
    (hr : (semantics cfg C).run i cs (Call.prog cfg k) w = some (r, w')) :
    ∃ h, w'.hist i = w.hist i ++ h ∧ (WithinLimits k r h ↔ Call.Short cfg w.db k) := by
  cases hk with
  | create hv =>
    have hacc := UserCreate.accepted hv
    obtain ⟨r', h, rfl, hplayed, hrun⟩ := hw.register hr
    exact ⟨_, hplayed.hist, hrun.limits_iff hb (hemail _ _ hacc.email) hacc.name hacc.username⟩
  | update hv =>
    have hacc := UserUpdate.accepted hv
    obtain ⟨r', h, rfl, hplayed, hrun⟩ := hw.update hi hr
    refine ⟨_, hplayed.hist, fun _ => trivial, fun _ => hrun.limits ?_ hacc.username⟩
    intro e' he'
    obtain ⟨e, he⟩ := hacc.given e' he'
    exact hemail e e' he
  | login hx hpw hip =>
    obtain ⟨r', h, rfl, hplayed, hrun⟩ := hw.login hr
    exact ⟨_, hplayed.hist, hrun.limits_iff hx hpw hip⟩
  | refresh hip =>
    obtain ⟨l, hplayed, r', h, rfl, rfl, hland, -, hsent⟩ :=
      hw.run (alone_prog rfl ((terse_refreshToken hip).alone hb hst)) hr
    refine ⟨_, hplayed.hist, fun _ => trivial, fun _ => ?_⟩
    apply WithinLimits.other (by simp) (hsent.snoc (by simp))
    intro he
    cases r' with
    | ok p => cases he
    | error x => exact hland (Except.error.inj he)

def shortAddress (e : String) : Option String :=
  (lowerDomain e).filter fun e' => decide (e'.length ≤ 254)

theorem length_shortAddress : ∀ e e', shortAddress e = some e' → e'.length ≤ 254 := by
  intro e e' h
  obtain ⟨-, hle⟩ := Option.filter_eq_some_iff.mp h
  exact of_decide_eq_true hle

theorem sampleWorld_stored : Stored sampleWorld.db := fun x hx => absurd hx (by
  simp [sampleWorld, Keyed.empty])

theorem limits_covered_carol : ∃ r w', bcryptAttempt (.createUser carol) sampleWorld = some (r, w') ∧
    ∃ h, w'.hist 0 = sampleWorld.hist 0 ++ h ∧
      (WithinLimits (.createUser carol) r h ↔
        Call.Short bcryptConfig sampleWorld.db (.createUser carol)) := by
  have hrun : (bcryptAttempt (.createUser carol) sampleWorld).isSome = true := by decide +kernel
  obtain ⟨⟨r, w'⟩, hrun⟩ := Option.isSome_iff_exists.mp hrun
  have hvalid : UserCreate.validate shortAddress (carolBody "carol@example.org") = some carol := by
    decide +kernel
  exact ⟨r, w', hrun, limits_covered_iff bcryptConfig_bcrypt length_shortAddress ⟨rfl, fun _ => rfl⟩
    sampleWorld_indexed sampleWorld_stored (.create hvalid) hrun⟩

def longAgent : String := String.ofList (List.replicate 256 'x')

/-- A long password passes the validation of a registration, and a long `User-Agent` is looked at
by none. -/
theorem long_values_fail :
    (∃ w', UserCreate.validate shortAddress { carolBody "carol@example.org" with
        password := longPassword } = some { carol with password := longPassword } ∧
      bcryptAttempt (.createUser { carol with password := longPassword }) sampleWorld =
        some (.error .valueError, w') ∧
      ¬ WithinLimits (.createUser { carol with password := longPassword }) (.error .valueError)
        (w'.hist 0)) ∧
    ∃ w', bcryptAttempt (.authenticate "alice@example.org" "secret" (some longAgent) none)
        sampleWorld = some (.error .dataError, w') ∧
      ¬ WithinLimits (.authenticate "alice@example.org" "secret" (some longAgent) none)
        (.error .dataError) (w'.hist 0) := by
  have hcreate : (bcryptAttempt (.createUser { carol with password := longPassword })
      sampleWorld).map Prod.fst = some (.error .valueError) := by decide +kernel
  have hlogin : (bcryptAttempt (.authenticate "alice@example.org" "secret" (some longAgent) none)
      sampleWorld).map Prod.fst = some (.error .dataError) := by decide +kernel
  obtain ⟨⟨r, w₁⟩, h₁, rfl⟩ := Option.map_eq_some_iff.mp hcreate
  obtain ⟨⟨r, w₂⟩, h₂, rfl⟩ := Option.map_eq_some_iff.mp hlogin
  exact ⟨⟨w₁, by decide +kernel, h₁, fun h => h.registered _ rfl rfl⟩, w₂, h₂,
    fun h => h.answered rfl⟩

end AsyncPulse
