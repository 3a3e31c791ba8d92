import AsyncPulse.Requests
import AsyncPulse.RowHistory
import Mathlib.Data.List.Induction
set_option autoImplicit false

namespace AsyncPulse
open Effect

def Claims.Names (c : Claims) (s : String) : Prop :=
  match c.type with
  | .access => c.sid = some s ∧ c.jti = none
  | .refresh => c.jti = some s ∧ c.sid = none

theorem Claims.Names.unique {c : Claims} {s s' : String} (h : c.Names s) (h' : c.Names s') :
    s = s' := by
  unfold Names at h h'
  split at h <;> rename_i ht <;> simp only [ht] at h' <;>
    exact Option.some.inj (h.1.symm.trans h'.1)

theorem Claims.Names.eq_of_sid {c : Claims} {s s' : String} (h : c.Names s)
    (h' : c.sid = some s') : s' = s := by
  unfold Names at h
  split at h <;> simp_all

theorem Claims.Names.eq_of_jti {c : Claims} {s s' : String} (h : c.Names s)
    (h' : c.jti = some s') : s' = s := by
  unfold Names at h
  split at h <;> simp_all

def Write.owner : Write → String
  | .insertUser r => r.id
  | .updateUser l _ => l.id
  | .insertSession r => r.userId
  | .updateSession l _ => l.userId

def SessionModel.projection (r : SessionModel) : SessionValidation :=
  SessionValidation.fromSession r.toEntity

@[simp] theorem SessionModel.projection_toModel (s : UserSession) :
    s.toModel.projection = SessionValidation.fromSession s := rfl

def Open (h : List Act) : Prop := .committed ∉ h ∧ .closed ∉ h

instance (h : List Act) : Decidable (Open h) := inferInstanceAs (Decidable (_ ∧ _))

def written (h : List Act) : List Write :=
  h.filterMap fun
    | .wrote v => some v
    | _ => none

@[simp] theorem mem_written {h : List Act} {v : Write} : v ∈ written h ↔ .wrote v ∈ h := by
  unfold written
  rw [List.mem_filterMap]
  constructor
  · rintro ⟨a, ha, hv⟩
    split at hv
    · cases hv
      exact ha
    · cases hv
  · exact fun hv => ⟨_, hv, rfl⟩

@[simp] theorem written_nil : written [] = [] := rfl

@[simp] theorem written_append (h h' : List Act) :
    written (h ++ h') = written h ++ written h' := List.filterMap_append

def Saw (h : List Act) (r : SessionModel) : Prop :=
  ∃ q rows, .readSessions q rows ∈ h ∧ r ∈ rows

def SawUser (h : List Act) (x : UserModel) : Prop :=
  ∃ q rows, .readUsers q rows ∈ h ∧ x ∈ rows

def SawSuperuser (h : List Act) (u : String) : Prop :=
  (∃ x : User, .cacheGot (.user u) (some x.toDict) ∈ h ∧ x.id = u ∧ x.role = .superuser) ∨
    ∃ x, SawUser h x ∧ x.id = u ∧ x.role = .superuser

theorem Saw.mono {h h' : List Act} {r : SessionModel} (hs : Saw h r) : Saw (h ++ h') r := by
  obtain ⟨q, rows, hm, hr⟩ := hs
  exact ⟨q, rows, List.mem_append_left _ hm, hr⟩

theorem SawUser.mono {h h' : List Act} {x : UserModel} (hs : SawUser h x) :
    SawUser (h ++ h') x := by
  obtain ⟨q, rows, hm, hr⟩ := hs
  exact ⟨q, rows, List.mem_append_left _ hm, hr⟩

theorem SawSuperuser.mono {h h' : List Act} {u : String} (hs : SawSuperuser h u) :
    SawSuperuser (h ++ h') u := by
  rcases hs with ⟨x, hm, hx⟩ | ⟨x, hs, hx⟩
  · exact .inl ⟨x, List.mem_append_left _ hm, hx⟩
  · exact .inr ⟨x, hs.mono, hx⟩

def Ended (h : List Act) (s : String) : Prop :=
  (∃ l n, .wrote (.updateSession l n) ∈ h ∧ l.id = s) ∨ ∃ x, Saw h x ∧ x.id = s ∧ x.revokedAt ≠ none

theorem Ended.mono {h : List Act} {s : String} (he : Ended h s) (l : List Act) :
    Ended (h ++ l) s := by
  rcases he with ⟨a, b, hm, hs⟩ | ⟨x, hx, hs⟩
  · exact .inl ⟨a, b, List.mem_append_left _ hm, hs⟩
  · exact .inr ⟨x, hx.mono, hs⟩

theorem exists_entry_snoc {α β : Type} (f : α → β → Act) (P : β → Prop) {h : List Act} {a : Act} :
    (∃ q rows, f q rows ∈ h ++ [a] ∧ P rows) ↔
      (∃ q rows, f q rows ∈ h ∧ P rows) ∨ ∃ q rows, a = f q rows ∧ P rows := by
  simp only [List.mem_append, List.mem_singleton, or_and_right, exists_or, eq_comm (a := a)]

theorem saw_snoc {h : List Act} {a : Act} {r : SessionModel} :
    Saw (h ++ [a]) r ↔ Saw h r ∨ ∃ q rows, a = .readSessions q rows ∧ r ∈ rows :=
  exists_entry_snoc .readSessions (r ∈ ·)

theorem sawUser_snoc {h : List Act} {a : Act} {x : UserModel} :
    SawUser (h ++ [a]) x ↔ SawUser h x ∨ ∃ q rows, a = .readUsers q rows ∧ x ∈ rows :=
  exists_entry_snoc .readUsers (x ∈ ·)

/-- A cache answers only with what the program stores under such a key. -/
def Key.Fits (jose : Jose) : Key → Json → Prop
  | .session s, v => ∃ p : SessionValidation, p.id = s ∧ v = p.toDict
  | .grace _, v => ∃ a b : Claims, v = TokenPair.toDict
      { accessToken := jose.encode a, refreshToken := jose.encode b }
  | .user u, v => ∃ x : User, x.id = u ∧ v = x.toDict

/-- What a SELECT on `sessions` may return. Within a transaction rows do not go away, and a
row seen revoked stays revoked. -/
structure SessionAnswer (h : List Act) (q : SessionQuery) (rows : List SessionModel) : Prop where
  selects : ∀ r ∈ rows, q.selects r = true
  nodup : (rows.map SessionModel.id).Nodup
  again : Open h → (∀ r, .wrote (.insertSession r) ∉ h) → ∀ x, Saw h x →
    (∀ r ∈ rows, r.id = x.id → r.core = x.core ∧ (x.revokedAt ≠ none → r.revokedAt ≠ none)) ∧
      (q = .byId x.id → rows ≠ [])

structure UserAnswer (q : UserQuery) (rows : List UserModel) : Prop where
  selects : ∀ x ∈ rows, q.selects x = true
  nodup : (rows.map UserModel.id).Nodup
  id_ne : ∀ x ∈ rows, x.id ≠ ""

def Answer (cfg : Config) (h : List Act) : {β : Type} → Eff β → Except Exc β → Prop
  | _, .now, r => ∃ t, r = .ok t ∧ ∀ t', .clock t' ∈ h → t' ≤ t
  | _, .uuid4, r => ∃ u, r = .ok u ∧ u ≠ "" ∧ .drew u ∉ h ∧ ∀ x, Saw h x → x.id ≠ u
  | _, .encode c, r => r = .ok (cfg.jose.encode c)
  | _, .hashpw _, _ => True
  | _, .selectSessions q, r => ∃ rows, r = .ok rows ∧ SessionAnswer h q rows
  | _, .selectUsers q, r => ∃ rows, r = .ok rows ∧ UserAnswer q rows
  | _, .countUsers, r => ∃ n, r = .ok n
  | _, .write _, r =>
    r = .ok () ∨ ∃ e ∈ [Exc.operationalError, .integrityError, .dataError], r = .error e
  | _, .commit, r => r = .ok ()
  | _, .close, r => r = .ok ()
  | _, .cacheGet k, r => ∃ v, r = .ok v ∧ ∀ x, v = some x → k.Fits cfg.jose x
  | _, .cacheSet _ _ _, r => r = .ok ()
  | _, .cacheDelete _, r => r = .ok ()

def records (cfg : Config) : Trace Eff Exc Act where
  event := Eff.act
  valid h e r := Answer cfg h e r

namespace Call

variable (cfg : Config)

def Presents (k : Call) (c : Claims) : Prop := ∃ t ∈ k.tokens, cfg.jose.verify t = some c

def isRefresh : Call → Bool
  | .refreshToken _ _ | .refreshRoute _ _ _ => true
  | _ => false

def Refreshes (k : Call) (s u : String) : Prop :=
  k.isRefresh = true ∧ ∃ c, k.Presents cfg c ∧ c.type = .refresh ∧ c.jti = some s ∧ c.sub = u

def isGated : Call → Bool
  | .getCurrentUser _ | .logoutAllRoute _ | .updateUserRoute _ _ _ | .deleteUserRoute _ _ => true
  | _ => false

def isRequest : Call → Bool
  | .logoutRoute _ => true
  | k => k.isRefresh || k.isGated

/-- A request may write the rows of the token's user and the row of the token's session;
only a superuser's may write more. -/
def Authorised (k : Call) (h : List Act) (v : Write) : Prop :=
  k.isRequest = true → ∃ c, k.Presents cfg c ∧
    (v.owner = c.sub ∨ SawSuperuser h c.sub ∨
      ∃ l n, v = .updateSession l n ∧ (c.sid = some l.id ∨ c.jti = some l.id))

def RevokesAll (k : Call) (u : String) : Prop :=
  match k with
  | .logoutAll u' | .deleteUser u' | .deleteUserRoute _ u' => u' = u
  | .changeStatus u' st => u' = u ∧ st ∈ lockoutStatuses
  | .refreshToken _ _ | .refreshRoute _ _ _ | .logoutAllRoute _ => ∃ c, k.Presents cfg c ∧ c.sub = u
  | _ => False

inductive Ends (k : Call) (h : List Act) (l : SessionModel) : Prop where
  | rotation (u : String) : k.Refreshes cfg l.id u → Ends k h l
  | eviction (e p : String) (d ip : Option String) (t : Time) (rows : List SessionModel) :
    k = .authenticate e p d ip → .readSessions (.activeOf l.userId t) rows ∈ h →
      5 ≤ rows.length → (∃ a ∈ rows, a.id = l.id) → Ends k h l
  | logout : k = .logout l.id → Ends k h l
  | logoutRoute (t : Token) (c : Claims) : k = .logoutRoute t → cfg.jose.verify t = some c →
      c.sid = some l.id → Ends k h l
  | mass (rows : List SessionModel) : .readSessions (.unrevokedOf l.userId) rows ∈ h →
      l ∈ rows → Ends k h l

end Call

/-- Every operation on users changes columns of its own, and a new status is one that may
follow the status that the call has read. -/
def Call.Alters (k : Call) (h : List Act) (l n : UserModel) : Prop :=
  match k with
  | .updateUser _ _ | .updateUserRoute _ _ _ =>
    n = { l with email := n.email, username := n.username, updatedAt := n.updatedAt }
  | .setPassword _ _ => n = { l with hashedPassword := n.hashedPassword, updatedAt := n.updatedAt }
  | .changeStatus u st => n = { l with status := st, updatedAt := n.updatedAt } ∧ l.id = u ∧
      ∃ x, .readUsers (.byId u) [x] ∈ h ∧ (st = x.status ∨ st ∈ User.validTransitions x.status)
  | .deleteUser _ | .deleteUserRoute _ _ =>
    n = { l with deletedAt := n.deletedAt, updatedAt := n.updatedAt }
  | _ => False

def Bars (l n : UserModel) : Prop :=
  n.status ≠ l.status ∧ n.status ∈ lockoutStatuses ∨ l.deletedAt = none ∧ n.deletedAt ≠ none

def UserModel.InService (x : UserModel) : Prop :=
  x.deletedAt = none ∧ x.status ∉ lockoutStatuses

/-- Where a new session comes from: a login that has ended the sessions over the limit, or the
rotation of a live session that the same transaction revokes. -/
inductive Origin (cfg : Config) (k : Call) (h : List Act) (r : SessionModel) : Prop where
  | login (e p : String) (d ip : Option String) (t t' : Time) (rows : List SessionModel) :
      k = .authenticate e p d ip → r.previousSessionId = none →
      .clock t ∈ h → r.expiresAt = t + days cfg.refreshTokenExpireDays →
      .readSessions (.activeOf r.userId t') rows ∈ h →
      (∀ s ∈ toRevoke (rows.map SessionModel.toEntity), Ended h s.id) → Origin cfg k h r
  | rotation (row : SessionModel) (rows : List SessionModel) (t : Time) :
      r.previousSessionId = some row.id → k.Refreshes cfg row.id r.userId →
      .readSessions (.byId row.id) rows ∈ h → row ∈ rows → row.revokedAt = none →
      .clock t ∈ h → t ≤ row.expiresAt →
      r.deviceInfo = row.deviceInfo → r.expiresAt = row.expiresAt →
      Ended h row.id → Origin cfg k h r

structure Opens (cfg : Config) (k : Call) (h : List Act) (r : SessionModel) : Prop where
  origin : Origin cfg k h r
  drew : .drew r.id ∈ h
  live : r.revokedAt = none
  first : ∀ r', .wrote (.insertSession r') ∉ h
  fresh : ∀ x, Saw h x → x.id ≠ r.id
  tokens : ∀ c, .signed c ∈ h → c.Names r.id ∧ c.sub = r.userId
  user : ∃ x, SawUser h x ∧ x.id = r.userId ∧ x.InService
  apart : (∀ u rows, .readSessions (.unrevokedOf u) rows ∉ h) ∧
    ∀ l n, .wrote (.updateUser l n) ∉ h

structure Revokes (cfg : Config) (k : Call) (h : List Act) (l n : SessionModel) : Prop where
  saw : Saw h l
  core : n.core = l.core
  changed : n.revokedAt ≠ l.revokedAt
  time : ∃ t, n.revokedAt = some t ∧
    (.clock t ∈ h ∧ (∃ x, Saw h x ∧ x.id = l.id ∧ x.revokedAt = none) ∨
      ∃ x, Saw h x ∧ x.id = l.id ∧ x.revokedAt = some t)
  reason : k.Ends cfg h l

def Write.Lawful (cfg : Config) (k : Call) (h : List Act) : Write → Prop
  | .insertUser r => .drew r.id ∈ h ∧ r.role = .user ∧ r.InService
  | .updateUser l n => (∃ rows, .readUsers (.row l.id) rows ∈ h ∧ l ∈ rows) ∧ n.id = l.id ∧
      n.role = l.role ∧ (∀ r, .wrote (.insertSession r) ∉ h) ∧ k.Alters h l n
  | .insertSession r => Opens cfg k h r
  | .updateSession l n => Revokes cfg k h l n

structure Warms (k : Call) (h : List Act) : Prop where
  gated : k.isGated = true
  opened : Open h
  unwritten : ∀ v, .wrote v ∉ h
  undeleted : ∀ key, .cacheDeleted key ∉ h

/-- What has to be in the record before a cache entry is written: the gate stores what it has
read; a new session and its tokens are stored once they are committed. -/
def Caches (cfg : Config) (k : Call) (h : List Act) : Key → Json → Prop
  | .session s, v => ∃ x : SessionModel, x.id = s ∧ v = x.projection.toDict ∧
      (.wrote (.insertSession x) ∈ h ∧ .committed ∈ h ∨
        Warms k h ∧ (∃ rows, .readSessions (.byId s) rows ∈ h ∧ x ∈ rows) ∧
          ∀ v' ttl, .cacheSet (.session s) v' ttl ∉ h)
  | .grace p, v => ∃ r a b, .wrote (.insertSession r) ∈ h ∧ .committed ∈ h ∧
      r.previousSessionId = some p ∧ .signed a ∈ h ∧ .signed b ∈ h ∧ a.type = .access ∧
      b.type = .refresh ∧ v = TokenPair.toDict
        { accessToken := cfg.jose.encode a, refreshToken := cfg.jose.encode b }
  | .user u, v => ∃ x : UserModel, x.id = u ∧ v = x.toEntity.toDict ∧ x.deletedAt = none ∧
      Warms k h ∧ ∃ rows, .readUsers (.byId u) rows ∈ h ∧ x ∈ rows

def Act.Lawful (cfg : Config) (k : Call) (h : List Act) : Act → Prop
  | .signed c => c.sub ≠ "" ∧ (∃ s, s ≠ "" ∧ .drew s ∈ h ∧ c.Names s) ∧
      (∀ c', .signed c' ∈ h → c'.type ≠ c.type) ∧ ∀ r, .wrote (.insertSession r) ∉ h
  | .readSessions q _ => Open h ∧ (∀ r, .wrote (.insertSession r) ∉ h) ∧
      (∀ u t, q = .activeOf u t →
        .clock t ∈ h ∧ ∀ u' rows, .readSessions (.unrevokedOf u') rows ∉ h) ∧
      ∀ u, q = .unrevokedOf u → k.RevokesAll cfg u ∧ ∀ l n, .wrote (.updateSession l n) ∉ h
  | .readUsers _ _ => Open h ∧ ∀ r, .wrote (.insertUser r) ∉ h
  | .wrote v => Open h ∧ k.Authorised cfg h v ∧ v.Lawful cfg k h
  | .committed => Open h ∧
      (∀ u rows, .readSessions (.unrevokedOf u) rows ∈ h →
        ∀ r ∈ rows, ∃ n, .wrote (.updateSession r n) ∈ h) ∧
      ∀ l n, .wrote (.updateUser l n) ∈ h → Bars l n →
        ∃ rows, .readSessions (.unrevokedOf l.id) rows ∈ h
  | .cacheSet key v _ => Caches cfg k h key v
  | .failed => False
  | _ => True

inductive Lawful (cfg : Config) (k : Call) : List Act → Prop where
  | nil : Lawful cfg k []
  | snoc {h : List Act} {a : Act} : Lawful cfg k h → a.Lawful cfg k h → Lawful cfg k (h ++ [a])

namespace Lawful

variable {cfg : Config} {k : Call}

theorem snoc_iff {h : List Act} {a : Act} :
    Lawful cfg k (h ++ [a]) ↔ Lawful cfg k h ∧ a.Lawful cfg k h := by
  constructor
  · generalize hx : h ++ [a] = x
    intro hl
    cases hl with
    | nil => simp at hx
    | snoc hl ha =>
      obtain ⟨rfl, he⟩ := List.append_inj' hx rfl
      cases he
      exact ⟨hl, ha⟩
  · exact fun hl => .snoc hl.1 hl.2

theorem of_append {h h' : List Act} (hl : Lawful cfg k (h ++ h')) : Lawful cfg k h := by
  induction h' using List.reverseRecOn with
  | nil => simpa using hl
  | append_singleton h' a ih =>
    rw [← List.append_assoc, snoc_iff] at hl
    exact ih hl.1

theorem of_split {h₁ h₂ : List Act} {a : Act} (hl : Lawful cfg k (h₁ ++ a :: h₂)) :
    a.Lawful cfg k h₁ := by
  rw [List.append_cons] at hl
  exact (snoc_iff.mp hl.of_append).2

theorem of_mem {h : List Act} {a : Act} (hl : Lawful cfg k h) (ha : a ∈ h) :
    ∃ h₁ h₂, h = h₁ ++ a :: h₂ ∧ a.Lawful cfg k h₁ := by
  obtain ⟨h₁, h₂, rfl⟩ := List.append_of_mem ha
  exact ⟨h₁, h₂, rfl, hl.of_split⟩

theorem before_commit {h₁ h₂ : List Act} {a : Act} (hl : Lawful cfg k (h₁ ++ .committed :: h₂))
    (ha : a ∈ h₁ ++ h₂) (ho : ∀ h, a.Lawful cfg k h → Open h) : a ∈ h₁ := by
  rcases List.mem_append.mp ha with ha | ha
  · exact ha
  · obtain ⟨l₁, l₂, rfl⟩ := List.append_of_mem ha
    have hlaw := hl
    rw [← List.cons_append, ← List.append_assoc] at hlaw
    exact absurd (by simp) (ho _ hlaw.of_split).1

theorem insert_unique {h : List Act} (hl : Lawful cfg k h) {r r' : SessionModel}
    (hr : .wrote (.insertSession r) ∈ h) (hr' : .wrote (.insertSession r') ∈ h) : r = r' := by
  induction hl with
  | nil => simp at hr
  | @snoc h a hl ha ih =>
    rcases List.mem_append.mp hr with hr | hr <;> rcases List.mem_append.mp hr' with hr' | hr'
    · exact ih hr hr'
    · rw [← List.mem_singleton.mp hr'] at ha
      exact absurd hr (ha.2.2.first r)
    · rw [← List.mem_singleton.mp hr] at ha
      exact absurd hr' (ha.2.2.first r')
    · have he := (List.mem_singleton.mp hr).trans (List.mem_singleton.mp hr').symm
      simpa using he

end Lawful

end AsyncPulse
