import AsyncPulse.Entities
import AsyncPulse.KeyedTable
import Mathlib.Data.List.Sort
set_option autoImplicit false

namespace AsyncPulse

abbrev Users := Keyed String UserModel UserModel.id
abbrev Sessions := Keyed String SessionModel SessionModel.id

structure Database where
  users : Users
  sessions : Sessions

/-- One column of an UPDATE: the ORM writes it only where the new value differs from the
one it had loaded. -/
def column {α : Type} [DecidableEq α] (loaded new current : α) : α :=
  if new = loaded then current else new

@[simp] theorem column_same {α : Type} [DecidableEq α] (a c : α) : column a a c = c := by
  simp [column]

@[simp] theorem column_loaded {α : Type} [DecidableEq α] (a b : α) : column a b a = b := by
  unfold column
  split
  · rename_i h
    exact h.symm
  · rfl

def UserModel.patch (loaded new current : UserModel) : UserModel :=
  { id := current.id
    email := column loaded.email new.email current.email
    name := column loaded.name new.name current.name
    username := column loaded.username new.username current.username
    hashedPassword := column loaded.hashedPassword new.hashedPassword current.hashedPassword
    status := column loaded.status new.status current.status
    role := column loaded.role new.role current.role
    deletedAt := column loaded.deletedAt new.deletedAt current.deletedAt
    createdAt := column loaded.createdAt new.createdAt current.createdAt
    updatedAt := column loaded.updatedAt new.updatedAt current.updatedAt }

def SessionModel.patch (loaded new current : SessionModel) : SessionModel :=
  { id := current.id
    userId := column loaded.userId new.userId current.userId
    deviceInfo := column loaded.deviceInfo new.deviceInfo current.deviceInfo
    ipAddress := column loaded.ipAddress new.ipAddress current.ipAddress
    createdAt := column loaded.createdAt new.createdAt current.createdAt
    expiresAt := column loaded.expiresAt new.expiresAt current.expiresAt
    revokedAt := column loaded.revokedAt new.revokedAt current.revokedAt
    previousSessionId :=
      column loaded.previousSessionId new.previousSessionId current.previousSessionId }

@[simp] theorem UserModel.patch_id (l n c : UserModel) : (l.patch n c).id = c.id := rfl

@[simp] theorem SessionModel.patch_id (l n c : SessionModel) : (l.patch n c).id = c.id := rfl

/-- An INSERT or an UPDATE that a flush sends. An UPDATE carries the row as the ORM had
loaded it and as it is to become. -/
inductive Write where
  | insertUser (row : UserModel)
  | updateUser (loaded new : UserModel)
  | insertSession (row : SessionModel)
  | updateSession (loaded new : SessionModel)
  deriving DecidableEq, Repr

/-- What a statement can make another transaction wait for: a row, or an entry of a unique
index. -/
inductive Lock where
  | user (id : String)
  | session (id : String)
  | email (s : String)
  | username (s : String)
  deriving DecidableEq, Repr

def Write.locks : Write → List Lock
  | .insertUser r => [.user r.id, .email r.email, .username r.username]
  | .updateUser l n => [.user l.id] ++
      (if n.email = l.email then [] else [.email l.email, .email n.email]) ++
      (if n.username = l.username then [] else [.username l.username, .username n.username])
  | .insertSession r => [.session r.id]
  | .updateSession l _ => [.session l.id]

namespace Database

def apply (d : Database) : Write → Database
  | .insertUser r => { d with users := d.users.insert r }
  | .updateUser l n => { d with users := d.users.modify l.id (l.patch n) (UserModel.patch_id l n) }
  | .insertSession r => { d with sessions := d.sessions.insert r }
  | .updateSession l n =>
    { d with sessions := d.sessions.modify l.id (l.patch n) (SessionModel.patch_id l n) }

def applyAll (d : Database) (ws : List Write) : Database := ws.foldl apply d

/-- Primary keys, unique indexes and foreign keys. -/
def admits (d : Database) : Write → Bool
  | .insertUser r => (d.users.get r.id).isNone &&
      d.users.rows.all fun u => u.email ≠ r.email && u.username ≠ r.username
  | .updateUser l n => d.users.rows.all fun u => u.id = l.id ||
      ((n.email = l.email || u.email ≠ n.email) &&
        (n.username = l.username || u.username ≠ n.username))
  | .insertSession r => (d.sessions.get r.id).isNone && (d.users.get r.userId).isSome &&
      match r.previousSessionId with
      | some p => (d.sessions.get p).isSome
      | none => true
  | .updateSession _ _ => true

end Database

def fits (limit : Nat) (s : String) : Bool := s.length ≤ limit

def fitsOpt (limit : Nat) : Option String → Bool
  | some s => fits limit s
  | none => true

def Write.fits : Write → Bool
  | .insertUser r => AsyncPulse.fits 255 r.email && fitsOpt 100 r.name &&
      AsyncPulse.fits 100 r.username && AsyncPulse.fits 255 r.hashedPassword
  | .updateUser l n => (n.email = l.email || AsyncPulse.fits 255 n.email) &&
      (n.username = l.username || AsyncPulse.fits 100 n.username) &&
      (n.hashedPassword = l.hashedPassword || AsyncPulse.fits 255 n.hashedPassword)
  | .insertSession r => fitsOpt 255 r.deviceInfo && fitsOpt 45 r.ipAddress
  | .updateSession _ _ => true

theorem pairwise_insertionSort_key {α : Type} (before : α → α → Bool) (key : α → Int)
    (rank : α → Nat)
    (h : ∀ a b, before a b = true ↔ key a < key b ∨ key a = key b ∧ rank a ≤ rank b)
    (l : List α) : (l.insertionSort fun a b => before a b).Pairwise
      fun a b => key a < key b ∨ key a = key b ∧ rank a ≤ rank b := by
  have htotal : Std.Total fun a b : α => before a b = true := by
    constructor
    intro a b
    rw [h, h]
    omega
  have htrans : IsTrans α fun a b : α => before a b = true := by
    constructor
    intro a b c
    rw [h, h, h]
    omega
  apply (List.pairwise_insertionSort (fun a b : α => before a b = true) l).imp
  intro a b hab
  exact (h a b).mp hab

inductive SessionQuery where
  | byId (id : String)
  | activeOf (userId : String) (now : Time)
  | unrevokedOf (userId : String)
  deriving DecidableEq, Repr

namespace SessionQuery

def selects : SessionQuery → SessionModel → Bool
  | .byId id, r => r.id = id
  | .activeOf u now, r => r.userId = u && r.revokedAt.isNone && now < r.expiresAt
  | .unrevokedOf u, r => r.userId = u && r.revokedAt.isNone

/-- `ORDER BY created_at` where the query says so. Rows that are left tied come in the order
of `rank`, which is the database's to choose. -/
def before (rank : String → Nat) : SessionQuery → SessionModel → SessionModel → Bool
  | .activeOf _ _, a, b =>
    a.createdAt < b.createdAt || (a.createdAt = b.createdAt && rank a.id ≤ rank b.id)
  | _, a, b => rank a.id ≤ rank b.id

def eval (q : SessionQuery) (rank : String → Nat) (t : Sessions) : List SessionModel :=
  (t.rows.filter q.selects).insertionSort fun a b => q.before rank a b

theorem mem_eval {q : SessionQuery} {rank : String → Nat} {t : Sessions} {r : SessionModel} :
    r ∈ q.eval rank t ↔ r ∈ t.rows ∧ q.selects r = true := by
  rw [eval, List.mem_insertionSort, List.mem_filter]

theorem nodup_eval (q : SessionQuery) (rank : String → Nat) (t : Sessions) :
    ((q.eval rank t).map SessionModel.id).Nodup := by
  have hperm := (List.perm_insertionSort (fun a b => q.before rank a b)
    (t.rows.filter q.selects)).map SessionModel.id
  exact hperm.nodup_iff.mpr (t.nodup.sublist (List.filter_sublist.map _))

theorem activeOf_sorted (u : String) (now : Time) (rank : String → Nat) (t : Sessions) :
    ((SessionQuery.activeOf u now).eval rank t).Pairwise fun a b => a.createdAt ≤ b.createdAt := by
  have hsorted := pairwise_insertionSort_key ((SessionQuery.activeOf u now).before rank)
    SessionModel.createdAt (fun a => rank a.id)
    (by simp only [before, Bool.or_eq_true, Bool.and_eq_true, decide_eq_true_eq, implies_true])
    (t.rows.filter (SessionQuery.activeOf u now).selects)
  apply hsorted.imp
  intro a b hab
  cases hab with
  | inl hlt => exact Int.le_of_lt hlt
  | inr heq => exact Int.le_of_eq heq.1

theorem mem_byId {rank : String → Nat} {t : Sessions} {s : String} {r : SessionModel} :
    r ∈ (SessionQuery.byId s).eval rank t ↔ t.get s = some r := by
  rw [mem_eval, Keyed.get_eq_some]
  simp [selects]

theorem eval_byId {rank : String → Nat} {t : Sessions} {s : String} {r : SessionModel}
    (h : t.get s = some r) : (SessionQuery.byId s).eval rank t = [r] := by
  have hmem : ∀ x, x ∈ (SessionQuery.byId s).eval rank t ↔ x = r := by
    intro x
    rw [mem_byId, h, Option.some.injEq, eq_comm]
  have hnd := (nodup_eval (.byId s) rank t).of_map
  exact List.perm_singleton.mp ((List.perm_ext_iff_of_nodup hnd (List.nodup_singleton r)).mpr
    fun x => by rw [hmem, List.mem_singleton])

end SessionQuery

/-- The SELECTs on `users`. `row` also finds soft-deleted users. -/
inductive UserQuery where
  | byId (id : String)
  | byEmail (email : String)
  | byUsername (username : String)
  | byEmailOrUsername (email username : String)
  | row (id : String)
  | page (offset limit : Nat)
  deriving DecidableEq, Repr

namespace UserQuery

def selects : UserQuery → UserModel → Bool
  | .byId id, r => r.id = id && r.deletedAt.isNone
  | .byEmail e, r => r.email = e && r.deletedAt.isNone
  | .byUsername n, r => r.username = n && r.deletedAt.isNone
  | .byEmailOrUsername e n, r => (r.email = e || r.username = n) && r.deletedAt.isNone
  | .row id, r => r.id = id
  | .page _ _, r => r.deletedAt.isNone

/-- `ORDER BY created_at DESC` for a page. -/
def before (rank : String → Nat) : UserQuery → UserModel → UserModel → Bool
  | .page _ _, a, b =>
    b.createdAt < a.createdAt || (a.createdAt = b.createdAt && rank a.id ≤ rank b.id)
  | _, a, b => rank a.id ≤ rank b.id

def window {α : Type} : UserQuery → List α → List α
  | .page offset limit, rs => (rs.drop offset).take limit
  | _, rs => rs

def eval (q : UserQuery) (rank : String → Nat) (t : Users) : List UserModel :=
  q.window ((t.rows.filter q.selects).insertionSort fun a b => q.before rank a b)

theorem nodup_eval (q : UserQuery) (rank : String → Nat) (t : Users) : (q.eval rank t).Nodup := by
  have hperm := List.perm_insertionSort (fun a b => q.before rank a b) (t.rows.filter q.selects)
  have hall := hperm.nodup_iff.mpr (t.nodup.of_map.filter _)
  unfold eval
  cases q with
  | page offset limit =>
    exact ((List.take_sublist _ _).trans (List.drop_sublist _ _)).nodup hall
  | _ => exact hall

theorem mem_eval {q : UserQuery} (hq : ∀ o l, q ≠ .page o l) {rank : String → Nat} {t : Users}
    {r : UserModel} : r ∈ q.eval rank t ↔ r ∈ t.rows ∧ q.selects r = true := by
  cases q with
  | page offset limit => exact absurd rfl (hq offset limit)
  | _ => exact (List.mem_insertionSort _).trans List.mem_filter

theorem mem_byEmail {e : String} {rank : String → Nat} {t : Users} {r : UserModel} :
    r ∈ (UserQuery.byEmail e).eval rank t ↔ r ∈ t.rows ∧ r.email = e ∧ r.deletedAt = none := by
  rw [mem_eval (by simp)]
  simp [selects]

theorem mem_byId {u : String} {rank : String → Nat} {t : Users} {r : UserModel} :
    r ∈ (UserQuery.byId u).eval rank t ↔ t.get u = some r ∧ r.deletedAt = none := by
  rw [mem_eval (by simp), Keyed.get_eq_some]
  simp [selects, and_assoc]

theorem mem_of_eval {q : UserQuery} {rank : String → Nat} {t : Users} {r : UserModel}
    (h : r ∈ q.eval rank t) : r ∈ t.rows ∧ q.selects r = true := by
  rw [← List.mem_filter, ← List.mem_insertionSort fun a b => q.before rank a b]
  unfold eval at h
  cases q with
  | page offset limit => exact List.mem_of_mem_drop (List.mem_of_mem_take h)
  | _ => exact h

end UserQuery

end AsyncPulse
