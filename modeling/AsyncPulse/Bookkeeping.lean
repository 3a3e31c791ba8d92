import AsyncPulse.Registry
import AsyncPulse.Renewal
import AsyncPulse.SignIn
set_option autoImplicit false

namespace AsyncPulse
open Effect Registry

def SessionModel.entry (r : SessionModel) : Session String String Time :=
  { owner := r.userId, opened := r.createdAt, expires := r.expiresAt,
    renews := r.previousSessionId, closed := r.revokedAt }

def Database.book (d : Database) (t : Time) : Book String String UserModel Time :=
  { clock := t, account := d.users.get,
    session := fun s => (d.sessions.get s).map SessionModel.entry }

structure UserModel.Revises (x y : UserModel) : Prop where
  present : x.deletedAt = none
  id : y.id = x.id
  name : y.name = x.name
  role : y.role = x.role
  created : y.createdAt = x.createdAt
  status : y.status = x.status ∨ y.status ∈ User.validTransitions x.status

def policy (cfg : Config) : Policy UserModel Time where
  standing := UserModel.InService
  clash x y := x.email = y.email ∨ x.username = y.username
  revises := UserModel.Revises
  limit := 5
  expiry t := t + days cfg.refreshTokenExpireDays

theorem policy_clash_symm (cfg : Config) (x y : UserModel) (h : (policy cfg).clash x y) :
    (policy cfg).clash y x := h.imp Eq.symm Eq.symm

section

variable {d : Database} {t : Time}

theorem book_session {s : String} {r : SessionModel} (h : d.sessions.get s = some r) :
    (d.book t).session s = some r.entry := by simp [Database.book, h]

theorem book_session_none {s : String} : (d.book t).session s = none ↔ d.sessions.get s = none := by
  simp [Database.book]

theorem book_enrol {r : UserModel} (h : d.users.get r.id = none) :
    (d.apply (.insertUser r)).book t = (d.book t).enter r.id r := by
  have haccount : (d.users.insert r).get = Function.update d.users.get r.id (some r) := by
    funext u
    rw [Keyed.get_insert h, Function.update_apply]
  simp only [Database.book, Database.apply, Book.enter, haccount]

theorem UserModel.patch_loaded {x n : UserModel} (h : n.id = x.id) : x.patch n x = n := by
  simp [UserModel.patch, ← h]

theorem book_change {x n : UserModel} (hx : d.users.get x.id = some x) (hn : n.id = x.id) :
    (d.apply (.updateUser x n)).book t = (d.book t).enter x.id n := by
  have haccount : (d.users.modify x.id (x.patch n) (UserModel.patch_id x n)).get =
      Function.update d.users.get x.id (some n) := by
    funext u
    rw [Keyed.get_modify, Function.update_apply]
    split
    · rename_i hu
      rw [hu, hx, Option.map_some, UserModel.patch_loaded hn]
    · rfl
  simp only [Database.book, Database.apply, Book.enter, haccount]

theorem book_same {x : UserModel} (hx : d.users.get x.id = some x) :
    d.book t = (d.book t).enter x.id x := by
  have haccount : d.users.get = Function.update d.users.get x.id (some x) := by
    rw [← hx, Function.update_eq_self]
  simp only [Database.book, Book.enter, ← haccount]

theorem book_insert {r : SessionModel} (h : d.sessions.get r.id = none) :
    (d.apply (.insertSession r)).book t = (d.book t).add r.id r.entry := by
  have hsession : (fun s => ((d.sessions.insert r).get s).map SessionModel.entry) =
      Function.update (fun s => (d.sessions.get s).map SessionModel.entry) r.id (some r.entry) := by
    funext s
    rw [Keyed.get_insert h, Function.update_apply]
    split <;> rfl
  simp only [Database.book, Database.apply, Book.add, hsession]

def closings (evs : List (SessionModel × Time)) (s : String) : Option Time :=
  (evs.find? fun x => x.1.id = s).map Prod.snd

theorem closings_eq_some {evs : List (SessionModel × Time)} {s : String} {t : Time}
    (h : closings evs s = some t) : ∃ x ∈ evs, x.1.id = s ∧ x.2 = t := by
  obtain ⟨x, hx, rfl⟩ := Option.map_eq_some_iff.mp h
  exact ⟨x, List.mem_of_find?_eq_some hx, by simpa using List.find?_some hx, rfl⟩

theorem closings_eq_none {evs : List (SessionModel × Time)} {s : String} :
    closings evs s = none ↔ ∀ x ∈ evs, x.1.id ≠ s := by
  simp [closings]

theorem closings_single (r : SessionModel) (t : Time) :
    closings [(r, t)] = Function.update (fun _ => none) r.id (some t) := by
  funext s
  rw [Function.update_apply]
  split
  · rename_i hs
    simp [closings, hs]
  · rename_i hs
    exact closings_eq_none.mpr (by simpa using fun he => hs he.symm)

theorem book_evictions {evs : List (SessionModel × Time)} (hnd : (evs.map fun x => x.1.id).Nodup)
    (hget : ∀ x ∈ evs, d.sessions.get x.1.id = some x.1) :
    (d.applyAll (evs.map eviction)).book t = (d.book t).close (closings evs) := by
  have hsession : ∀ s, ((d.applyAll (evs.map eviction)).sessions.get s).map SessionModel.entry =
      ((d.book t).close (closings evs)).session s := by
    intro s
    cases hE : closings evs s with
    | none =>
      rw [get_evictions_of_ne (closings_eq_none.mp hE)]
      cases hs : d.sessions.get s <;> simp [Book.close, Database.book, hs, hE, SessionModel.entry]
    | some t₁ =>
      obtain ⟨x, hx, rfl, rfl⟩ := closings_eq_some hE
      rw [get_evictions hnd hget hx]
      simp [Book.close, Database.book, hget x hx, hE, SessionModel.entry]
  simp only [Database.book, users_evictions, hsession]
  rfl

theorem book_shutdown (u : String) (rank : String → Nat) (t₁ : Time) :
    (d.applyAll (shutdown ((SessionQuery.unrevokedOf u).eval rank d.sessions) t₁)).book t =
      (d.book t).close ((d.book t).sweep u t₁) := by
  have hsession : ∀ s, ((d.applyAll (shutdown ((SessionQuery.unrevokedOf u).eval rank d.sessions)
      t₁)).sessions.get s).map SessionModel.entry =
        ((d.book t).close ((d.book t).sweep u t₁)).session s := by
    intro s
    rw [get_shutdown]
    cases hs : d.sessions.get s with
    | none => simp [Book.close, Database.book, hs]
    | some r =>
      rw [Option.map_some, Option.map_some, SessionModel.shut]
      simp only [Book.close, Book.sweep, book_session hs, Option.map_some, Option.bind_some]
      by_cases hr : r.userId = u ∧ r.revokedAt = none
      · simp [SessionModel.entry, hr]
      · have hr' : ¬ (r.entry.owner = u ∧ r.entry.closed.isNone = true) := by
          simpa [SessionModel.entry] using hr
        rw [if_neg hr, if_neg hr']
        rfl
  have husers : (d.applyAll (shutdown ((SessionQuery.unrevokedOf u).eval rank d.sessions)
      t₁)).users = d.users := users_evictions _ _
  simp only [Database.book, husers, hsession]
  rfl

end

end AsyncPulse
