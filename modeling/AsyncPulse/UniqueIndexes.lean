import AsyncPulse.UniqueEntries
import AsyncPulse.Review
import AsyncPulse.Registration
set_option autoImplicit false

namespace AsyncPulse
open Effect

variable {γ χ : Type} {cfg : Config} {C : MayCache Key Json γ χ}

inductive Index where
  | email
  | username
  deriving DecidableEq, Repr

def Index.value : Index → UserModel → String
  | .email, x => x.email
  | .username, x => x.username

def Index.lock : Index → String → Lock
  | .email, s => .email s
  | .username, s => .username s

def World.table (w : World γ) (x : Index) : Locking.Table String UserModel String Nat where
  base := w.db.users.get
  view i := (w.view i).users.get
  row u := w.locks (.user u)
  entry s := w.locks (x.lock s)

theorem unique_iff {t : Users} {x : Index} :
    Locking.Unique x.value t.get ↔ t.Distinct x.value := by
  constructor
  · intro h r hr r' hr' he
    exact t.eq_of_key hr hr' (h r.id r'.id r r' (t.get_of_mem hr) (t.get_of_mem hr') he)
  · intro h a b r r' hr hr' he
    rw [← t.key_of_get hr, ← t.key_of_get hr', h r (t.mem_of_get hr) r' (t.mem_of_get hr') he]

theorem indexed_iff {t : Users} : Indexed t ↔ ∀ x : Index, t.Distinct x.value := by
  constructor
  · rintro h (_ | _)
    · exact h.email
    · exact h.username
  · exact fun h => ⟨h .email, h .username⟩

section Rows

variable {d d' : Database} {v : Write} {u : String}

theorem Database.apply_unlocked (h : Lock.user u ∉ v.locks) :
    (d.apply v).users.get u = d.users.get u := by
  cases v with
  | insertUser r =>
    have hu : u ≠ r.id := by simpa [Write.locks] using h
    change (d.users.insert r).get u = _
    cases hg : d.users.get r.id with
    | none => rw [d.users.get_insert hg, if_neg hu]
    | some r' => rw [d.users.insert_of_taken hg]
  | updateUser l n =>
    have hu : u ≠ l.id := fun hu => h (by simp [Write.locks, hu])
    exact (d.users.get_modify l.id (l.patch n) (UserModel.patch_id l n) u).trans (if_neg hu)
  | insertSession r => rfl
  | updateSession l n => rfl

/-- What a statement makes of a row depends on that row alone. -/
theorem Database.apply_local (h : d.users.get u = d'.users.get u) :
    (d.apply v).users.get u = (d'.apply v).users.get u := by
  cases v with
  | insertUser r =>
    by_cases hu : u = r.id
    · subst hu
      change (d.users.insert r).get r.id = (d'.users.insert r).get r.id
      cases hg : d.users.get r.id with
      | none => rw [d.users.get_insert hg, d'.users.get_insert (h ▸ hg), if_pos rfl, if_pos rfl]
      | some r' => rw [d.users.insert_of_taken hg, d'.users.insert_of_taken (h ▸ hg), h]
    · have hl : Lock.user u ∉ (Write.insertUser r).locks := by simpa [Write.locks] using hu
      rw [apply_unlocked hl, apply_unlocked hl, h]
  | updateUser l n =>
    have hf := UserModel.patch_id l n
    change (d.users.modify l.id (l.patch n) hf).get u = (d'.users.modify l.id (l.patch n) hf).get u
    rw [d.users.get_modify, d'.users.get_modify, h]
  | insertSession r => exact h
  | updateSession l n => exact h

theorem Database.applyAll_unlocked {ws : List Write} (h : ∀ v ∈ ws, Lock.user u ∉ v.locks) :
    (d.applyAll ws).users.get u = d.users.get u := by
  induction ws generalizing d with
  | nil => rfl
  | cons v ws ih =>
    rw [applyAll_cons, ih fun v' hv' => h v' (List.mem_cons_of_mem _ hv'),
      apply_unlocked (h v List.mem_cons_self)]

theorem Database.applyAll_local {ws : List Write} (h : d.users.get u = d'.users.get u) :
    (d.applyAll ws).users.get u = (d'.applyAll ws).users.get u := by
  induction ws generalizing d d' with
  | nil => exact h
  | cons v ws ih => exact ih (apply_local h)

end Rows

def HoldLocks (w : World γ) : Prop := ∀ i v, v ∈ w.pending i → ∀ l ∈ v.locks, w.locks l = some i

structure IndexesHold (w : World γ) : Prop where
  held : HoldLocks w
  guarded : ∀ x, (w.table x).Guarded x.value

theorem HoldLocks.init {w : World γ} (hw : Init C w) : HoldLocks w := by
  intro i v hv
  rw [hw.pending i] at hv
  exact absurd hv List.not_mem_nil

theorem IndexesHold.init {w : World γ} (hw : Init C w) (hi : Indexed w.db.users) :
    IndexesHold w := by
  have hview : ∀ i, w.view i = w.db := fun i => by rw [World.view, hw.pending i]; rfl
  have huniq : ∀ x : Index, Locking.Unique x.value w.db.users.get :=
    fun x => unique_iff.mpr (indexed_iff.mp hi x)
  refine ⟨.init hw, fun x => ⟨huniq x, fun i => ?_, fun i u _ => ?_, fun i u y hy hne => ?_⟩⟩
  · change Locking.Unique x.value (w.view i).users.get
    rw [hview i]
    exact huniq x
  · change (w.view i).users.get u = _
    rw [hview i]
    rfl
  · change (w.view i).users.get u = _ at hy
    rw [hview i] at hy
    exact absurd rfl (hne y hy)

section Step

variable {w w' : World γ} {i j : Nat} {v : Write}

theorem World.view_flush_self : (w.flush i v).view i = (w.view i).apply v := by
  simp [World.view, World.flush, Database.applyAll_append]

theorem World.view_flush_ne (hj : j ≠ i) : (w.flush i v).view j = w.view j := by
  simp [World.view, World.flush, Function.update_of_ne hj]

theorem World.view_release_self : (w.release i).view i = w.db := by
  simp [World.view, World.release]

theorem World.view_release_ne (hj : j ≠ i) : (w.release i).view j = w.view j := by
  simp [World.view, World.release, Function.update_of_ne hj]

theorem World.flush_keeps (hb : w.blocked i v = false) {l : Lock} (hj : j ≠ i)
    (hl : w.locks l = some j) : (w.flush i v).locks l = some j := by
  change (if l ∈ v.locks then some i else w.locks l) = some j
  rw [if_neg, hl]
  intro hm
  have hfree := (List.any_eq_false.mp hb) l hm
  rw [hl] at hfree
  exact hj (by simpa using hfree)

theorem World.flush_own {l : Lock} (hl : w.locks l = some i) :
    (w.flush i v).locks l = some i := by
  change (if l ∈ v.locks then some i else w.locks l) = some i
  rw [hl, ite_self]

theorem World.release_keeps {l : Lock} (hj : j ≠ i) (hl : w.locks l = some j) :
    (w.release i).locks l = some j := by
  change (if w.locks l = some i then none else w.locks l) = some j
  rw [if_neg, hl]
  rw [hl]
  exact fun h => hj (Option.some.inj h)

namespace HoldLocks

theorem flush (h : HoldLocks w) (hb : w.blocked i v = false) : HoldLocks (w.flush i v) := by
  intro j v' hv' l hl
  change v' ∈ Function.update w.pending i (w.pending i ++ [v]) j at hv'
  by_cases hj : j = i
  · subst hj
    rw [Function.update_self, List.mem_append, List.mem_singleton] at hv'
    rcases hv' with hv' | rfl
    · exact World.flush_own (h j v' hv' l hl)
    · exact if_pos hl
  · rw [Function.update_of_ne hj] at hv'
    exact World.flush_keeps hb hj (h j v' hv' l hl)

theorem release (h : HoldLocks w) (i : Nat) : HoldLocks (w.release i) := by
  intro j v' hv' l hl
  by_cases hj : j = i
  · subst hj
    simp [World.release] at hv'
  · simp only [World.release, Function.update_of_ne hj] at hv'
    exact World.release_keeps hj (h j v' hv' l hl)

theorem view_of_locked (h : HoldLocks w) {u : String} (hj : w.locks (.user u) ≠ some i)
    (d : Database) : (d.applyAll (w.pending i)).users.get u = d.users.get u :=
  Database.applyAll_unlocked fun v hv hl => hj (h i v hv _ hl)

end HoldLocks

inductive Handled (i : Nat) (w w' : World γ) : Prop where
  | same : w'.db = w.db → w'.pending = w.pending → w'.locks = w.locks → Handled i w w'
  | flush (v : Write) : w.blocked i v = false → (w.view i).admits v = true → w' = w.flush i v →
      Handled i w w'
  | commit : w' = w.commit i → Handled i w w'
  | release : w' = w.release i → Handled i w w'

theorem handled_of_handle {c : Choice χ} {β : Type} {e : Eff β} {r : Except Exc β}
    (he : handle cfg C i c w e = some (r, w')) : Handled i w w' := by
  cases e with
  | write v =>
    simp only [handle] at he
    split at he
    · split at he <;> cases he
      exact .same rfl rfl rfl
    · rename_i hb
      split at he
      · cases he
        exact .same rfl rfl rfl
      · rename_i ha
        split at he <;> cases he
        · exact .same rfl rfl rfl
        · exact .flush v (by simpa using hb) (by simpa using ha) rfl
  | commit =>
    simp only [handle] at he
    cases he
    exact .commit rfl
  | close =>
    simp only [handle] at he
    cases he
    exact .release rfl
  | now | uuid4 =>
    simp only [handle] at he
    split at he <;> cases he
    exact .same rfl rfl rfl
  | _ =>
    simp only [handle] at he
    cases he
    exact .same rfl rfl rfl

theorem HoldLocks.congr (h : HoldLocks w) (hp : w'.pending = w.pending)
    (hl : w'.locks = w.locks) : HoldLocks w' := by
  intro j v hv l hm
  rw [hl]
  exact h j v (hp ▸ hv) l hm

theorem HoldLocks.step (h : HoldLocks w) {c : Choice χ} {β : Type} {e : Eff β} {r : Except Exc β}
    (he : handle cfg C i c w e = some (r, w')) : HoldLocks w' := by
  cases handled_of_handle he with
  | same _ hp hl => exact h.congr hp hl
  | flush v hb _ hw =>
    rw [hw]
    exact h.flush hb
  | commit hw =>
    rw [hw]
    exact h.release i
  | release hw =>
    rw [hw]
    exact h.release i

theorem Index.value_patch (x : Index) (l n r : UserModel) :
    x.value (l.patch n r) = column (x.value l) (x.value n) (x.value r) := by
  cases x <;> rfl

theorem Index.lock_mem_update {x : Index} {l n : UserModel} (h : x.value n ≠ x.value l) :
    x.lock (x.value n) ∈ (Write.updateUser l n).locks := by
  cases x with
  | email =>
    have he : n.email ≠ l.email := h
    simp [Write.locks, lock, value, he]
  | username =>
    have he : n.username ≠ l.username := h
    simp [Write.locks, lock, value, he]

/-- The only row of `users` that a statement can change, and what it makes of it: an index entry
that is new is locked and free. -/
theorem Write.admitted {d : Database} (ha : d.admits v = true) (x : Index) :
    (∀ u, (d.apply v).users.get u = d.users.get u) ∨ ∃ a, Lock.user a ∈ v.locks ∧
      (∀ b, b ≠ a → (d.apply v).users.get b = d.users.get b) ∧
      ∀ y, (d.apply v).users.get a = some y →
        (∃ z, d.users.get a = some z ∧ x.value z = x.value y) ∨
          x.lock (x.value y) ∈ v.locks ∧
            ∀ b z, b ≠ a → d.users.get b = some z → x.value z ≠ x.value y := by
  cases v with
  | insertUser r =>
    simp only [Database.admits, Bool.and_eq_true, Option.isNone_iff_eq_none, List.all_eq_true,
      decide_eq_true_eq] at ha
    refine .inr ⟨r.id, by simp [locks], fun b hb => ?_, fun y hy => .inr ?_⟩
    · exact Database.apply_unlocked (by simpa [locks] using hb)
    · change (d.users.insert r).get r.id = some y at hy
      rw [d.users.get_insert ha.1, if_pos rfl] at hy
      cases hy
      refine ⟨by cases x <;> simp [locks, Index.lock, Index.value], fun b z _ hz => ?_⟩
      have hfree := ha.2 z (d.users.mem_of_get hz)
      cases x with
      | email => exact hfree.1
      | username => exact hfree.2
  | updateUser l n =>
    simp only [Database.admits, List.all_eq_true, Bool.or_eq_true, Bool.and_eq_true,
      decide_eq_true_eq] at ha
    refine .inr ⟨l.id, by simp [locks], fun b hb => ?_, fun y hy => ?_⟩
    · have hf := UserModel.patch_id l n
      exact (d.users.get_modify l.id (l.patch n) hf b).trans (if_neg hb)
    · have hf := UserModel.patch_id l n
      change (d.users.modify l.id (l.patch n) hf).get l.id = some y at hy
      rw [d.users.get_modify, if_pos rfl] at hy
      obtain ⟨z, hz, rfl⟩ := Option.map_eq_some_iff.mp hy
      rw [x.value_patch]
      by_cases hn : x.value n = x.value l
      · rw [hn, column_same]
        exact .inl ⟨z, hz, rfl⟩
      · rw [column, if_neg hn]
        refine .inr ⟨Index.lock_mem_update hn, fun b z' hb hz' => ?_⟩
        have hid : z'.id ≠ l.id := by rwa [d.users.key_of_get hz']
        have hfree := (ha z' (d.users.mem_of_get hz')).resolve_left hid
        cases x with
        | email => exact hfree.1.resolve_left hn
        | username => exact hfree.2.resolve_left hn
  | insertSession r => exact .inl fun _ => rfl
  | updateSession l n => exact .inl fun _ => rfl

namespace IndexesHold

theorem flush (h : IndexesHold w) (hb : w.blocked i v = false)
    (ha : (w.view i).admits v = true) : IndexesHold (w.flush i v) := by
  refine ⟨h.held.flush hb, fun x => ?_⟩
  have hkeeps : (w.table x).Keeps ((w.flush i v).table x) i :=
    ⟨fun j a hj hl => World.flush_keeps hb hj hl, fun j s hj hl => World.flush_keeps hb hj hl⟩
  have hothers : ∀ j, j ≠ i → ((w.flush i v).table x).view j = (w.table x).view j := by
    intro j hj
    change ((w.flush i v).view j).users.get = (w.view j).users.get
    rw [World.view_flush_ne hj]
  have hself : ((w.flush i v).table x).view i = ((w.view i).apply v).users.get := by
    change ((w.flush i v).view i).users.get = _
    rw [World.view_flush_self]
  rcases Write.admitted ha x with hsame | ⟨a, hrow, hrest, hnew⟩
  · refine (h.guarded x).mono rfl (funext fun j => ?_) (fun j a => ?_) fun j s => ?_
    · by_cases hj : j = i
      · rw [hj, hself]
        exact funext hsame
      · exact hothers j hj
    · by_cases hj : j = i
      · exact hj ▸ World.flush_own
      · exact World.flush_keeps hb hj
    · by_cases hj : j = i
      · exact hj ▸ World.flush_own
      · exact World.flush_keeps hb hj
  · refine (h.guarded x).put hkeeps rfl hothers (a := a) ?_ (fun b => World.flush_own)
      (if_pos hrow) (fun s => World.flush_own) ?_
    · intro b hb
      rw [hself]
      exact hrest b hb
    · intro y hy
      rw [hself] at hy
      rcases hnew y hy with hsame | ⟨hl, hfree⟩
      · exact .inl hsame
      · exact .inr ⟨if_pos hl, hfree⟩

theorem release (h : IndexesHold w) (i : Nat) : IndexesHold (w.release i) := by
  refine ⟨h.held.release i, fun x => ?_⟩
  refine (h.guarded x).rollback (i := i) ⟨fun j a hj => World.release_keeps hj,
    fun j s hj => World.release_keeps hj⟩ rfl (fun j hj => ?_) ?_
  · change ((w.release i).view j).users.get = (w.view j).users.get
    rw [World.view_release_ne hj]
  · change ((w.release i).view i).users.get = w.db.users.get
    rw [World.view_release_self]

theorem commit (h : IndexesHold w) (i : Nat) : IndexesHold (w.commit i) := by
  refine ⟨h.held.release i, fun x => ?_⟩
  have hview : ∀ j, j ≠ i → (w.commit i).view j = (w.view i).applyAll (w.pending j) := by
    intro j hj
    simp [World.view, World.commit, World.release, Function.update_of_ne hj]
  have hself : (w.commit i).view i = w.view i := by simp [World.view, World.commit, World.release]
  refine (h.guarded x).commit (i := i) ⟨fun j a hj => World.release_keeps hj,
    fun j s hj => World.release_keeps hj⟩ rfl ?_ (fun j a hj hr => ?_) fun j a hj hr => ?_
  · change ((w.commit i).view i).users.get = (w.view i).users.get
    rw [hself]
  · change ((w.commit i).view j).users.get a = (w.view j).users.get a
    rw [hview j hj]
    have hi : w.locks (.user a) ≠ some i := fun hi => hj (Option.some.inj (hr.symm.trans hi))
    exact Database.applyAll_local (h.held.view_of_locked hi w.db)
  · change ((w.commit i).view j).users.get a = (w.view i).users.get a
    rw [hview j hj]
    exact h.held.view_of_locked hr _

theorem congr (h : IndexesHold w) (hd : w'.db = w.db) (hp : w'.pending = w.pending)
    (hl : w'.locks = w.locks) : IndexesHold w' := by
  have ht : ∀ x, w'.table x = w.table x := fun x => by
    simp only [World.table, World.view, hd, hp, hl]
  exact ⟨h.held.congr hp hl, fun x => ht x ▸ h.guarded x⟩

theorem step (h : IndexesHold w) {c : Choice χ} {β : Type} {e : Eff β} {r : Except Exc β}
    (he : handle cfg C i c w e = some (r, w')) : IndexesHold w' := by
  cases handled_of_handle he with
  | same hd hp hl => exact h.congr hd hp hl
  | flush v hb ha hw =>
    rw [hw]
    exact h.flush hb ha
  | commit hw =>
    rw [hw]
    exact h.commit i
  | release hw =>
    rw [hw]
    exact h.release i

theorem distinct (h : IndexesHold w) (x : Index) : (w.view i).users.Distinct x.value :=
  unique_iff.mp ((h.guarded x).view i)

end IndexesHold

theorem handle_write {c : Choice χ} {r : Except Exc Unit}
    (he : handle cfg C i c w (.write v) = some (r, w')) :
    (r = .ok () ∧ v.fits = true) ∨ r = .error .operationalError ∨
      (r = .error .integrityError ∧ (w.view i).admits v = false) ∨
      (r = .error .dataError ∧ v.fits = false) := by
  simp only [handle] at he
  split at he
  · split at he <;> cases he
    exact .inr (.inl rfl)
  · split at he
    · rename_i ha
      cases he
      exact .inr (.inr (.inl ⟨rfl, by simpa using ha⟩))
    · split at he
      · rename_i hf
        cases he
        exact .inr (.inr (.inr ⟨rfl, by simpa using hf⟩))
      · rename_i hf
        cases he
        exact .inl ⟨rfl, by simpa using hf⟩

end Step

def UserQuery.single : UserQuery → Bool
  | .byId _ | .byEmail _ | .byUsername _ | .row _ => true
  | .byEmailOrUsername _ _ | .page _ _ => false

theorem UserQuery.single_eval {q : UserQuery} (hq : q.single = true) {t : Users}
    (ht : ∀ x : Index, t.Distinct x.value) (rank : String → Nat) :
    (q.eval rank t).length ≤ 1 := by
  have hmem : ∀ r ∈ q.eval rank t, ∀ r' ∈ q.eval rank t, r = r' := by
    intro r hr r' hr'
    have hr := q.mem_of_eval hr
    have hr' := q.mem_of_eval hr'
    cases q with
    | byId u =>
      simp only [selects, Bool.and_eq_true, decide_eq_true_eq] at hr hr'
      exact t.eq_of_key hr.1 hr'.1 (hr.2.1.trans hr'.2.1.symm)
    | byEmail e =>
      simp only [selects, Bool.and_eq_true, decide_eq_true_eq] at hr hr'
      exact ht .email r hr.1 r' hr'.1 (hr.2.1.trans hr'.2.1.symm)
    | byUsername n =>
      simp only [selects, Bool.and_eq_true, decide_eq_true_eq] at hr hr'
      exact ht .username r hr.1 r' hr'.1 (hr.2.1.trans hr'.2.1.symm)
    | row u =>
      simp only [selects, decide_eq_true_eq] at hr hr'
      exact t.eq_of_key hr.1 hr'.1 (hr.2.trans hr'.2.symm)
    | byEmailOrUsername e n => cases hq
    | page offset limit => cases hq
  have hnd := q.nodup_eval rank t
  cases hl : q.eval rank t with
  | nil => simp
  | cons r l =>
    cases l with
    | nil => simp
    | cons r' rest =>
      rw [hl] at hnd hmem
      have hrr := hmem r (by simp) r' (by simp)
      exact absurd (hrr ▸ List.mem_cons_self) (List.nodup_cons.mp hnd).1

/-- What the indexes mean for the records: a lookup finds one user at most. The columns take
every value that has been written. -/
structure Recorded (w : World γ) : Prop where
  indexes : IndexesHold w
  single : ∀ i q rows, .readUsers q rows ∈ w.hist i → q.single = true → rows.length ≤ 1
  fits : ∀ i v, .wrote v ∈ w.hist i → v.fits = true

namespace Recorded

variable {w w' : World γ} {i : Nat}

theorem init (hw : Init C w) (hi : Indexed w.db.users) : Recorded w where
  indexes := .init hw hi
  single i q rows hm := by simp [hw.hist i] at hm
  fits i v hm := by simp [hw.hist i] at hm

theorem step (h : Recorded w) {c : Choice χ} {β : Type} {e : Eff β} {r : Except Exc β}
    (he : handle cfg C i c w e = some (r, w')) : Recorded (w'.log i (e.act r)) := by
  have hmv := moved_of_handle he
  refine ⟨(h.indexes.step he).congr rfl rfl rfl, fun j q rows hm hq => ?_, fun j v hm => ?_⟩
  · rcases hmv.mem_hist.mp hm with hm | ⟨-, ha⟩
    · exact h.single j q rows hm hq
    · obtain ⟨rank, rfl⟩ := hmv.readUsers q rows ha.symm
      exact UserQuery.single_eval hq (fun x => h.indexes.distinct x) rank
  · rcases hmv.mem_hist.mp hm with hm | ⟨-, ha⟩
    · exact h.fits j v hm
    · cases e with
      | write v' =>
        rcases handle_write he with ⟨rfl, hf⟩ | rfl | ⟨rfl, -⟩ | ⟨rfl, -⟩
        · cases ha
          exact hf
        all_goals cases ha
      | _ => cases r <;> cases ha

theorem tick (h : Recorded w) (t : Time) : Recorded (w.setClock t) :=
  ⟨h.indexes.congr rfl rfl rfl, h.single, h.fits⟩

end Recorded

end AsyncPulse
