import AsyncPulse.GateTraces
import AsyncPulse.Moves
set_option autoImplicit false

namespace AsyncPulse
open Effect

variable {γ χ : Type}

/-- The row that call `i` read as `r` is in the table; if it was read revoked, it is revoked
there, unless the call had only revoked it itself. -/
def KnownRow (w : World γ) (i : Nat) (r : SessionModel) : Prop :=
  ∃ x, w.db.sessions.get r.id = some x ∧ x.core = r.core ∧
    (r.revokedAt ≠ none → x.revokedAt ≠ none ∨
      ∃ l n, .wrote (.updateSession l n) ∈ w.hist i ∧ l.id = r.id)

def Took (d : Database) : Write → Prop
  | .insertSession r => ∃ x, d.sessions.get r.id = some x ∧ x.core = r.core
  | .updateSession l _ => ∃ x, d.sessions.get l.id = some x ∧ x.revokedAt ≠ none
  | _ => True

theorem Took.grows {d d' : Database} {v : Write} (ht : Took d v) (hd : d.Grows d') : Took d' v := by
  cases v with
  | insertUser r => trivial
  | updateUser l n => trivial
  | insertSession r =>
    obtain ⟨x, hx, hc⟩ := ht
    obtain ⟨x', hx', hc', -⟩ := hd.sessions _ x hx
    exact ⟨x', hx', hc'.trans hc⟩
  | updateSession l n =>
    obtain ⟨x, hx, hr⟩ := ht
    obtain ⟨x', hx', -, hr'⟩ := hd.sessions _ x hx
    exact ⟨x', hx', hr' hr⟩

/-- Everything in the state goes back to what the records of the calls say. -/
structure Provenance (cfg : Config) (C : MayCache Key Json γ χ) (m : Nat → Option Call)
    (w : World γ) : Prop where
  idle : ∀ i, m i = none → w.hist i = []
  lawful : ∀ i k, m i = some k → Lawful cfg k (w.hist i)
  presented : ∀ i k c, m i = some k → k.Presents cfg c → c ∈ w.minted
  pending : ∀ i, w.pending i = if Open (w.hist i) then written (w.hist i) else []
  drawn : ∀ u i, w.drawn u = some i ↔ .drew u ∈ w.hist i
  drawnId : ∀ u i, w.drawn u = some i → u ≠ ""
  minted : ∀ c, c ∈ w.minted ↔ ∃ i, .signed c ∈ w.hist i
  locks : ∀ l i, w.locks l = some i → ∃ v ∈ w.pending i, l ∈ v.locks
  clock : ∀ i t, .clock t ∈ w.hist i → t ≤ w.clock
  saw : ∀ i r, Saw (w.hist i) r → KnownRow w i r
  sawUser : ∀ i x, SawUser (w.hist i) x → ∃ y, w.db.users.get x.id = some y ∧ y.role = x.role
  took : ∀ i v, .wrote v ∈ w.hist i → .committed ∈ w.hist i → Took w.db v
  row : ∀ s x, w.db.sessions.get s = some x → ∃ i r, .wrote (.insertSession r) ∈ w.hist i ∧
    .committed ∈ w.hist i ∧ r.id = s ∧ x.core = r.core
  revoked : ∀ s x t, w.db.sessions.get s = some x → x.revokedAt = some t →
    ∃ i l n, .wrote (.updateSession l n) ∈ w.hist i ∧ .committed ∈ w.hist i ∧ l.id = s ∧
      n.revokedAt = some t
  cached : ∀ key v, C.holds w.cache key v → ∃ i ttl, .cacheSet key v ttl ∈ w.hist i
  got : ∀ i key v, .cacheGot key (some v) ∈ w.hist i → ∃ j ttl, .cacheSet key v ttl ∈ w.hist j
  userId : ∀ u x, w.db.users.get u = some x → u ≠ ""

namespace Provenance

variable {cfg : Config} {C : MayCache Key Json γ χ} {m : Nat → Option Call} {w w' : World γ}
  {i : Nat} {k : Call}

theorem lawful_of_mem (h : Provenance cfg C m w) {j : Nat} {a : Act} (ha : a ∈ w.hist j) :
    ∃ k, m j = some k ∧ Lawful cfg k (w.hist j) := by
  cases hm : m j with
  | none =>
    rw [h.idle j hm] at ha
    simp at ha
  | some k => exact ⟨k, rfl, h.lawful j k hm⟩

theorem wrote (h : Provenance cfg C m w) {j : Nat} {v : Write} (hv : .wrote v ∈ w.hist j) :
    ∃ k h₁ h₂, m j = some k ∧ w.hist j = h₁ ++ .wrote v :: h₂ ∧
      (Act.wrote v).Lawful cfg k h₁ := by
  obtain ⟨k, hm, hl⟩ := h.lawful_of_mem hv
  obtain ⟨h₁, h₂, he, ha⟩ := hl.of_mem hv
  exact ⟨k, h₁, h₂, hm, he, ha⟩

theorem drawn_of_inserted (h : Provenance cfg C m w) {j : Nat} {r : SessionModel}
    (hr : .wrote (.insertSession r) ∈ w.hist j) : w.drawn r.id = some j := by
  obtain ⟨_, h₁, h₂, -, he, -, -, hop⟩ := h.wrote hr
  exact (h.drawn _ _).mpr (he ▸ List.mem_append_left _ hop.drew)

theorem sound (h : Provenance cfg C m w) {j : Nat} {v : Write} (hv : .wrote v ∈ w.hist j) :
    v.Sound w.db := by
  obtain ⟨k, h₁, h₂, -, he, -, -, hlaw⟩ := h.wrote hv
  cases v with
  | insertUser r => trivial
  | insertSession r => trivial
  | updateUser l n => exact hlaw.2.2.1
  | updateSession l n =>
    have hs : Saw (w.hist j) l := he ▸ hlaw.saw.mono
    obtain ⟨x, hx, hc, -⟩ := h.saw j l hs
    obtain ⟨t, ht, -⟩ := hlaw.time
    exact ⟨⟨x, hx, hc⟩, hlaw.core, hlaw.changed, by simp [ht]⟩

theorem sound_pending (h : Provenance cfg C m w) (j : Nat) : ∀ v ∈ w.pending j, v.Sound w.db := by
  intro v hv
  rw [h.pending j] at hv
  split at hv
  · exact h.sound (mem_written.mp hv)
  · simp at hv

theorem grows_view (h : Provenance cfg C m w) (j : Nat) : w.db.Grows (w.view j) :=
  Database.applyAll_grows (h.sound_pending j)

/-- While a call has inserted nothing, the rows it sees are rows of the table. -/
theorem view_row (h : Provenance cfg C m w) {j : Nat}
    (hi : ∀ r, .wrote (.insertSession r) ∉ w.hist j) {s : String} {r : SessionModel}
    (hr : (w.view j).sessions.get s = some r) :
    ∃ x, w.db.sessions.get s = some x ∧ x.core = r.core ∧
      (r.revokedAt ≠ none → x.revokedAt ≠ none ∨
        ∃ l n, .wrote (.updateSession l n) ∈ w.hist j ∧ l.id = s) := by
  have hpend : ∀ v ∈ w.pending j, .wrote v ∈ w.hist j := by
    intro v hv
    rw [h.pending j] at hv
    split at hv
    · exact mem_written.mp hv
    · simp at hv
  cases hx : w.db.sessions.get s with
  | none =>
    obtain ⟨r₀, hm, -⟩ := Database.applyAll_new (h.sound_pending j) hx hr
    exact absurd (hpend _ hm) (hi r₀)
  | some x =>
    obtain ⟨r', hr', hc, -⟩ := (h.grows_view j).sessions s x hx
    rw [hr] at hr'
    cases hr'
    refine ⟨x, rfl, hc.symm, fun hn => ?_⟩
    obtain ⟨t, ht⟩ := Option.ne_none_iff_exists'.mp hn
    rcases Database.applyAll_revokedAt (h.sound_pending j) hr ht with
      ⟨y, hy, hyt⟩ | ⟨l, n, hm, hl, -⟩ | ⟨r₀, hm, -⟩
    · rw [hx] at hy
      cases hy
      exact .inl (by simp [hyt])
    · exact .inr ⟨l, n, hpend _ hm, hl⟩
    · exact absurd (hpend _ hm) (hi r₀)

theorem view_user (h : Provenance cfg C m w) {j : Nat}
    (hi : ∀ r, .wrote (.insertUser r) ∉ w.hist j) {u : String} {x : UserModel}
    (hx : (w.view j).users.get u = some x) :
    ∃ y, w.db.users.get u = some y ∧ y.role = x.role := by
  rcases Database.applyAll_user hx with ⟨y, hy⟩ | ⟨r, hm, -⟩
  · obtain ⟨x', hx', hr⟩ := (h.grows_view j).users u y hy
    rw [show (w.view j).users.get u = some x from hx] at hx'
    cases hx'
    exact ⟨y, hy, hr.symm⟩
  · rw [h.pending j] at hm
    split at hm
    · exact absurd (mem_written.mp hm) (hi r)
    · simp at hm

theorem drawn_of_row (h : Provenance cfg C m w) {s : String} {x : SessionModel}
    (hx : w.db.sessions.get s = some x) : ∃ j, w.drawn s = some j := by
  obtain ⟨j, r, hw, -, rfl, -⟩ := h.row s x hx
  exact ⟨j, h.drawn_of_inserted hw⟩

theorem fits (h : Provenance cfg C m w) {key : Key} {v : Json} (hv : C.holds w.cache key v) :
    key.Fits cfg.jose v := by
  obtain ⟨j, ttl, hs⟩ := h.cached key v hv
  obtain ⟨k, -, hl⟩ := h.lawful_of_mem hs
  obtain ⟨h₁, h₂, -, hc⟩ := hl.of_mem hs
  change Caches cfg k h₁ key v at hc
  cases key with
  | session s =>
    obtain ⟨x, hid, hv, -⟩ := hc
    exact ⟨x.projection, hid, hv⟩
  | grace p =>
    obtain ⟨r, a, b, -, -, -, -, -, -, -, hv⟩ := hc
    exact ⟨a, b, hv⟩
  | user u =>
    obtain ⟨x, hid, hv, -⟩ := hc
    exact ⟨x.toEntity, hid, hv⟩

theorem sessionAnswer (h : Provenance cfg C m w) (q : SessionQuery) (rank : String → Nat) :
    SessionAnswer (w.hist i) q (q.eval rank (w.view i).sessions) := by
  refine ⟨fun r hr => (SessionQuery.mem_eval.mp hr).2, ?_, fun ho hi x hx => ⟨?_, ?_⟩⟩
  · have hp : (q.eval rank (w.view i).sessions).Perm ((w.view i).sessions.rows.filter q.selects) :=
      List.perm_insertionSort _ _
    refine (hp.map SessionModel.id).nodup_iff.mpr ?_
    exact (List.filter_sublist.map SessionModel.id).nodup (w.view i).sessions.nodup
  · intro r hr hid
    obtain ⟨y, hy, hc, hrev⟩ := h.saw i x hx
    obtain ⟨z, hz, hzc, hzr⟩ := (h.grows_view i).sessions _ y hy
    have hg := Keyed.get_of_mem (SessionQuery.mem_eval.mp hr).1
    rw [hid, hz] at hg
    cases hg
    refine ⟨hzc.trans hc, fun hxr => ?_⟩
    rcases hrev hxr with hyr | ⟨l, n, hm, hl⟩
    · exact hzr hyr
    · have hp : .updateSession l n ∈ w.pending i := by
        rw [h.pending i, if_pos ho]
        exact mem_written.mpr hm
      obtain ⟨z', hz', hzr'⟩ := Database.applyAll_revoked (h.sound_pending i) hp
      rw [hl] at hz'
      rw [show (w.view i).sessions.get x.id = some z' from hz'] at hz
      cases hz
      exact hzr'
  · rintro rfl hnil
    obtain ⟨y, hy, -⟩ := h.saw i x hx
    obtain ⟨z, hz, -⟩ := (h.grows_view i).sessions _ y hy
    have hid : z.id = x.id := Keyed.key_of_get hz
    have hm : z ∈ SessionQuery.eval (.byId x.id) rank (w.view i).sessions :=
      SessionQuery.mem_eval.mpr ⟨Keyed.mem_of_get hz, by simp [SessionQuery.selects, hid]⟩
    rw [hnil] at hm
    simp at hm

theorem userAnswer (h : Provenance cfg C m w) (q : UserQuery) (rank : String → Nat) :
    UserAnswer q (q.eval rank (w.view i).users) := by
  refine ⟨fun x hx => (UserQuery.mem_of_eval hx).2, ?_, fun x hx => ?_⟩
  · have hp : ((w.view i).users.rows.filter q.selects).insertionSort
        (fun a b => q.before rank a b = true) |>.Perm ((w.view i).users.rows.filter q.selects) :=
      List.perm_insertionSort _ _
    have hn : (((w.view i).users.rows.filter q.selects).insertionSort
        (fun a b => q.before rank a b = true) |>.map UserModel.id).Nodup :=
      (hp.map UserModel.id).nodup_iff.mpr
        ((List.filter_sublist.map UserModel.id).nodup (w.view i).users.nodup)
    refine List.Sublist.nodup (List.Sublist.map UserModel.id ?_) hn
    unfold UserQuery.eval UserQuery.window
    split
    · exact (List.take_sublist _ _).trans (List.drop_sublist _ _)
    · exact List.Sublist.refl _
  · have hg := Keyed.get_of_mem (UserQuery.mem_of_eval hx).1
    rcases Database.applyAll_user hg with ⟨y, hy⟩ | ⟨r, hm, hid⟩
    · exact h.userId _ y hy
    · rw [h.pending i] at hm
      split at hm
      · obtain ⟨k, h₁, h₂, -, he, -, -, hd, -⟩ := h.wrote (mem_written.mp hm)
        refine h.drawnId _ i ((h.drawn _ _).mpr ?_)
        rw [he, ← hid]
        exact List.mem_append_left _ hd
      · simp at hm

theorem answer (h : Provenance cfg C m w) {c : Choice χ} {β : Type} {e : Eff β}
    {r : Except Exc β} (he : handle cfg C i c w e = some (r, w')) :
    Answer cfg (w.hist i) e r := by
  cases e with
  | now =>
    simp only [handle, Option.ite_none_right_eq_some, Option.some.injEq, Prod.mk.injEq] at he
    obtain ⟨ht, rfl, -⟩ := he
    exact ⟨_, rfl, fun t' ht' => Int.le_trans (h.clock i t' ht') ht⟩
  | uuid4 =>
    simp only [handle, Option.ite_none_right_eq_some, Option.some.injEq, Prod.mk.injEq] at he
    obtain ⟨hf, rfl, -⟩ := he
    obtain ⟨⟨hne, hnone⟩, -⟩ : (c.uuid ≠ "" ∧ w.drawn c.uuid = none) ∧ _ := by
      simpa [World.freshId] using hf
    refine ⟨_, rfl, hne, fun hm => ?_, fun x hx hid => ?_⟩
    · rw [← h.drawn, hnone] at hm
      cases hm
    · obtain ⟨y, hy, -⟩ := h.saw i x hx
      obtain ⟨j, hj⟩ := h.drawn_of_row hy
      rw [hid, hnone] at hj
      cases hj
  | encode cl =>
    simp only [handle, Option.some.injEq, Prod.mk.injEq] at he
    exact he.1.symm
  | hashpw pw => trivial
  | selectSessions q =>
    simp only [handle, Option.some.injEq, Prod.mk.injEq] at he
    exact ⟨_, he.1.symm, h.sessionAnswer q c.rank⟩
  | selectUsers q =>
    simp only [handle, Option.some.injEq, Prod.mk.injEq] at he
    exact ⟨_, he.1.symm, h.userAnswer q c.rank⟩
  | countUsers =>
    simp only [handle, Option.some.injEq, Prod.mk.injEq] at he
    exact ⟨_, he.1.symm⟩
  | write v =>
    simp only [handle] at he
    split at he
    · split at he
      · cases he
        exact .inr ⟨_, by simp, rfl⟩
      · cases he
    · split at he
      · cases he
        exact .inr ⟨_, by simp, rfl⟩
      · split at he
        · cases he
          exact .inr ⟨_, by simp, rfl⟩
        · cases he
          exact .inl rfl
  | commit =>
    simp only [handle, Option.some.injEq, Prod.mk.injEq] at he
    exact he.1.symm
  | close =>
    simp only [handle, Option.some.injEq, Prod.mk.injEq] at he
    exact he.1.symm
  | cacheGet key =>
    simp only [handle, Option.some.injEq, Prod.mk.injEq] at he
    exact ⟨_, he.1.symm, fun x hx => h.fits (C.get_holds _ _ _ _ _ _ hx)⟩
  | cacheSet key v ttl =>
    simp only [handle, Option.some.injEq, Prod.mk.injEq] at he
    exact he.1.symm
  | cacheDelete key =>
    simp only [handle, Option.some.injEq, Prod.mk.injEq] at he
    exact he.1.symm

theorem unused (h : Provenance cfg C m w) (ho : Open (w.hist i)) {r : SessionModel}
    (hr : .wrote (.insertSession r) ∈ w.hist i) : w.db.sessions.get r.id = none := by
  cases hx : w.db.sessions.get r.id with
  | none => rfl
  | some x =>
    obtain ⟨j, r', hw, hc, hid, -⟩ := h.row _ x hx
    have hd' := h.drawn_of_inserted hw
    rw [hid, h.drawn_of_inserted hr] at hd'
    cases hd'
    exact absurd hc ho.1

section View

variable (h : Provenance cfg C m w) (ho : Open (w.hist i))
include h ho

theorem pending_eq : w.pending i = written (w.hist i) := by rw [h.pending i, if_pos ho]

theorem view_took {v : Write} (hv : .wrote v ∈ w.hist i) : Took (w.view i) v := by
  have hvp : v ∈ w.pending i := h.pending_eq ho ▸ mem_written.mpr hv
  cases v with
  | insertUser r => trivial
  | updateUser l n => trivial
  | insertSession r =>
    refine Database.applyAll_inserted (h.sound_pending i) (h.unused ho hv) hvp fun r' hr' _ => ?_
    rw [h.pending_eq ho, mem_written] at hr'
    obtain ⟨k, -, hl⟩ := h.lawful_of_mem hv
    exact hl.insert_unique hr' hv
  | updateSession l n => exact Database.applyAll_revoked (h.sound_pending i) hvp

theorem view_origin {s : String} {x : SessionModel} (hx : (w.view i).sessions.get s = some x) :
    (∃ y, w.db.sessions.get s = some y ∧ x.core = y.core) ∨
      ∃ r, .wrote (.insertSession r) ∈ w.hist i ∧ r.id = s ∧ x.core = r.core := by
  cases hs : w.db.sessions.get s with
  | some y =>
    obtain ⟨x', hx', hc, -⟩ := (h.grows_view i).sessions s y hs
    rw [hx] at hx'
    cases hx'
    exact .inl ⟨y, rfl, hc⟩
  | none =>
    obtain ⟨r, hr, hr'⟩ := Database.applyAll_new (h.sound_pending i) hs hx
    rw [h.pending_eq ho, mem_written] at hr
    exact .inr ⟨r, hr, hr'⟩

theorem view_revokedAt {s : String} {x : SessionModel} {t : Time}
    (hx : (w.view i).sessions.get s = some x) (ht : x.revokedAt = some t) :
    (∃ y, w.db.sessions.get s = some y ∧ y.revokedAt = some t) ∨
      ∃ l n, .wrote (.updateSession l n) ∈ w.hist i ∧ l.id = s ∧ n.revokedAt = some t := by
  rcases Database.applyAll_revokedAt (h.sound_pending i) hx ht with
    hy | ⟨l, n, hn, hid, hnt⟩ | ⟨r, hr, -, hrt⟩
  · exact .inl hy
  · rw [h.pending_eq ho, mem_written] at hn
    exact .inr ⟨l, n, hn, hid, hnt⟩
  · rw [h.pending_eq ho, mem_written] at hr
    obtain ⟨_, _, _, -, -, -, -, hop⟩ := h.wrote hr
    rw [hop.live] at hrt
    cases hrt

theorem view_userId {u : String} {x : UserModel} (hx : (w.view i).users.get u = some x) :
    u ≠ "" := by
  rcases Database.applyAll_user hx with ⟨y, hy⟩ | ⟨r, hr, hid⟩
  · exact h.userId u y hy
  · rw [h.pending_eq ho, mem_written] at hr
    obtain ⟨_, h₁, h₂, -, he, -, -, hd, -⟩ := h.wrote hr
    refine h.drawnId u i ((h.drawn u i).mpr ?_)
    rw [he, ← hid]
    exact List.mem_append_left _ hd

end View

end Provenance

theorem Act.pending_lawful {cfg : Config} {k : Call} {h : List Act} {a : Act}
    (hl : a.Lawful cfg k h) : a.pending (if Open h then written h else []) =
      if Open (h ++ [a]) then written (h ++ [a]) else [] := by
  cases a with
  | wrote v =>
    have ho : Open h := hl.1
    rw [if_pos ho, if_pos (open_snoc.mpr ⟨ho, by simp, by simp⟩), written_append]
    rfl
  | committed => simp [open_snoc, Act.pending]
  | closed => simp [open_snoc, Act.pending]
  | _ => simp [open_snoc, Act.pending, written]

section

variable {C : MayCache Key Json γ χ} {w w' : World γ} {i : Nat} {a : Act}

theorem Moved.mem_hist (hmv : Moved C i a w w') {j : Nat} {b : Act} :
    b ∈ w'.hist j ↔ b ∈ w.hist j ∨ j = i ∧ b = a := by
  rw [hmv.hist]
  by_cases hj : j = i
  · subst hj
    simp
  · simp [hj]

theorem Moved.saw (hmv : Moved C i a w w') {j : Nat} {r : SessionModel} :
    Saw (w'.hist j) r ↔ Saw (w.hist j) r ∨
      j = i ∧ ∃ q rows, a = .readSessions q rows ∧ r ∈ rows := by
  rw [hmv.hist]
  by_cases hj : j = i
  · subst hj
    simp [saw_snoc]
  · simp [hj]

theorem Moved.sawUser (hmv : Moved C i a w w') {j : Nat} {x : UserModel} :
    SawUser (w'.hist j) x ↔ SawUser (w.hist j) x ∨
      j = i ∧ ∃ q rows, a = .readUsers q rows ∧ x ∈ rows := by
  rw [hmv.hist]
  by_cases hj : j = i
  · subst hj
    simp [sawUser_snoc]
  · simp [hj]

theorem Moved.knownRow (hmv : Moved C i a w w') (hd : w.db.Grows w'.db) {j : Nat}
    {r : SessionModel} (hk : KnownRow w j r) : KnownRow w' j r := by
  obtain ⟨x, hx, hc, hr⟩ := hk
  obtain ⟨x', hx', hc', hr'⟩ := hd.sessions _ x hx
  refine ⟨x', hx', hc'.trans hc, fun hn => ?_⟩
  rcases hr hn with hx | ⟨l, n, hm, hl⟩
  · exact .inl (hr' hx)
  · exact .inr ⟨l, n, hmv.mem_hist.mpr (.inl hm), hl⟩

end

namespace Provenance

variable {cfg : Config} {C : MayCache Key Json γ χ} {m : Nat → Option Call} {w w' : World γ}
  {i : Nat} {k : Call} {a : Act}

theorem moved_locks (h : Provenance cfg C m w) (hmv : Moved C i a w w') (l : Lock) (j : Nat)
    (hj : w'.locks l = some j) : ∃ v ∈ w'.pending j, l ∈ v.locks := by
  have hold : w.locks l = some j → (j = i → w.pending i ⊆ a.pending (w.pending i)) →
      ∃ v ∈ w'.pending j, l ∈ v.locks := by
    intro hlj hsub
    obtain ⟨v, hv, hlv⟩ := h.locks l j hlj
    refine ⟨v, ?_, hlv⟩
    rw [hmv.pending]
    by_cases hji : j = i
    · subst hji
      rw [Function.update_self]
      exact hsub rfl hv
    · rwa [Function.update_of_ne hji]
  have hfree : (if w.locks l = some i then none else w.locks l) = some j →
      w.locks l = some j ∧ j ≠ i := by
    intro hj
    split at hj
    · cases hj
    · rename_i hne
      exact ⟨hj, fun hji => hne (hji ▸ hj)⟩
  rw [hmv.locks] at hj
  cases a with
  | wrote v =>
    simp only [Act.lock] at hj
    split at hj
    · cases hj
      refine ⟨v, ?_, ‹_›⟩
      rw [hmv.pending, Function.update_self]
      simp [Act.pending]
    · exact hold hj fun _ => by simp [Act.pending]
  | committed =>
    obtain ⟨hlj, hji⟩ := hfree hj
    exact hold hlj fun he => absurd he hji
  | closed =>
    obtain ⟨hlj, hji⟩ := hfree hj
    exact hold hlj fun he => absurd he hji
  | _ => exact hold hj fun _ => by simp [Act.pending]

theorem moved_grows (h : Provenance cfg C m w) (hmv : Moved C i a w w') : w.db.Grows w'.db := by
  rw [hmv.db]
  split
  · exact h.grows_view i
  · exact .refl _

section Lawful

variable (h : Provenance cfg C m w) (hmv : Moved C i a w w') (hlaw : a.Lawful cfg k (w.hist i))
include h hmv hlaw

theorem moved_saw {j : Nat} {r : SessionModel} (hr : Saw (w'.hist j) r) : KnownRow w' j r := by
  have hgrows := h.moved_grows hmv
  rcases hmv.saw.mp hr with hr | ⟨rfl, q, rows, rfl, hr⟩
  · exact hmv.knownRow hgrows (h.saw j r hr)
  · obtain ⟨rank, rfl⟩ := hmv.read q rows rfl
    refine hmv.knownRow hgrows (h.view_row hlaw.2.1 ?_)
    exact Keyed.get_of_mem (SessionQuery.mem_eval.mp hr).1

theorem moved_sawUser {j : Nat} {x : UserModel} (hx : SawUser (w'.hist j) x) :
    ∃ y, w'.db.users.get x.id = some y ∧ y.role = x.role := by
  obtain ⟨y, hy, hr⟩ : ∃ y, w.db.users.get x.id = some y ∧ y.role = x.role := by
    rcases hmv.sawUser.mp hx with hx | ⟨rfl, q, rows, rfl, hx⟩
    · exact h.sawUser j x hx
    · obtain ⟨rank, rfl⟩ := hmv.readUsers q rows rfl
      exact h.view_user hlaw.2 (Keyed.get_of_mem (UserQuery.mem_of_eval hx).1)
  obtain ⟨y', hy', hr'⟩ := (h.moved_grows hmv).users _ y hy
  exact ⟨y', hy', hr'.trans hr⟩

theorem moved_took {j : Nat} {v : Write} (hv : .wrote v ∈ w'.hist j)
    (hc : .committed ∈ w'.hist j) : Took w'.db v := by
  rcases hmv.mem_hist.mp hv with hv | ⟨rfl, rfl⟩
  · rcases hmv.mem_hist.mp hc with hc | ⟨rfl, rfl⟩
    · exact (h.took j v hv hc).grows (h.moved_grows hmv)
    · rw [hmv.db, if_pos rfl]
      exact h.view_took hlaw.1 hv
  · have hc' : .committed ∈ w.hist j := by simpa using hmv.mem_hist.mp hc
    exact absurd hc' hlaw.1.1

theorem moved_row {s : String} {x : SessionModel} (hx : w'.db.sessions.get s = some x) :
    ∃ j r, .wrote (.insertSession r) ∈ w'.hist j ∧ .committed ∈ w'.hist j ∧ r.id = s ∧
      x.core = r.core := by
  have hold : ∀ y, w.db.sessions.get s = some y → x.core = y.core → ∃ j r,
      .wrote (.insertSession r) ∈ w'.hist j ∧ .committed ∈ w'.hist j ∧ r.id = s ∧
        x.core = r.core := by
    intro y hy hxy
    obtain ⟨j, r, hw, hc, hid, hcore⟩ := h.row s y hy
    exact ⟨j, r, hmv.mem_hist.mpr (.inl hw), hmv.mem_hist.mpr (.inl hc), hid, hxy.trans hcore⟩
  rw [hmv.db] at hx
  split at hx
  · rename_i hc
    subst hc
    rcases h.view_origin hlaw.1 hx with ⟨y, hy, hxy⟩ | ⟨r, hr, hid, hxr⟩
    · exact hold y hy hxy
    · exact ⟨i, r, hmv.mem_hist.mpr (.inl hr), hmv.mem_hist.mpr (.inr ⟨rfl, rfl⟩), hid, hxr⟩
  · exact hold x hx rfl

theorem moved_revoked {s : String} {x : SessionModel} {t : Time}
    (hx : w'.db.sessions.get s = some x) (ht : x.revokedAt = some t) :
    ∃ j l n, .wrote (.updateSession l n) ∈ w'.hist j ∧ .committed ∈ w'.hist j ∧ l.id = s ∧
      n.revokedAt = some t := by
  have hold : ∀ y, w.db.sessions.get s = some y → y.revokedAt = some t → ∃ j l n,
      .wrote (.updateSession l n) ∈ w'.hist j ∧ .committed ∈ w'.hist j ∧ l.id = s ∧
        n.revokedAt = some t := by
    intro y hy hyt
    obtain ⟨j, l, n, hw, hc, hln⟩ := h.revoked s y t hy hyt
    exact ⟨j, l, n, hmv.mem_hist.mpr (.inl hw), hmv.mem_hist.mpr (.inl hc), hln⟩
  rw [hmv.db] at hx
  split at hx
  · rename_i hc
    subst hc
    rcases h.view_revokedAt hlaw.1 hx ht with ⟨y, hy, hyt⟩ | ⟨l, n, hn, hln⟩
    · exact hold y hy hyt
    · exact ⟨i, l, n, hmv.mem_hist.mpr (.inl hn), hmv.mem_hist.mpr (.inr ⟨rfl, rfl⟩), hln⟩
  · exact hold x hx ht

theorem moved_userId {u : String} {x : UserModel} (hx : w'.db.users.get u = some x) : u ≠ "" := by
  rw [hmv.db] at hx
  split at hx
  · rename_i hc
    subst hc
    exact h.view_userId hlaw.1 hx
  · exact h.userId u x hx

end Lawful

/-- Every effect that the records allow keeps the connection between state and records. -/
theorem step (h : Provenance cfg C m w) (hm : m i = some k) (hmv : Moved C i a w w')
    (hl : Lawful cfg k (w.hist i ++ [a])) : Provenance cfg C m w' := by
  have hlaw := (Lawful.snoc_iff.mp hl).2
  constructor
  · intro j hj
    have hne : j ≠ i := by
      rintro rfl
      rw [hm] at hj
      cases hj
    rw [hmv.hist, Function.update_of_ne hne]
    exact h.idle j hj
  · intro j k' hj
    rw [hmv.hist]
    by_cases hne : j = i
    · subst hne
      rw [hm] at hj
      cases hj
      rw [Function.update_self]
      exact hl
    · rw [Function.update_of_ne hne]
      exact h.lawful j k' hj
  · exact fun j k' c hj hp => (hmv.minted c).mpr (.inl (h.presented j k' c hj hp))
  · intro j
    rw [hmv.pending, hmv.hist]
    by_cases hj : j = i
    · subst hj
      rw [Function.update_self, Function.update_self, h.pending j]
      exact Act.pending_lawful hlaw
    · rw [Function.update_of_ne hj, Function.update_of_ne hj, h.pending j]
  · intro u j
    rw [hmv.drawn, h.drawn, hmv.mem_hist, eq_comm (a := a)]
  · intro u j hu
    rcases (hmv.drawn u j).mp hu with hu | ⟨-, hu⟩
    · exact h.drawnId u j hu
    · exact (hmv.fresh u hu).1
  · intro c
    rw [hmv.minted, h.minted]
    constructor
    · rintro (⟨j, hj⟩ | hc)
      · exact ⟨j, hmv.mem_hist.mpr (.inl hj)⟩
      · exact ⟨i, hmv.mem_hist.mpr (.inr ⟨rfl, hc.symm⟩)⟩
    · rintro ⟨j, hj⟩
      rcases hmv.mem_hist.mp hj with hj | ⟨-, hj⟩
      · exact .inl ⟨j, hj⟩
      · exact .inr hj.symm
  · exact h.moved_locks hmv
  · intro j t ht
    rcases hmv.mem_hist.mp ht with ht | ⟨-, ht⟩
    · exact Int.le_trans (h.clock j t ht) hmv.clock
    · exact Int.le_of_eq (hmv.now t ht.symm).symm
  · exact fun j r => h.moved_saw hmv hlaw
  · exact fun j x => h.moved_sawUser hmv hlaw
  · exact fun j v => h.moved_took hmv hlaw
  · exact fun s x => h.moved_row hmv hlaw
  · exact fun s x t => h.moved_revoked hmv hlaw
  · intro key v hv
    rcases hmv.holds key v hv with ⟨hv, -⟩ | ⟨ttl, hv⟩
    · obtain ⟨j, ttl, hj⟩ := h.cached key v hv
      exact ⟨j, ttl, hmv.mem_hist.mpr (.inl hj)⟩
    · exact ⟨i, ttl, hmv.mem_hist.mpr (.inr ⟨rfl, hv.symm⟩)⟩
  · intro j key v hv
    obtain ⟨j', ttl, hj'⟩ : ∃ j' ttl, .cacheSet key v ttl ∈ w.hist j' := by
      rcases hmv.mem_hist.mp hv with hv | ⟨-, hv⟩
      · exact h.got j key v hv
      · exact h.cached key v (hmv.got key v hv.symm)
    exact ⟨j', ttl, hmv.mem_hist.mpr (.inl hj')⟩
  · exact fun u x => h.moved_userId hmv hlaw

end Provenance

end AsyncPulse
