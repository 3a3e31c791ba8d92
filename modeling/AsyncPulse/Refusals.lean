import AsyncPulse.UniqueIndexes
set_option autoImplicit false

namespace AsyncPulse
open Effect

variable {γ χ : Type} {cfg : Config} {C : MayCache Key Json γ χ}

/-- A key or an index can stand in the way of the statement. A session has a fresh id of its own,
and the rows that it refers to have been read. -/
def Write.Clashes (h : List Act) : Write → Prop
  | .insertUser _ => True
  | .updateUser l n => n.email ≠ l.email ∨ n.username ≠ l.username
  | .insertSession r => ¬ (.drew r.id ∈ h ∧ (∀ x, .wrote (.insertSession x) ∈ h → x.id ≠ r.id) ∧
      (∃ x, SawUser h x ∧ x.id = r.userId) ∧
      ∀ p, r.previousSessionId = some p → ∃ x, Saw h x ∧ x.id = p)
  | .updateSession _ _ => False

/-- What else is known of the replies, besides what the audit says: why a statement is refused,
and which rows a query finds. -/
def Replies (cfg : Config) (h : List Act) : {β : Type} → Eff β → Except Exc β → Prop
  | _, .uuid4, r => ∀ u, r = .ok u → ∀ x, .wrote (.insertSession x) ∈ h → x.id ≠ u
  | _, .hashpw pw, r => ∃ salt, cfg.hashpw salt pw = r
  | _, .selectSessions q, r => ∀ rows, r = .ok rows →
      (∀ x ∈ rows, fitsOpt 255 x.deviceInfo = true) ∧ ∀ x, Saw h x → q = .byId x.id → rows ≠ []
  | _, .selectUsers q, r => ∀ rows, r = .ok rows →
      (q.single = true → rows.length ≤ 1) ∧ ∀ x, SawUser h x → q = .row x.id → rows ≠ []
  | _, .write v, r => (r = .ok () ∧ v.fits = true) ∨ r = .error .operationalError ∨
      (r = .error .integrityError ∧ v.Clashes h) ∨ (r = .error .dataError ∧ v.fits = false)
  | _, _, _ => True

namespace Provenance

variable {m : Nat → Option Call} {w w' : World γ} {i : Nat}

theorem view_of_closed (h : Provenance cfg C m w) (ho : ¬ Open (w.hist i)) : w.view i = w.db := by
  rw [World.view, h.pending i, if_neg ho]
  rfl

theorem view_inserted (h : Provenance cfg C m w) {s : String} {x : SessionModel}
    (hx : (w.view i).sessions.get s = some x) :
    ∃ j r, .wrote (.insertSession r) ∈ w.hist j ∧ r.id = s ∧ x.core = r.core := by
  have hrow : ∀ y, w.db.sessions.get s = some y → x.core = y.core →
      ∃ j r, .wrote (.insertSession r) ∈ w.hist j ∧ r.id = s ∧ x.core = r.core := by
    intro y hy hc
    obtain ⟨j, r, hr, -, hid, hyr⟩ := h.row s y hy
    exact ⟨j, r, hr, hid, hc.trans hyr⟩
  by_cases ho : Open (w.hist i)
  · rcases h.view_origin ho hx with ⟨y, hy, hc⟩ | ⟨r, hr, hid, hc⟩
    · exact hrow y hy hc
    · exact ⟨i, r, hr, hid, hc⟩
  · rw [h.view_of_closed ho] at hx
    exact hrow x hx rfl

theorem view_unused (h : Provenance cfg C m w) {r : SessionModel} (hd : .drew r.id ∈ w.hist i)
    (hn : ∀ x, .wrote (.insertSession x) ∈ w.hist i → x.id ≠ r.id) :
    (w.view i).sessions.get r.id = none := by
  cases hg : (w.view i).sessions.get r.id with
  | none => rfl
  | some x =>
    obtain ⟨j, r', hr', hid, -⟩ := h.view_inserted hg
    have hj := h.drawn_of_inserted hr'
    rw [hid, (h.drawn r.id i).mpr hd, Option.some.injEq] at hj
    exact absurd hid (hn r' (hj ▸ hr'))

theorem admits (h : Provenance cfg C m w) {v : Write} (hv : ¬ v.Clashes (w.hist i)) :
    (w.view i).admits v = true := by
  cases v with
  | insertUser r => exact absurd trivial hv
  | updateUser l n =>
    have hsame := not_or.mp hv
    have he : n.email = l.email := not_not.mp hsame.1
    have hn : n.username = l.username := not_not.mp hsame.2
    simp [Database.admits, he, hn]
  | insertSession r =>
    obtain ⟨hd, hn, ⟨x, hx, hxu⟩, hp⟩ := not_not.mp hv
    have hgrows := h.grows_view i
    obtain ⟨y, hy, -⟩ := h.sawUser i x hx
    obtain ⟨y', hy', -⟩ := hgrows.users _ y hy
    simp only [Database.admits, h.view_unused hd hn, Option.isNone_none, Bool.true_and,
      Bool.and_eq_true]
    refine ⟨by rw [← hxu, hy']; rfl, ?_⟩
    cases hr : r.previousSessionId with
    | none => rfl
    | some p =>
      obtain ⟨z, hz, rfl⟩ := hp p hr
      obtain ⟨z', hz', -⟩ := h.saw i z hz
      obtain ⟨z'', hz'', -⟩ := hgrows.sessions _ z' hz'
      simp [hz'']
  | updateSession l n => rfl

theorem replies (h : Provenance cfg C m w) (hR : Recorded w) {c : Choice χ} {β : Type} {e : Eff β}
    {r : Except Exc β} (he : handle cfg C i c w e = some (r, w')) :
    Replies cfg (w.hist i) e r := by
  cases e with
  | uuid4 =>
    simp only [handle] at he
    split at he
    · rename_i hf
      cases he
      rintro u ⟨rfl⟩ x hx hu
      simp [World.freshId, ← hu, h.drawn_of_inserted hx] at hf
    · cases he
  | hashpw pw =>
    simp only [handle] at he
    cases he
    exact ⟨c.salt, rfl⟩
  | selectSessions q =>
    simp only [handle] at he
    cases he
    rintro rows ⟨rfl⟩
    refine ⟨fun x hx => ?_, fun x hx hq => ?_⟩
    · have hg := (w.view i).sessions.get_of_mem (SessionQuery.mem_eval.mp hx).1
      obtain ⟨j, r, hr, -, hc⟩ := h.view_inserted hg
      have hfits := hR.fits j _ hr
      simp only [Write.fits, Bool.and_eq_true] at hfits
      rw [SessionModel.core_deviceInfo hc]
      exact hfits.1
    · obtain ⟨y, hy, -⟩ := h.saw i x hx
      obtain ⟨z, hz, -⟩ := (h.grows_view i).sessions _ y hy
      rw [hq]
      exact List.ne_nil_of_mem (SessionQuery.mem_byId.mpr hz)
  | selectUsers q =>
    simp only [handle] at he
    cases he
    rintro rows ⟨rfl⟩
    refine ⟨fun hq => UserQuery.single_eval hq (fun x => hR.indexes.distinct x) c.rank,
      fun x hx hq => ?_⟩
    obtain ⟨y, hy, -⟩ := h.sawUser i x hx
    obtain ⟨z, hz, -⟩ := (h.grows_view i).users _ y hy
    rw [hq]
    apply List.ne_nil_of_mem (a := z)
    rw [UserQuery.mem_eval (by simp)]
    exact ⟨(w.view i).users.mem_of_get hz, by simp [UserQuery.selects, (w.view i).users.key_of_get hz]⟩
  | write v =>
    rcases handle_write he with hok | hop | ⟨hr, ha⟩ | hdata
    · exact .inl hok
    · exact .inr (.inl hop)
    · refine .inr (.inr (.inl ⟨hr, ?_⟩))
      by_contra hv
      rw [h.admits hv] at ha
      cases ha
    · exact .inr (.inr (.inr hdata))
  | _ => trivial

end Provenance

end AsyncPulse
