import AsyncPulse.Sql
set_option autoImplicit false

namespace AsyncPulse

/-- The columns of a session that no statement ever changes. -/
def SessionModel.core (r : SessionModel) : SessionModel := { r with revokedAt := none }

theorem SessionModel.eq_of_core {r r' : SessionModel} (h : r.core = r'.core)
    (hr : r.revokedAt = r'.revokedAt) : r = r' := by
  cases r
  cases r'
  simp only [core, mk.injEq] at h
  simp_all

@[simp] theorem SessionModel.core_revoke (r : SessionModel) (t : Option Time) :
    SessionModel.core { r with revokedAt := t } = r.core := rfl

section
variable {r r' : SessionModel} (h : r.core = r'.core)
include h

theorem SessionModel.core_id : r.id = r'.id :=
  congrArg (fun x => x.id) h

theorem SessionModel.core_userId : r.userId = r'.userId :=
  congrArg (fun x => x.userId) h

theorem SessionModel.core_deviceInfo : r.deviceInfo = r'.deviceInfo :=
  congrArg (fun x => x.deviceInfo) h

theorem SessionModel.core_expiresAt : r.expiresAt = r'.expiresAt :=
  congrArg (fun x => x.expiresAt) h

theorem SessionModel.core_previous : r.previousSessionId = r'.previousSessionId :=
  congrArg (fun x => x.previousSessionId) h

end

/-- An UPDATE that changes nothing but the revocation changes nothing else in the row as it
is by then. -/
theorem SessionModel.patch_revoke {l n : SessionModel} (hc : n.core = l.core)
    (hr : n.revokedAt ≠ l.revokedAt) (m : SessionModel) :
    l.patch n m = { m with revokedAt := n.revokedAt } := by
  cases l
  cases n
  simp only [core, mk.injEq] at hc
  simp_all [patch, column]

namespace Database

/-- From `d` to `d'` rows are added, sessions are at most revoked and roles stay. -/
structure Grows (d d' : Database) : Prop where
  sessions : ∀ s r, d.sessions.get s = some r → ∃ r', d'.sessions.get s = some r' ∧
    r'.core = r.core ∧ (r.revokedAt ≠ none → r'.revokedAt ≠ none)
  users : ∀ u r, d.users.get u = some r → ∃ r', d'.users.get u = some r' ∧ r'.role = r.role

theorem Grows.refl (d : Database) : d.Grows d :=
  ⟨fun _ r h => ⟨r, h, rfl, id⟩, fun _ r h => ⟨r, h, rfl⟩⟩

theorem Grows.trans {d d' d'' : Database} (h : d.Grows d') (h' : d'.Grows d'') : d.Grows d'' := by
  constructor
  · intro s r hr
    obtain ⟨r₁, h₁, hc₁, hn₁⟩ := h.sessions s r hr
    obtain ⟨r₂, h₂, hc₂, hn₂⟩ := h'.sessions s r₁ h₁
    exact ⟨r₂, h₂, hc₂.trans hc₁, hn₂ ∘ hn₁⟩
  · intro u r hr
    obtain ⟨r₁, h₁, hc₁⟩ := h.users u r hr
    obtain ⟨r₂, h₂, hc₂⟩ := h'.users u r₁ h₁
    exact ⟨r₂, h₂, hc₂.trans hc₁⟩

end Database

/-- The statements the program sends: it keeps roles, and it updates a session only to
revoke it. -/
def Write.Sound (d : Database) : Write → Prop
  | .insertUser _ | .insertSession _ => True
  | .updateUser l n => n.role = l.role
  | .updateSession l n => (∃ m, d.sessions.get l.id = some m ∧ m.core = l.core) ∧
      n.core = l.core ∧ n.revokedAt ≠ l.revokedAt ∧ n.revokedAt ≠ none

theorem Write.Sound.grows {d d' : Database} {v : Write} (h : v.Sound d) (hd : d.Grows d') :
    v.Sound d' := by
  cases v with
  | insertUser r => trivial
  | insertSession r => trivial
  | updateUser l n => exact h
  | updateSession l n =>
    obtain ⟨⟨m, hm, hc⟩, h⟩ := h
    obtain ⟨m', hm', hc', -⟩ := hd.sessions _ m hm
    exact ⟨⟨m', hm', hc'.trans hc⟩, h⟩

namespace Database

theorem apply_grows {d : Database} {v : Write} (h : v.Sound d) : d.Grows (d.apply v) := by
  cases v with
  | insertUser r =>
    exact ⟨fun _ r h => ⟨r, h, rfl, id⟩, fun u x hx => ⟨x, Keyed.get_insert_of_get hx r, rfl⟩⟩
  | insertSession r =>
    exact ⟨fun s x hx => ⟨x, Keyed.get_insert_of_get hx r, rfl, id⟩, fun _ x h => ⟨x, h, rfl⟩⟩
  | updateUser l n =>
    refine ⟨fun _ r h => ⟨r, h, rfl, id⟩, fun u x hx => ?_⟩
    simp only [apply, Keyed.get_modify, hx]
    split
    · refine ⟨_, rfl, ?_⟩
      have hr : n.role = l.role := h
      simp [UserModel.patch, hr]
    · exact ⟨x, rfl, rfl⟩
  | updateSession l n =>
    obtain ⟨-, hc, hr, hn⟩ := h
    refine ⟨fun s x hx => ?_, fun _ x h => ⟨x, h, rfl⟩⟩
    simp only [apply, Keyed.get_modify, hx]
    split
    · refine ⟨_, rfl, ?_⟩
      rw [SessionModel.patch_revoke hc hr]
      exact ⟨rfl, fun _ => hn⟩
    · exact ⟨x, rfl, rfl, id⟩

@[simp] theorem applyAll_nil (d : Database) : d.applyAll [] = d := rfl

@[simp] theorem applyAll_cons (d : Database) (v : Write) (ws : List Write) :
    d.applyAll (v :: ws) = (d.apply v).applyAll ws := rfl

theorem applyAll_append (d : Database) (ws ws' : List Write) :
    d.applyAll (ws ++ ws') = (d.applyAll ws).applyAll ws' := List.foldl_append

theorem applyAll_grows {d : Database} {ws : List Write} (h : ∀ v ∈ ws, v.Sound d) :
    d.Grows (d.applyAll ws) := by
  induction ws generalizing d with
  | nil => exact Grows.refl d
  | cons v ws ih =>
    have hv := apply_grows (h v (by simp))
    exact hv.trans (ih fun v' hv' => (h v' (by simp [hv'])).grows hv)

theorem applyAll_new {d : Database} {ws : List Write} (h : ∀ v ∈ ws, v.Sound d) {s : String}
    {r : SessionModel} (hs : d.sessions.get s = none)
    (hr : (d.applyAll ws).sessions.get s = some r) :
    ∃ r₀, .insertSession r₀ ∈ ws ∧ r₀.id = s ∧ r.core = r₀.core := by
  induction ws generalizing d with
  | nil =>
    rw [applyAll_nil, hs] at hr
    cases hr
  | cons v ws ih =>
    have hv := apply_grows (h v (by simp))
    have hw : ∀ v' ∈ ws, v'.Sound (d.apply v) := fun v' hv' => (h v' (by simp [hv'])).grows hv
    cases hg : (d.apply v).sessions.get s with
    | none =>
      obtain ⟨r₀, hm, h₀⟩ := ih hw hg hr
      exact ⟨r₀, by simp [hm], h₀⟩
    | some x =>
      obtain ⟨r', hr', hc, -⟩ := (applyAll_grows hw).sessions s x hg
      rw [applyAll_cons, hr'] at hr
      cases hr
      cases v with
      | insertUser _ => rw [apply, hs] at hg; cases hg
      | updateUser _ _ => rw [apply, hs] at hg; cases hg
      | insertSession r₀ =>
        obtain ⟨rfl, hk⟩ := Keyed.get_of_get_insert hs hg
        exact ⟨x, by simp, hk, hc⟩
      | updateSession l n =>
        rw [apply, Keyed.get_modify, hs] at hg
        split at hg <;> cases hg

theorem applyAll_revoked {d : Database} {ws : List Write} (h : ∀ v ∈ ws, v.Sound d)
    {l n : SessionModel} (hm : .updateSession l n ∈ ws) :
    ∃ r, (d.applyAll ws).sessions.get l.id = some r ∧ r.revokedAt ≠ none := by
  induction ws generalizing d with
  | nil => simp at hm
  | cons v ws ih =>
    have hv := apply_grows (h v (by simp))
    have hw : ∀ v' ∈ ws, v'.Sound (d.apply v) := fun v' hv' => (h v' (by simp [hv'])).grows hv
    rcases List.mem_cons.mp hm with rfl | hm
    · obtain ⟨⟨m, hm, -⟩, hc, hr, hn⟩ := h (.updateSession l n) (by simp)
      have hg : (d.apply (.updateSession l n)).sessions.get l.id =
          some { m with revokedAt := n.revokedAt } := by
        simp [apply, Keyed.get_modify, hm, SessionModel.patch_revoke hc hr]
      obtain ⟨r, hr, -, hn'⟩ := (applyAll_grows hw).sessions _ _ hg
      exact ⟨r, hr, hn' hn⟩
    · exact ih hw hm

theorem apply_none {d : Database} {v : Write} {s : String} (hs : d.sessions.get s = none)
    (hv : ∀ r, v = .insertSession r → r.id ≠ s) : (d.apply v).sessions.get s = none := by
  cases v with
  | insertUser _ => exact hs
  | updateUser _ _ => exact hs
  | insertSession r =>
    cases hg : (d.apply (.insertSession r)).sessions.get s with
    | none => rfl
    | some x => exact absurd (Keyed.get_of_get_insert hs hg).2 (hv r rfl)
  | updateSession l n =>
    rw [apply, Keyed.get_modify, hs]
    split <;> rfl

theorem applyAll_inserted {d : Database} {ws : List Write} (h : ∀ v ∈ ws, v.Sound d)
    {r : SessionModel} (hs : d.sessions.get r.id = none) (hr : .insertSession r ∈ ws)
    (hu : ∀ r', .insertSession r' ∈ ws → r'.id = r.id → r' = r) :
    ∃ x, (d.applyAll ws).sessions.get r.id = some x ∧ x.core = r.core := by
  induction ws generalizing d with
  | nil => simp at hr
  | cons v ws ih =>
    have hv := apply_grows (h v (by simp))
    have hw : ∀ v' ∈ ws, v'.Sound (d.apply v) := fun v' hv' => (h v' (by simp [hv'])).grows hv
    by_cases hvr : v = .insertSession r
    · subst hvr
      have hg : (d.apply (.insertSession r)).sessions.get r.id = some r := by
        simp [apply, Keyed.get_insert hs]
      obtain ⟨x, hx, hc, -⟩ := (applyAll_grows hw).sessions _ _ hg
      exact ⟨x, hx, hc⟩
    · have hr' : .insertSession r ∈ ws := (List.mem_cons.mp hr).resolve_left fun he => hvr he.symm
      refine ih hw (apply_none hs ?_) hr' fun r' hm => hu r' (by simp [hm])
      rintro r' rfl hid
      exact hvr (congrArg Write.insertSession (hu r' (by simp) hid))

theorem applyAll_revokedAt {d : Database} {ws : List Write} (h : ∀ v ∈ ws, v.Sound d) {s : String}
    {r : SessionModel} {t : Time} (hr : (d.applyAll ws).sessions.get s = some r)
    (ht : r.revokedAt = some t) :
    (∃ x, d.sessions.get s = some x ∧ x.revokedAt = some t) ∨
      (∃ l n, .updateSession l n ∈ ws ∧ l.id = s ∧ n.revokedAt = some t) ∨
      ∃ r₀, .insertSession r₀ ∈ ws ∧ r₀.id = s ∧ r₀.revokedAt = some t := by
  induction ws generalizing d with
  | nil => exact .inl ⟨r, hr, ht⟩
  | cons v ws ih =>
    have hv := apply_grows (h v (by simp))
    have hw : ∀ v' ∈ ws, v'.Sound (d.apply v) := fun v' hv' => (h v' (by simp [hv'])).grows hv
    rcases ih hw hr with ⟨x, hx, hxt⟩ | ⟨l, n, hm, hn⟩ | ⟨r₀, hm, hn⟩
    · cases v with
      | insertUser _ => exact .inl ⟨x, hx, hxt⟩
      | updateUser _ _ => exact .inl ⟨x, hx, hxt⟩
      | insertSession r₀ =>
        cases hg : d.sessions.get s with
        | none =>
          obtain ⟨rfl, hk⟩ := Keyed.get_of_get_insert hg hx
          exact .inr (.inr ⟨x, by simp, hk, hxt⟩)
        | some y =>
          have hy : (d.apply (.insertSession r₀)).sessions.get s = some y :=
            Keyed.get_insert_of_get hg r₀
          rw [hy] at hx
          cases hx
          exact .inl ⟨_, rfl, hxt⟩
      | updateSession l n =>
        obtain ⟨-, hc, hr', -⟩ := h (.updateSession l n) (by simp)
        rw [apply, Keyed.get_modify] at hx
        split at hx
        · rename_i hk
          obtain ⟨y, hy, rfl⟩ := Option.map_eq_some_iff.mp hx
          rw [SessionModel.patch_revoke hc hr'] at hxt
          exact .inr (.inl ⟨l, n, by simp, hk.symm, hxt⟩)
        · exact .inl ⟨x, hx, hxt⟩
    · exact .inr (.inl ⟨l, n, by simp [hm], hn⟩)
    · exact .inr (.inr ⟨r₀, by simp [hm], hn⟩)

theorem applyAll_user {d : Database} {ws : List Write} {u : String} {x : UserModel}
    (hx : (d.applyAll ws).users.get u = some x) :
    (∃ y, d.users.get u = some y) ∨ ∃ r, .insertUser r ∈ ws ∧ r.id = u := by
  induction ws generalizing d with
  | nil => exact .inl ⟨x, hx⟩
  | cons v ws ih =>
    rcases ih hx with ⟨y, hy⟩ | ⟨r, hm, hr⟩
    · cases v with
      | insertSession _ => exact .inl ⟨y, hy⟩
      | updateSession _ _ => exact .inl ⟨y, hy⟩
      | insertUser r =>
        cases hg : d.users.get u with
        | none => exact .inr ⟨r, by simp, (Keyed.get_of_get_insert hg hy).2⟩
        | some z => exact .inl ⟨z, rfl⟩
      | updateUser l n =>
        rw [apply, Keyed.get_modify] at hy
        split at hy
        · obtain ⟨z, hz, -⟩ := Option.map_eq_some_iff.mp hy
          exact .inl ⟨z, hz⟩
        · exact .inl ⟨y, hy⟩
    · exact .inr ⟨r, by simp [hm], hr⟩

end Database

end AsyncPulse
