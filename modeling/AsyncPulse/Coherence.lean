import AsyncPulse.Sequence
set_option autoImplicit false

namespace AsyncPulse
open Effect

variable {γ χ : Type} {cfg : Config} {C : MayCache Key Json γ χ}

/-- A projection of the row `x` that the gate may go by at time `t`: it tells the truth about the
revocation, or the session has expired. -/
def Shows (t : Time) (y x : SessionModel) : Prop :=
  y.core = x.core ∧ ((y.revokedAt = none ↔ x.revokedAt = none) ∨ x.expiresAt ≤ t)

structure Coherent (C : MayCache Key Json γ χ) (w : World γ) : Prop where
  session : ∀ s v, C.holds w.cache (.session s) v → ∃ x y : SessionModel,
    w.db.sessions.get s = some x ∧ v = y.projection.toDict ∧ Shows w.clock y x
  user : ∀ u v, C.holds w.cache (.user u) v → ∃ x : UserModel,
    w.db.users.get u = some x ∧ x.deletedAt = none ∧ v = x.toEntity.toDict

theorem Init.coherent {w : World γ} (h : Init C w) : Coherent C w :=
  ⟨fun _ v hv => absurd hv (h.cache _ v), fun _ v hv => absurd hv (h.cache _ v)⟩

theorem Database.applyAll_user_same {d : Database} {ws : List Write} {u : String} {x : UserModel}
    (hws : ∀ l n, .updateUser l n ∈ ws → l.id ≠ u) (hx : d.users.get u = some x) :
    (d.applyAll ws).users.get u = some x := by
  induction ws generalizing d with
  | nil => exact hx
  | cons v ws ih =>
    refine ih (fun l n hm => hws l n (by simp [hm])) ?_
    cases v with
    | insertUser r => exact Keyed.get_insert_of_get hx r
    | updateUser l n =>
      have hne : u ≠ l.id := fun he => hws l n (by simp) he.symm
      rw [Database.apply, Keyed.get_modify, if_neg hne, hx]
    | _ => exact hx

namespace Turn

variable {m : Nat → Option Call} {n : Nat} {k : Call} {r : Except Exc Out} {start : Time}
  {w w' : World γ} (h : Turn cfg C m n k r start w w')
include h

theorem still_shows {s : String} {x y : SessionModel} (hx : w.db.sessions.get s = some x)
    (hy : Shows w.clock y x) (hdel : .cacheDeleted (.session s) ∉ w'.hist n) :
    ∃ x', w'.db.sessions.get s = some x' ∧ Shows w'.clock y x' := by
  obtain ⟨x', hx', hcore, hrev⟩ := h.grows.sessions s x hx
  have hexp : x'.expiresAt = x.expiresAt := SessionModel.core_expiresAt hcore
  refine ⟨x', hx', hy.1.trans hcore.symm, ?_⟩
  cases hy.2 with
  | inr he =>
    rw [hexp]
    exact .inr (Int.le_trans he h.clock_le)
  | inl hiff =>
    cases ht : x'.revokedAt with
    | none =>
      have hlive : x.revokedAt = none := by
        by_contra hn
        exact hrev hn ht
      simp [hiff.mpr hlive]
    | some t =>
      by_cases hlive : x.revokedAt = none
      · obtain ⟨a, b, hw, hc, rfl, -⟩ := h.revoked hx hlive hx' ht
        rw [hexp]
        exact .inr ((h.purged hw hc hx).resolve_left hdel)
      · simp [hlive, hiff]

theorem same_user {u : String} {x : UserModel} (hx : w.db.users.get u = some x)
    (hdel : .cacheDeleted (.user u) ∉ w'.hist n) : w'.db.users.get u = some x := by
  rw [h.alone.played.db]
  refine Database.applyAll_user_same (fun a b hm hid => hdel ?_) hx
  obtain ⟨hw, hc⟩ := mem_ledger_committed hm
  obtain ⟨l, hl, htidy, -⟩ := h.finished
  rw [hl] at hw hc ⊢
  have hdel := htidy.users (by simpa using hc) a b (by simpa using hw)
  rw [hid] at hdel
  exact List.mem_append_left _ hdel

theorem opened {y : SessionModel} (hw : .wrote (.insertSession y) ∈ w'.hist n)
    (hc : .committed ∈ w'.hist n) :
    ∃ x, w'.db.sessions.get y.id = some x ∧ x.core = y.core ∧ x.revokedAt = none ∧
      y.revokedAt = none := by
  obtain ⟨x, hx, hcore⟩ := h.after.provenance.took n _ hw hc
  obtain ⟨_, h₁, h₂, -, -, -, -, hop⟩ := h.after.provenance.wrote hw
  have hnew : ∀ z, w.db.sessions.get y.id ≠ some z := by
    intro z hz
    obtain ⟨j, hj⟩ := h.before.provenance.drawn_of_row hz
    exact h.inserts_new hw hj rfl
  refine ⟨x, hx, hcore, ?_, hop.live⟩
  cases ht : x.revokedAt with
  | none => rfl
  | some t =>
    obtain ⟨i, a, b, ha, hca, hid, -⟩ := h.after.provenance.revoked _ x t hx ht
    by_cases hi : i = n
    · subst hi
      obtain ⟨_, h₃, h₄, -, he', -, -, hrev⟩ := h.after.provenance.wrote ha
      obtain ⟨z, hz, -⟩ := h.alone.saw a (he' ▸ hrev.saw.mono)
      rw [hid] at hz
      exact absurd hz (hnew z)
    · rw [h.others i hi] at ha hca
      obtain ⟨z, hz, -⟩ := h.before.provenance.took i _ ha hca
      rw [hid] at hz
      exact absurd hz (hnew z)

theorem coherent (hex : C.Exact) (hc : Coherent C w) : Coherent C w' := by
  constructor
  · intro s v hv
    obtain ⟨hold, hdel⟩ | ⟨ttl, l₁, l₂, hl, hdel⟩ := h.alone.played.holds _ v hv
    · obtain ⟨x, y, hx, hy, hshow⟩ := hc.session s v hold
      obtain ⟨x', hx', hshow'⟩ := h.still_shows hx hshow (hdel hex)
      exact ⟨x', y, hx', hy, hshow'⟩
    · have hlaw := h.lawful
      rw [hl] at hlaw
      obtain ⟨y, rfl, hy, ⟨hw, hcom⟩ | ⟨hwarm, ⟨rows, hr, hyr⟩, -⟩⟩ := hlaw.of_split
      · obtain ⟨x, hx, hcore, hxl, hyl⟩ := h.opened (y := y) (by rw [hl]; simp [hw])
          (by rw [hl]; simp [hcom])
        exact ⟨x, y, hx, hy, hcore.symm, .inl (by simp [hxl, hyl])⟩
      · -- The gate has stored what it had just read.
        obtain ⟨rank, rfl⟩ := h.read hl hr hwarm.unwritten
        have hx : w.db.sessions.get y.id = some y :=
          Keyed.get_of_mem (SessionQuery.mem_eval.mp hyr).1
        obtain ⟨x', hx', hshow⟩ := h.still_shows hx ⟨rfl, .inl Iff.rfl⟩ (by
          rw [hl]
          intro hm
          obtain hm | hm := List.mem_append.mp hm
          · exact hwarm.undeleted _ hm
          · exact hdel hex (by simpa using hm))
        exact ⟨x', y, hx', hy, hshow⟩
  · intro u v hv
    obtain ⟨hold, hdel⟩ | ⟨ttl, l₁, l₂, hl, hdel⟩ := h.alone.played.holds _ v hv
    · obtain ⟨x, hx, hd, hv⟩ := hc.user u v hold
      exact ⟨x, h.same_user hx (hdel hex), hd, hv⟩
    · have hlaw := h.lawful
      rw [hl] at hlaw
      obtain ⟨x, rfl, hv, hd, hwarm, rows, hr, hxr⟩ := hlaw.of_split
      obtain ⟨rank, rfl⟩ := h.readUsers hl hr hwarm.unwritten
      refine ⟨x, h.same_user (UserQuery.mem_byId.mp hxr).1 ?_, hd, hv⟩
      rw [hl]
      intro hm
      obtain hm | hm := List.mem_append.mp hm
      · exact hwarm.undeleted _ hm
      · exact hdel hex (by simpa using hm)

end Turn

/-- Whom the gate would let in by the committed tables alone, if it decoded the token at `t` and
looked at the session at `t'`. -/
def tableGate (d : Database) (c : Claims) (t t' : Time) : Option UserModel :=
  match d.sessions.get (c.sid.getD ""), d.users.get c.sub with
  | some row, some x =>
    if wholeSeconds t ≤ c.exp ∧ row.userId = c.sub ∧ row.revokedAt = none ∧ t' ≤ row.expiresAt ∧
        x.deletedAt = none ∧ x.status = .active then some x
    else none
  | _, _ => none

theorem tableGate_eq_some {d : Database} {c : Claims} {s : String} {t t' : Time} {x : UserModel}
    (hs : c.sid = some s) : tableGate d c t t' = some x ↔
      ∃ row, d.sessions.get s = some row ∧ d.users.get c.sub = some x ∧ wholeSeconds t ≤ c.exp ∧
        row.userId = c.sub ∧ row.revokedAt = none ∧ t' ≤ row.expiresAt ∧ x.deletedAt = none ∧
        x.status = .active := by
  rw [tableGate, hs, Option.getD_some]
  cases d.sessions.get s with
  | none => simp
  | some row =>
    cases d.users.get c.sub with
    | none => simp
    | some y =>
      simp only [Option.ite_none_right_eq_some, Option.some.injEq, exists_eq_left']
      constructor
      · intro hx
        obtain ⟨hx, rfl⟩ := hx
        exact ⟨rfl, hx⟩
      · intro hx
        obtain ⟨rfl, hx⟩ := hx
        exact ⟨hx, rfl⟩

theorem User.blank_of_toDict {x y : User} (h : x.toDict = y.toDict) : x.blank = y.blank := by
  have hx := User.fromDict_toDict x
  rw [h, User.fromDict_toDict] at hx
  exact (Except.ok.inj hx).symm

theorem SessionLookup.untimed {s : String} {v : Option SessionValidation} {l : List Act}
    (hl : SessionLookup s v l) (t : Time) : .clock t ∉ l := by
  cases hl <;> simp

theorem UserLookup.untimed {u : String} {x : Option User} {l : List Act}
    (hl : UserLookup u x l) (t : Time) : .clock t ∉ l := by
  cases hl <;> simp

theorem SessionLookup.set {s : String} {v : Option SessionValidation} {l : List Act}
    (hl : SessionLookup s v l) (u : String) (j : Json) (ttl : Option Int) :
    .cacheSet (.user u) j ttl ∉ l := by
  cases hl <;> simp

namespace Turn

variable {m : Nat → Option Call} {n : Nat} {k : Call} {r : Except Exc Out} {start : Time}
  {w w' : World γ} (h : Turn cfg C m n k r start w w')
include h

theorem lookup_session (hc : Coherent C w) {t : Time} {s : String} {v : Option SessionValidation}
    {l l' : List Act} (hl : SessionLookup s v l) (hh : w'.hist n = .clock t :: l ++ l') :
    (v = none → w.db.sessions.get s = none) ∧ ∀ p, v = some p → ∃ x y : SessionModel,
      w.db.sessions.get s = some x ∧ p = y.projection ∧ Shows w.clock y x := by
  have hun : ∀ a, .wrote a ∉ Act.clock t :: l := by
    intro a ha
    obtain ha | ha := List.mem_cons.mp ha
    · cases ha
    · exact hl.reading.unwritten a ha
  cases hl with
  | hit p hid =>
    refine ⟨fun hn => (Option.some_ne_none _ hn).elim, fun p' hp => ?_⟩
    cases hp
    obtain hv | ⟨ttl, hset⟩ := h.alone.played.got [.clock t] l' _ _ hh
    · obtain ⟨x, y, hx, hy, hshow⟩ := hc.session s _ hv
      exact ⟨x, y, hx, SessionValidation.toDict_injective hy, hshow⟩
    · simp at hset
  | absent =>
    refine ⟨fun _ => ?_, fun p hp => (Option.some_ne_none _ hp.symm).elim⟩
    have hread : ∃ rank, [] = (SessionQuery.byId s).eval rank w.db.sessions :=
      h.read hh (by simp) hun
    obtain ⟨rank, hrows⟩ := hread
    cases hx : w.db.sessions.get s with
    | none => rfl
    | some x =>
      rw [SessionQuery.eval_byId hx] at hrows
      cases hrows
  | warm row hid =>
    refine ⟨fun hn => (Option.some_ne_none _ hn).elim, fun p hp => ?_⟩
    cases hp
    have hread : ∃ rank, [row] = (SessionQuery.byId s).eval rank w.db.sessions :=
      h.read hh (by simp) hun
    obtain ⟨rank, hrows⟩ := hread
    have hrow : w.db.sessions.get s = some row :=
      SessionQuery.mem_byId.mp (hrows ▸ List.mem_singleton_self row)
    exact ⟨row, row, hrow, rfl, rfl, .inl Iff.rfl⟩

theorem lookup_user (hc : Coherent C w) {u : String} {o : Option User} {l l₀ l' : List Act}
    (hl : UserLookup u o l) (hh : w'.hist n = l₀ ++ l ++ l') (hr : Reading l₀)
    (hset : ∀ v ttl, .cacheSet (.user u) v ttl ∉ l₀) :
    (o = none → ∀ x, w.db.users.get u = some x → x.deletedAt ≠ none) ∧
      ∀ z, o = some z → ∃ x : UserModel, w.db.users.get u = some x ∧ x.deletedAt = none ∧
        z.blank = x.toEntity.blank := by
  have hun : ∀ a, .wrote a ∉ l₀ ++ l := (reading_append.mpr ⟨hr, hl.reading⟩).unwritten
  cases hl with
  | hit z hid =>
    refine ⟨fun hn => (Option.some_ne_none _ hn).elim, fun z' hz => ?_⟩
    cases hz
    obtain hv | ⟨ttl, hm⟩ := h.alone.played.got l₀ l' (.user u) z.toDict (by rw [hh]; simp)
    · obtain ⟨x, hx, hd, hv⟩ := hc.user u _ hv
      exact ⟨x, hx, hd, User.blank_of_toDict hv⟩
    · exact absurd hm (hset _ ttl)
  | absent =>
    refine ⟨fun _ x hx hd => ?_, fun p hp => (Option.some_ne_none _ hp.symm).elim⟩
    have hread : ∃ rank, [] = (UserQuery.byId u).eval rank w.db.users :=
      h.readUsers hh (by simp) hun
    obtain ⟨rank, hrows⟩ := hread
    have hm : x ∈ (UserQuery.byId u).eval rank w.db.users := UserQuery.mem_byId.mpr ⟨hx, hd⟩
    rw [← hrows] at hm
    cases hm
  | warm x hid hd =>
    refine ⟨fun hn => (Option.some_ne_none _ hn).elim, fun z hz => ?_⟩
    cases hz
    have hread : ∃ rank, [x] = (UserQuery.byId u).eval rank w.db.users :=
      h.readUsers hh (by simp) hun
    obtain ⟨rank, hrows⟩ := hread
    exact ⟨x, (UserQuery.mem_byId.mp (hrows ▸ List.mem_singleton_self x)).1, hd, rfl⟩

end Turn

theorem Provenance.sub_ne {m : Nat → Option Call} {w : World γ} (h : Provenance cfg C m w)
    {c : Claims} (hc : c ∈ w.minted) : c.sub ≠ "" := by
  obtain ⟨j, hj⟩ := (h.minted c).mp hc
  obtain ⟨k, -, hl⟩ := h.lawful_of_mem hj
  obtain ⟨-, -, -, hsub, -⟩ := hl.of_mem hj
  exact hsub

inductive Verdict : Option UserModel → Except Exc User → Prop where
  | passed (x : UserModel) (z : User) : z.blank = x.toEntity.blank → Verdict (some x) (.ok z)
  | rejected (m : String) : Verdict none (.error (.invalidToken m))

theorem tableGate_eq_none {d : Database} {c : Claims} {s : String} {t t' : Time}
    (hs : c.sid = some s)
    (h : ∀ row x, d.sessions.get s = some row → d.users.get c.sub = some x →
      wholeSeconds t ≤ c.exp → row.userId = c.sub → row.revokedAt = none → t' ≤ row.expiresAt →
      x.deletedAt = none → x.status = .active → False) : tableGate d c t t' = none := by
  rw [Option.eq_none_iff_forall_ne_some]
  intro x hx
  obtain ⟨row, h₁, h₂, h₃, h₄, h₅, h₆, h₇, h₈⟩ := (tableGate_eq_some hs).mp hx
  exact h row x h₁ h₂ h₃ h₄ h₅ h₆ h₇ h₈

namespace Turn

variable {m : Nat → Option Call} {n : Nat} {k : Call} {r : Except Exc Out} {start : Time}
  {w w' : World γ} (h : Turn cfg C m n k r start w w')
include h

theorem lookup_user_after (hc : Coherent C w) {s u : String} {v : Option SessionValidation}
    {o : Option User} {t t' : Time} {ls lu l' : List Act} (hl : SessionLookup s v ls)
    (hu : UserLookup u o lu) (hh : w'.hist n = (.clock t :: ls ++ .clock t' :: lu) ++ l') :
    (o = none → ∀ x, w.db.users.get u = some x → x.deletedAt ≠ none) ∧
      ∀ z, o = some z → ∃ x : UserModel, w.db.users.get u = some x ∧ x.deletedAt = none ∧
        z.blank = x.toEntity.blank := by
  have hh' : w'.hist n = (.clock t :: ls ++ [Act.clock t']) ++ lu ++ l' := by
    rw [hh]
    simp
  exact h.lookup_user hc hu hh' (by simp [hl.reading, Act.reads]) (by simp [hl.set])

/-- Whatever the gate has found in the cache, the tables agree. -/
theorem gateRun_verdict (hc : Coherent C w) (hlate : w.clock < start) {c : Claims} {s : String}
    {r₀ : Except Exc User} {l l' : List Act} (hs : c.sid = some s) (hr : GateRun c s r₀ l)
    (hh : w'.hist n = l ++ l') :
    ∃ t t' l₁, l = .clock t :: l₁ ∧ .clock t' ∈ l ∧ (∀ a, .clock a ∈ l → a = t ∨ a = t') ∧
      Verdict (tableGate w.db c t t') r₀ := by
  have hstart : ∀ t, .clock t ∈ l → w.clock < t := fun t ht =>
    Int.lt_of_lt_of_le hlate
      (h.alone.played.clock t (by rw [hh]; exact List.mem_append_left _ ht)).1
  cases hr with
  | expired t hexp =>
    refine ⟨t, t, [], rfl, by simp, by simp, ?_⟩
    rw [tableGate_eq_none hs fun row x _ _ ht _ _ _ _ _ => absurd hexp (Int.not_lt.mpr ht)]
    exact .rejected _
  | unknown t l hexp hl =>
    have hnone := (h.lookup_session hc hl hh).1 rfl
    refine ⟨t, t, l, rfl, by simp, by simp [hl.untimed], ?_⟩
    rw [tableGate_eq_none hs fun row x hrow => by simp [hnone] at hrow]
    exact .rejected _
  | inactive t t' l v hexp hl hv =>
    obtain ⟨x, y, hx, rfl, hcore, hshow⟩ :=
      (h.lookup_session hc hl (by rw [hh, List.append_assoc])).2 v rfl
    have ht' := hstart t' (by simp)
    refine ⟨t, t', l ++ [Act.clock t'], rfl, by simp, by simp [hl.untimed], ?_⟩
    rw [tableGate_eq_none hs]
    · exact .rejected _
    intro row z hrow _ _ _ hlive hle _ _
    rw [hx] at hrow
    cases hrow
    have hexpires : y.projection.expiresAt = x.expiresAt := SessionModel.core_expiresAt hcore
    cases hv with
    | inl hlt =>
      rw [hexpires] at hlt
      exact absurd hlt (Int.not_lt.mpr hle)
    | inr hrev =>
      cases hshow with
      | inl hiff => exact hrev (hiff.mpr hlive)
      | inr hgone => exact absurd (Int.lt_of_lt_of_le ht' hle) (Int.not_lt.mpr hgone)
  | foreign t t' l v hexp hl hle hlive hne =>
    obtain ⟨x, y, hx, rfl, hcore, -⟩ :=
      (h.lookup_session hc hl (by rw [hh, List.append_assoc])).2 v rfl
    refine ⟨t, t', l ++ [Act.clock t'], rfl, by simp, by simp [hl.untimed], ?_⟩
    rw [tableGate_eq_none hs]
    · exact .rejected _
    intro row z hrow _ _ hown _ _ _ _
    rw [hx] at hrow
    cases hrow
    exact hne ((SessionModel.core_userId hcore).trans hown)
  | noUser t t' ls lu v hexp hl _ _ _ hu =>
    have hno := (h.lookup_user_after hc hl hu hh).1 rfl
    refine ⟨t, t', ls ++ .clock t' :: lu, rfl, by simp, by simp [hl.untimed, hu.untimed], ?_⟩
    rw [tableGate_eq_none hs]
    · exact .rejected _
    intro row z _ hz _ _ _ _ hd _
    exact hno z hz hd
  | barred t t' ls lu v x msg hexp hl _ _ _ hu hst =>
    obtain ⟨y, hy, hd, hblank⟩ := (h.lookup_user_after hc hl hu hh).2 x rfl
    refine ⟨t, t', ls ++ .clock t' :: lu, rfl, by simp, by simp [hl.untimed, hu.untimed], ?_⟩
    rw [tableGate_eq_none hs]
    · exact .rejected _
    intro row z _ hz _ _ _ _ _ hact
    rw [hy] at hz
    cases hz
    exact hst ((congrArg User.status hblank).trans hact)
  | passed t t' ls lu v x hexp hl hle hlive hown hu hst =>
    obtain ⟨z, y, hz, rfl, hcore, hshow⟩ :=
      (h.lookup_session hc hl (by rw [hh, List.append_assoc])).2 v rfl
    obtain ⟨q, hq, hd, hblank⟩ := (h.lookup_user_after hc hl hu hh).2 x rfl
    have ht' := hstart t' (by simp)
    have hexpires : y.projection.expiresAt = z.expiresAt := SessionModel.core_expiresAt hcore
    rw [hexpires] at hle
    have hzlive : z.revokedAt = none := by
      cases hshow with
      | inl hiff => exact hiff.mp hlive
      | inr hgone => exact absurd (Int.lt_of_lt_of_le ht' hle) (Int.not_lt.mpr hgone)
    refine ⟨t, t', ls ++ .clock t' :: lu, rfl, by simp, by simp [hl.untimed, hu.untimed], ?_⟩
    rw [(tableGate_eq_some hs).mpr ⟨z, hz, hq, hexp, (SessionModel.core_userId hcore).symm.trans hown,
      hzlive, hle, hd, (congrArg User.status hblank).symm.trans hst⟩]
    exact .passed q x hblank

theorem gate (hc : Coherent C w) (hlate : w.clock < start) {token : Token}
    (hk : k = .getCurrentUser token) {c : Claims} (hv : cfg.jose.verify token = some c)
    (hty : c.type = .access) :
    ∃ r₀ t t' l, r = r₀.map Out.user ∧ w'.hist n = .clock t :: l ∧ .clock t' ∈ w'.hist n ∧
      (∀ a, .clock a ∈ w'.hist n → a = t ∨ a = t') ∧ Verdict (tableGate w.db c t t') r₀ := by
  subst hk
  have hprov := h.after.provenance
  have hmint : c ∈ w'.minted :=
    hprov.presented n _ c (Function.update_self _ _ _) ⟨token, by simp [Call.tokens], hv⟩
  have hsub := hprov.sub_ne hmint
  obtain ⟨s, hne, hnames⟩ := hprov.names hmint
  have hsid : c.sid = some s := hnames.sid hty
  obtain ⟨l, hh, -, -, r₀, hr, hdone⟩ := h.finished
  have hmem : ∀ a, .clock a ∈ w'.hist n ↔ .clock a ∈ l := by
    intro a
    rw [hh]
    simp
  cases hdone with
  | refused msg _ _ hno => exact (hno c s hv hty hsid hne hsub).elim
  | ran c' s' _ _ hv' _ hsid' _ _ hrun =>
    rw [hv] at hv'
    cases hv'
    rw [hsid] at hsid'
    cases hsid'
    obtain ⟨t, t', l₁, rfl, ht', hall, hverdict⟩ := h.gateRun_verdict hc hlate hsid hrun hh
    exact ⟨r₀, t, t', l₁ ++ [Act.closed], hr, hh, (hmem t').mpr ht',
      fun a ha => hall a ((hmem a).mp ha), hverdict⟩

end Turn

theorem Sequential.coherent {log : List (Call × Except Exc Out)} {w : World γ}
    {gap : World γ → World γ → Prop} (hex : C.Exact) (h : Sequential cfg C gap log w) :
    Between cfg C (script log) log.length w ∧ Coherent C w :=
  h.invariant (fun _ hw => hw.coherent) fun _ _ _ _ _ _ _ _ ht hc => ht.coherent hex hc

/-- The gate that reads through the cache answers as the committed tables alone would. -/
theorem gate_refines_tables {log : List (Call × Except Exc Out)} {r : Except Exc Out}
    {token : Token} {c : Claims} {w w' : World γ} (hex : C.Exact)
    (hrun : Sequential cfg C Later log w)
    (hcall : (app cfg C).Completed Later log.length (.getCurrentUser token) r w w')
    (hv : cfg.jose.verify token = some c) (hty : c.type = .access) :
    ∃ t t' l, w'.hist log.length = .clock t :: l ∧ .clock t' ∈ w'.hist log.length ∧
      (∀ a, .clock a ∈ w'.hist log.length → a = t ∨ a = t') ∧ w.clock < t ∧ t ≤ t' ∧
      ((∃ z, r = .ok (.user z)) ↔ (tableGate w.db c t t').isSome = true) ∧
      ∀ z, r = .ok (.user z) → ∃ x, tableGate w.db c t t' = some x ∧ z.id = x.id ∧
        z.email = x.email ∧ z.status = x.status ∧ z.role = x.role := by
  obtain ⟨hb, hc⟩ := hrun.coherent hex
  obtain ⟨start, hlate, ht⟩ := hb.completed hcall
  obtain ⟨r₀, t, t', l, rfl, hh, ht', hall, hverdict⟩ := ht.gate hc hlate rfl hv hty
  have hplay := ht.alone.played
  have hle : t ≤ t' := by
    rw [hh] at ht'
    obtain he | hm := List.mem_cons.mp ht'
    · cases he
      exact Int.le_refl t
    · obtain ⟨l₁, l₂, rfl⟩ := List.append_of_mem hm
      exact hplay.ordered (.clock t :: l₁) l₂ t' (by rw [hh]; simp) t (by simp)
  have hstart : w.clock < t :=
    Int.lt_of_lt_of_le hlate (hplay.clock t (by rw [hh]; simp)).1
  refine ⟨t, t', l, hh, ht', hall, hstart, hle, ?_⟩
  generalize tableGate w.db c t t' = o at hverdict
  cases hverdict with
  | rejected msg =>
    constructor
    · constructor
      · intro hz
        obtain ⟨z, hz⟩ := hz
        cases hz
      · intro hn
        cases hn
    · intro z hz
      cases hz
  | passed x z hblank =>
    constructor
    · exact ⟨fun _ => rfl, fun _ => ⟨z, rfl⟩⟩
    · intro z' hz
      cases hz
      exact ⟨x, rfl, congrArg User.id hblank, congrArg User.email hblank,
        congrArg User.status hblank, congrArg User.role hblank⟩

def aliceSignsIn : List (Choice Unit × Call × List (Choice Unit)) :=
  [request 1 "s1" (.authenticate "alice@example.org" "secret" none none)]

def aliceClaims : Claims :=
  { sub := "alice", exp := 901, type := .access, sid := some "s1", jti := none }

theorem gate_refines_tables_alice : ∃ (log : List (Call × Except Exc Out)) (r : Except Exc Out)
    (w w' : World (TimedStore Key Json)), rehearsal aliceSignsIn = some (log, w) ∧ r.isOk = true ∧
    ∃ t t' l, w'.hist log.length = .clock t :: l ∧ .clock t' ∈ w'.hist log.length ∧
      (∀ a, .clock a ∈ w'.hist log.length → a = t ∨ a = t') ∧ w.clock < t ∧ t ≤ t' ∧
      ((∃ z, r = .ok (.user z)) ↔ (tableGate w.db aliceClaims t t').isSome = true) ∧
      ∀ z, r = .ok (.user z) → ∃ x, tableGate w.db aliceClaims t t' = some x ∧ z.id = x.id ∧
        z.email = x.email ∧ z.status = x.status ∧ z.role = x.role := by
  obtain ⟨log, w, r, w', h₀, hrun, hcall, hok⟩ := rehearsed aliceSignsIn 10 ""
    (.getCurrentUser (.signed aliceClaims)) (fun r _ => r.isOk) (by decide +kernel)
  exact ⟨log, r, w, w', h₀, hok,
    gate_refines_tables TimedStore.reliable_exact hrun (hcall.mono fun _ _ hg => hg.1) rfl rfl⟩

end AsyncPulse
