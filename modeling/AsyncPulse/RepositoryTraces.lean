import AsyncPulse.CallTrace
set_option autoImplicit false

namespace AsyncPulse
open Effect

/-- However the effects of `p` turn out, the record of the call stays lawful and `Q` holds at
the end of `p`. -/
abbrev Traced (cfg : Config) (k : Call) {α : Type} (p : M α)
    (Q : Except Exc α → List Act → Prop) (h : List Act) : Prop :=
  (records cfg).wp (Lawful cfg k) p Q h

def Act.plain : Act → Bool
  | .committed | .closed | .wrote (.insertSession _) | .wrote (.insertUser _)
  | .wrote (.updateUser _ _) | .readSessions (.unrevokedOf _) _ | .signed _ => false
  | _ => true

def Clear (h : List Act) : Prop := ∀ a ∈ h, a.plain = true

@[simp] theorem clear_nil : Clear [] := by simp [Clear]

@[simp] theorem clear_append {h h' : List Act} : Clear (h ++ h') ↔ Clear h ∧ Clear h' := by
  simp only [Clear, List.mem_append, or_imp, forall_and]

@[simp] theorem clear_cons {a : Act} {h : List Act} :
    Clear (a :: h) ↔ a.plain = true ∧ Clear h := by simp [Clear]

section
variable {h : List Act} (hc : Clear h)
include hc

theorem Clear.opened : Open h :=
  ⟨fun hm => by simpa [Act.plain] using hc _ hm, fun hm => by simpa [Act.plain] using hc _ hm⟩

theorem Clear.not_inserted (r : SessionModel) : .wrote (.insertSession r) ∉ h :=
  fun hm => by simpa [Act.plain] using hc _ hm

theorem Clear.not_mass (u : String) (rows : List SessionModel) :
    .readSessions (.unrevokedOf u) rows ∉ h :=
  fun hm => by simpa [Act.plain] using hc _ hm

theorem Clear.not_updated (l n : UserModel) : .wrote (.updateUser l n) ∉ h :=
  fun hm => by simpa [Act.plain] using hc _ hm

theorem Clear.not_signed (c : Claims) : .signed c ∉ h :=
  fun hm => by simpa [Act.plain] using hc _ hm

end

def Act.reads : Act → Bool
  | .committed | .closed | .wrote _ | .readSessions (.unrevokedOf _) _ => false
  | _ => true

def Reading (h : List Act) : Prop := ∀ a ∈ h, a.reads = true

@[simp] theorem reading_nil : Reading [] := by simp [Reading]

@[simp] theorem reading_append {h h' : List Act} :
    Reading (h ++ h') ↔ Reading h ∧ Reading h' := by
  simp only [Reading, List.mem_append, or_imp, forall_and]

@[simp] theorem reading_cons {a : Act} {h : List Act} :
    Reading (a :: h) ↔ a.reads = true ∧ Reading h := by simp [Reading]

section
variable {h : List Act} (hr : Reading h)
include hr

theorem Reading.opened : Open h :=
  ⟨fun hm => by simpa [Act.reads] using hr _ hm, fun hm => by simpa [Act.reads] using hr _ hm⟩

theorem Reading.unwritten (v : Write) : .wrote v ∉ h :=
  fun hm => by simpa [Act.reads] using hr _ hm

theorem Reading.not_mass (u : String) (rows : List SessionModel) :
    .readSessions (.unrevokedOf u) rows ∉ h :=
  fun hm => by simpa [Act.reads] using hr _ hm

end

theorem open_snoc {h : List Act} {a : Act} :
    Open (h ++ [a]) ↔ Open h ∧ a ≠ .committed ∧ a ≠ .closed := by
  simp only [Open, List.mem_append, List.mem_singleton, not_or, ne_eq]
  constructor
  · rintro ⟨⟨h1, h2⟩, h3, h4⟩
    exact ⟨⟨h1, h3⟩, fun e => h2 e.symm, fun e => h4 e.symm⟩
  · rintro ⟨⟨h1, h3⟩, h2, h4⟩
    exact ⟨⟨h1, fun e => h2 e.symm⟩, h3, fun e => h4 e.symm⟩

section Effects

variable {cfg : Config} {k : Call} {h : List Act} {α β : Type} {Q : Except Exc α → List Act → Prop}

theorem traced_perform (e : Eff β) (f : β → M α) (hl : Lawful cfg k h)
    (he : ∀ r, Answer cfg h e r → (e.act r).Lawful cfg k h)
    (hok : ∀ b, Answer cfg h e (.ok b) → Lawful cfg k (h ++ [e.act (.ok b)]) →
      Traced cfg k (f b) Q (h ++ [e.act (.ok b)]))
    (herr : ∀ x, Answer cfg h e (.error x) → Lawful cfg k (h ++ [e.act (.error x)]) →
      Q (.error x) (h ++ [e.act (.error x)])) :
    Traced cfg k (Prog.perform e >>= f) Q h := by
  intro r hv
  have hl' := hl.snoc (he r hv)
  refine ⟨hl', ?_⟩
  cases r with
  | ok b => exact hok b hv hl'
  | error x => exact herr x hv hl'

theorem traced_reply {e : Eff β} {f : β → M α} {P : β → Prop} (hl : Lawful cfg k h)
    (hans : ∀ r, Answer cfg h e r → ∃ b, r = .ok b ∧ P b)
    (he : ∀ b, P b → (e.act (.ok b)).Lawful cfg k h)
    (hok : ∀ b, P b → Lawful cfg k (h ++ [e.act (.ok b)]) →
      Traced cfg k (f b) Q (h ++ [e.act (.ok b)])) :
    Traced cfg k (Prog.perform e >>= f) Q h := by
  intro r hv
  obtain ⟨b, rfl, hb⟩ := hans r hv
  have hl' := hl.snoc (he b hb)
  exact ⟨hl', hok b hb hl'⟩

theorem traced_now {f : Time → M α} (hl : Lawful cfg k h)
    (hf : ∀ t, (∀ t', .clock t' ∈ h → t' ≤ t) → Lawful cfg k (h ++ [Act.clock t]) →
      Traced cfg k (f t) Q (h ++ [Act.clock t])) : Traced cfg k (now >>= f) Q h := by
  refine traced_reply hl (fun _ hr => hr) ?_ hf
  exact fun _ _ => trivial

theorem traced_uuid4 {f : String → M α} (hl : Lawful cfg k h)
    (hf : ∀ u, u ≠ "" → (∀ x, Saw h x → x.id ≠ u) → Lawful cfg k (h ++ [Act.drew u]) →
      Traced cfg k (f u) Q (h ++ [Act.drew u])) : Traced cfg k (uuid4 >>= f) Q h := by
  refine traced_reply hl (fun _ hr => hr) ?_ ?_
  · exact fun _ _ => trivial
  · intro u hu hl'
    exact hf u hu.1 hu.2.2 hl'

theorem traced_selectSessions {q : SessionQuery} {f : List SessionModel → M α}
    (hl : Lawful cfg k h) (ho : Open h) (hi : ∀ r, .wrote (.insertSession r) ∉ h)
    (ha : ∀ u t, q = .activeOf u t →
      .clock t ∈ h ∧ ∀ u' rows, .readSessions (.unrevokedOf u') rows ∉ h)
    (hu : ∀ u, q = .unrevokedOf u → k.RevokesAll cfg u ∧ ∀ l n, .wrote (.updateSession l n) ∉ h)
    (hf : ∀ rows, SessionAnswer h q rows → Lawful cfg k (h ++ [Act.readSessions q rows]) →
      Traced cfg k (f rows) Q (h ++ [Act.readSessions q rows])) :
    Traced cfg k (Prog.perform (.selectSessions q) >>= f) Q h := by
  refine traced_reply hl (fun _ hr => hr) ?_ hf
  exact fun _ _ => ⟨ho, hi, ha, hu⟩

theorem traced_selectUsers {q : UserQuery} {f : List UserModel → M α}
    (hl : Lawful cfg k h) (ho : Open h) (hi : ∀ r, .wrote (.insertUser r) ∉ h)
    (hf : ∀ rows, UserAnswer q rows → Lawful cfg k (h ++ [Act.readUsers q rows]) →
      Traced cfg k (f rows) Q (h ++ [Act.readUsers q rows])) :
    Traced cfg k (Prog.perform (.selectUsers q) >>= f) Q h := by
  refine traced_reply hl (fun _ hr => hr) ?_ hf
  exact fun _ _ => ⟨ho, hi⟩

theorem traced_write {v : Write} {f : Unit → M α} (hl : Lawful cfg k h)
    (hv : (Act.wrote v).Lawful cfg k h)
    (hok : Lawful cfg k (h ++ [Act.wrote v]) → Traced cfg k (f ()) Q (h ++ [Act.wrote v]))
    (herr : ∀ x, Lawful cfg k (h ++ [Act.refused v]) → x ≠ tokenReuse →
      Q (.error x) (h ++ [Act.refused v])) :
    Traced cfg k (Prog.perform (.write v) >>= f) Q h := by
  refine traced_perform (.write v) f hl ?_ ?_ ?_
  · rintro r (rfl | ⟨e, -, rfl⟩)
    · exact hv
    · trivial
  · exact fun _ _ => hok
  · rintro x (hx | ⟨e, he, hx⟩) hl'
    · cases hx
    · cases hx
      refine herr x hl' ?_
      rintro rfl
      simp [tokenReuse, Exc.invalidToken] at he

theorem traced_commit {f : Unit → M α} (hl : Lawful cfg k h) (hc : Act.committed.Lawful cfg k h)
    (hf : Lawful cfg k (h ++ [Act.committed]) → Traced cfg k (f ()) Q (h ++ [Act.committed])) :
    Traced cfg k (commit >>= f) Q h := by
  refine traced_reply (P := fun _ => True) hl ?_ ?_ ?_
  · exact fun _ hr => ⟨(), hr, trivial⟩
  · exact fun _ _ => hc
  · exact fun _ _ => hf

theorem traced_getJson {key : Key} {f : Option Json → M α} (hl : Lawful cfg k h)
    (hf : ∀ v, (∀ x, v = some x → key.Fits cfg.jose x) → Lawful cfg k (h ++ [Act.cacheGot key v]) →
      Traced cfg k (f v) Q (h ++ [Act.cacheGot key v])) : Traced cfg k (getJson key >>= f) Q h := by
  refine traced_reply hl (fun _ hr => hr) ?_ hf
  exact fun _ _ => trivial

theorem traced_setJson {key : Key} {v : Json} {ttl : Int} {f : Unit → M α} (hl : Lawful cfg k h)
    (hv : Caches cfg k h key v)
    (hf : Lawful cfg k (h ++ [Act.cacheSet key v (some ttl)]) →
      Traced cfg k (f ()) Q (h ++ [Act.cacheSet key v (some ttl)])) :
    Traced cfg k (setJson key v ttl >>= f) Q h := by
  refine traced_reply (P := fun _ => True) hl ?_ ?_ ?_
  · exact fun _ hr => ⟨(), hr, trivial⟩
  · exact fun _ _ => hv
  · exact fun _ _ => hf

theorem traced_cacheDelete {key : Key} {f : Unit → M α} (hl : Lawful cfg k h)
    (hf : Lawful cfg k (h ++ [Act.cacheDeleted key]) →
      Traced cfg k (f ()) Q (h ++ [Act.cacheDeleted key])) :
    Traced cfg k (cacheDelete key >>= f) Q h := by
  refine traced_reply (P := fun _ => True) hl ?_ ?_ ?_
  · exact fun _ hr => ⟨(), hr, trivial⟩
  · exact fun _ _ => trivial
  · exact fun _ _ => hf

theorem traced_encode {c : Claims} {f : Token → M α} (hl : Lawful cfg k h)
    (hc : (Act.signed c).Lawful cfg k h)
    (hf : Lawful cfg k (h ++ [Act.signed c]) →
      Traced cfg k (f (cfg.jose.encode c)) Q (h ++ [Act.signed c])) :
    Traced cfg k (Prog.perform (.encode c) >>= f) Q h := by
  refine traced_reply (P := fun t => t = cfg.jose.encode c) hl ?_ ?_ ?_
  · exact fun r hr => ⟨_, hr, rfl⟩
  · exact fun _ _ => hc
  · intro t ht hl'
    rw [ht]
    exact hf hl'

theorem traced_hashPassword {pw : String} {f : String → M α} (hl : Lawful cfg k h)
    (hok : ∀ s, Lawful cfg k (h ++ [Act.hashed]) → Traced cfg k (f s) Q (h ++ [Act.hashed]))
    (herr : ∀ x, Lawful cfg k (h ++ [Act.hashed]) → Q (.error x) (h ++ [Act.hashed])) :
    Traced cfg k (Prog.perform (.hashpw pw) >>= f) Q h := by
  refine traced_perform (.hashpw pw) f hl ?_ ?_ ?_
  · intro r _
    cases r <;> trivial
  · exact fun s _ => hok s
  · exact fun x _ => herr x

theorem traced_suppressDelete {key : Key} {f : Unit → M α} (hl : Lawful cfg k h)
    (hf : Lawful cfg k (h ++ [Act.cacheDeleted key]) →
      Traced cfg k (f ()) Q (h ++ [Act.cacheDeleted key])) :
    Traced cfg k (Prog.suppress (cacheDelete key) >>= f) Q h := by
  rintro r rfl
  have hl' : Lawful cfg k (h ++ [Act.cacheDeleted key]) := hl.snoc trivial
  exact ⟨hl', hf hl'⟩

theorem traced_suppressSet {key : Key} {v : Json} {ttl : Int} {f : Unit → M α}
    (hl : Lawful cfg k h) (hv : Caches cfg k h key v)
    (hf : Lawful cfg k (h ++ [Act.cacheSet key v (some ttl)]) →
      Traced cfg k (f ()) Q (h ++ [Act.cacheSet key v (some ttl)])) :
    Traced cfg k (Prog.suppress (setJson key v ttl) >>= f) Q h := by
  rintro r rfl
  have hl' : Lawful cfg k (h ++ [Act.cacheSet key v (some ttl)]) := hl.snoc hv
  exact ⟨hl', hf hl'⟩

end Effects

section Mono

variable {cfg : Config} {k : Call} {h : List Act}

theorem Call.Authorised.mono {v : Write} (ha : k.Authorised cfg h v) (l : List Act) :
    k.Authorised cfg (h ++ l) v := by
  intro hk
  obtain ⟨c, hc, ho | hs | hl⟩ := ha hk
  · exact ⟨c, hc, .inl ho⟩
  · exact ⟨c, hc, .inr (.inl hs.mono)⟩
  · exact ⟨c, hc, .inr (.inr hl)⟩

theorem Call.Ends.mono {x : SessionModel} (he : k.Ends cfg h x) (l : List Act) :
    k.Ends cfg (h ++ l) x := by
  cases he with
  | rotation u hu => exact .rotation u hu
  | eviction e p d ip t rows hk hr hn ha =>
    exact .eviction e p d ip t rows hk (List.mem_append_left _ hr) hn ha
  | logout hk => exact .logout hk
  | logoutRoute t c hk hc hs => exact .logoutRoute t c hk hc hs
  | mass rows hr hx => exact .mass rows (List.mem_append_left _ hr) hx

theorem Call.Alters.mono {x n : UserModel} (ha : k.Alters h x n) (l : List Act) :
    k.Alters (h ++ l) x n := by
  cases k
  case changeStatus u st =>
    obtain ⟨hn, hid, y, hy, hst⟩ := ha
    exact ⟨hn, hid, y, List.mem_append_left _ hy, hst⟩
  all_goals exact ha

end Mono

def Act.selectsAll (u : String) : Act → Bool
  | .readSessions (.unrevokedOf u') _ => u' = u
  | _ => false

theorem Act.selectsAll_iff {u : String} {a : Act} :
    a.selectsAll u = true ↔ ∃ rows, a = .readSessions (.unrevokedOf u) rows := by
  constructor
  · intro h
    unfold Act.selectsAll at h
    split at h
    · exact ⟨_, by rw [of_decide_eq_true h]⟩
    · cases h
  · rintro ⟨rows, rfl⟩
    simp [Act.selectsAll]

def revocations (rows : List SessionModel) (t : Time) : List Act :=
  rows.map fun r => .wrote (.updateSession r { r with revokedAt := some t })

def massTrail (u : String) (rows : List SessionModel) (t : Time) : List Act :=
  .readSessions (.unrevokedOf u) rows :: .clock t :: revocations rows t

def purgeTrail (sessions : List UserSession) : List Act :=
  sessions.flatMap fun s => [.cacheDeleted (.session s.id), .cacheDeleted (.grace s.id)]

theorem mem_purgeTrail {sessions : List UserSession} {a : Act} :
    a ∈ purgeTrail sessions ↔
      ∃ s ∈ sessions, a = .cacheDeleted (.session s.id) ∨ a = .cacheDeleted (.grace s.id) := by
  simp [purgeTrail]

section Sessions

variable {cfg : Config} {k : Call} {h : List Act} {α : Type} {Q : Except Exc α → List Act → Prop}

theorem SessionAnswer.at_most_one {s : String} {rows : List SessionModel}
    (hr : SessionAnswer h (.byId s) rows) : rows = [] ∨ ∃ row, rows = [row] ∧ row.id = s := by
  match rows, hr.selects, hr.nodup with
  | [], _, _ => exact .inl rfl
  | [row], hs, _ =>
    have hid : row.id = s := by simpa [SessionQuery.selects] using hs
    exact .inr ⟨row, rfl, hid⟩
  | r :: r' :: rest, hs, hn =>
    have h1 : r.id = s := by simpa [SessionQuery.selects] using hs r (by simp)
    have h2 : r'.id = s := by simpa [SessionQuery.selects] using hs r' (by simp)
    simp [h1, h2] at hn

theorem traced_getSessionById {s : String} {f : Option UserSession → M α} (hl : Lawful cfg k h)
    (ho : Open h) (hi : ∀ r, .wrote (.insertSession r) ∉ h)
    (hnone : Lawful cfg k (h ++ [Act.readSessions (.byId s) []]) →
      Traced cfg k (f none) Q (h ++ [Act.readSessions (.byId s) []]))
    (hsome : ∀ row, row.id = s → Lawful cfg k (h ++ [Act.readSessions (.byId s) [row]]) →
      Traced cfg k (f (some row.toEntity)) Q (h ++ [Act.readSessions (.byId s) [row]])) :
    Traced cfg k (getSessionById s >>= f) Q h := by
  unfold getSessionById
  rw [bind_assoc]
  refine traced_selectSessions hl ho hi (by simp) (by simp) fun rows hr hl' => ?_
  rcases hr.at_most_one with rfl | ⟨row, rfl, hid⟩
  · exact hnone hl'
  · exact hsome row hid hl'

theorem traced_getActiveSessionsForUser {u : String} {f : List UserSession → M α}
    (hl : Lawful cfg k h) (ho : Open h) (hi : ∀ r, .wrote (.insertSession r) ∉ h)
    (hm : ∀ u' rows, .readSessions (.unrevokedOf u') rows ∉ h)
    (hf : ∀ t rows, SessionAnswer (h ++ [Act.clock t]) (.activeOf u t) rows →
      Lawful cfg k (h ++ [Act.clock t, .readSessions (.activeOf u t) rows]) →
      Traced cfg k (f (rows.map SessionModel.toEntity)) Q
        (h ++ [Act.clock t, .readSessions (.activeOf u t) rows])) :
    Traced cfg k (getActiveSessionsForUser u >>= f) Q h := by
  unfold getActiveSessionsForUser
  rw [bind_assoc]
  refine traced_now hl fun t _ hl' => ?_
  rw [bind_assoc]
  refine traced_selectSessions hl' (open_snoc.mpr ⟨ho, by simp, by simp⟩) (by simpa using hi)
    (by simp [hm]) (by simp) fun rows hr hl'' => ?_
  simp only [List.append_assoc, List.singleton_append] at hl'' ⊢
  exact hf t rows hr hl''

theorem traced_revoke {s : UserSession} {f : UserSession → M α} (hl : Lawful cfg k h)
    (hold : ∀ t, s.revokedAt = some t → Traced cfg k (f s) Q h)
    (hnew : s.revokedAt = none → ∀ t, Lawful cfg k (h ++ [Act.clock t]) →
      Traced cfg k (f { s with revokedAt := some t }) Q (h ++ [Act.clock t])) :
    Traced cfg k (s.revoke >>= f) Q h := by
  unfold UserSession.revoke
  cases hr : s.revokedAt with
  | some t => exact hold t hr
  | none =>
    change Traced cfg k ((now >>= fun t => pure { s with revokedAt := some t }) >>= f) Q h
    rw [bind_assoc]
    exact traced_now hl fun t _ hl' => hnew hr t hl'

/-- Saving a revoked entity: the row is found again, and unless it already agrees with the
entity it is updated. -/
theorem traced_updateSession {e : UserSession} {x : SessionModel} {f : Unit → M α}
    (hl : Lawful cfg k h) (ho : Open h) (hi : ∀ r, .wrote (.insertSession r) ∉ h)
    (hx : Saw h x) (hcore : e.toModel.core = x.core)
    (ht : ∃ t, e.revokedAt = some t ∧
      (.clock t ∈ h ∧ (∃ y, Saw h y ∧ y.id = x.id ∧ y.revokedAt = none) ∨
        ∃ y, Saw h y ∧ y.id = x.id ∧ y.revokedAt = some t))
    (hauth : ∀ l n, l.core = x.core → k.Authorised cfg h (.updateSession l n))
    (hend : ∀ l, l.core = x.core → k.Ends cfg h l)
    (hok : ∀ l, Lawful cfg k (h ++ l) → Clear l →
      (∀ a b, .wrote (.updateSession a b) ∈ l → a.id = x.id) → Ended (h ++ l) x.id →
      Traced cfg k (f ()) Q (h ++ l))
    (herr : ∀ y l, Lawful cfg k (h ++ l) → Clear l → y ≠ tokenReuse → Q (.error y) (h ++ l)) :
    Traced cfg k (updateSession e >>= f) Q h := by
  have hid : e.id = x.id := SessionModel.core_id hcore
  unfold updateSession
  rw [bind_assoc]
  refine traced_selectSessions hl ho hi (by simp) (by simp) fun rows hr hl' => ?_
  obtain ⟨hrows, hne⟩ := hr.again ho hi x hx
  rcases hr.at_most_one with rfl | ⟨l, rfl, hlid⟩
  · exact absurd rfl (hne (by rw [hid]))
  · have hlc : l.core = x.core := (hrows l (by simp) (hlid.trans hid)).1
    have hsaw : Saw (h ++ [Act.readSessions (.byId e.id) [l]]) l :=
      ⟨.byId e.id, [l], by simp, by simp⟩
    obtain ⟨t, het, htime⟩ := ht
    by_cases hsame : e.toModel = l
    · simp only [if_pos hsame]
      refine hok _ hl' (by simp [Act.plain]) (by simp) (.inr ⟨l, hsaw, hlid.trans hid, ?_⟩)
      have hrev : l.revokedAt = some t := by
        rw [← hsame]
        exact het
      simp [hrev]
    · simp only [if_neg hsame]
      have hrev : e.toModel.revokedAt ≠ l.revokedAt := fun hrev =>
        hsame (SessionModel.eq_of_core (hcore.trans hlc.symm) hrev)
      refine traced_write hl' ⟨open_snoc.mpr ⟨ho, by simp, by simp⟩, (hauth l _ hlc).mono _, ?_⟩
        (fun hl'' => ?_) fun y hl'' hy => ?_
      · refine ⟨hsaw, hcore.trans hlc.symm, hrev, ⟨t, het, ?_⟩, (hend l hlc).mono _⟩
        rcases htime with ⟨hm, y, hy, hyid, hyt⟩ | ⟨y, hy, hyid, hyt⟩
        · exact .inl ⟨List.mem_append_left _ hm, y, hy.mono, hyid.trans (hlid.trans hid).symm, hyt⟩
        · exact .inr ⟨y, hy.mono, hyid.trans (hlid.trans hid).symm, hyt⟩
      · rw [List.append_assoc] at hl'' ⊢
        refine hok _ hl'' (by simp [Act.plain]) ?_ (.inl ⟨l, e.toModel, by simp, hlid.trans hid⟩)
        intro a b hm
        simp only [List.singleton_append, List.mem_cons, Act.wrote.injEq, Write.updateSession.injEq,
          reduceCtorEq, false_or, List.not_mem_nil, or_false] at hm
        rw [hm.1, hlid, hid]
      · rw [List.append_assoc] at hl'' ⊢
        exact herr y _ hl'' (by simp [Act.plain]) hy

theorem traced_revokeAllSessions {u : String} {f : Unit → M α} (hl : Lawful cfg k h)
    (hk : k.RevokesAll cfg u) (ho : Open h) (hi : ∀ r, .wrote (.insertSession r) ∉ h)
    (hu : ∀ l n, .wrote (.updateSession l n) ∉ h)
    (hauth : ∀ l n, l.userId = u → k.Authorised cfg h (.updateSession l n))
    (hok : ∀ rows t, (∀ r ∈ rows, r.userId = u) → Lawful cfg k (h ++ massTrail u rows t) →
      Traced cfg k (f ()) Q (h ++ massTrail u rows t))
    (herr : ∀ y l, Lawful cfg k (h ++ l) → .committed ∉ l →
      (∀ u' rows, .readSessions (.unrevokedOf u') rows ∈ l → u' = u) →
      (∃ a b, .refused (.updateSession a b) ∈ l) → y ≠ tokenReuse → Q (.error y) (h ++ l)) :
    Traced cfg k (revokeAllSessions u >>= f) Q h := by
  unfold revokeAllSessions
  rw [bind_assoc]
  refine traced_selectSessions hl ho hi (by simp) ?_ fun rows hr hl₁ => ?_
  · rintro u' ⟨⟩
    exact ⟨hk, hu⟩
  have hsel : ∀ r ∈ rows, r.userId = u ∧ r.revokedAt = none := fun r hm => by
    simpa [SessionQuery.selects] using hr.selects r hm
  rw [bind_assoc]
  refine traced_now hl₁ fun t _ hl₂ => ?_
  refine (Trace.wp_bind _ _ _ _ _).mpr ?_
  simp only [List.append_assoc, List.singleton_append] at hl₂ ⊢
  refine Trace.wp_forM _ (fun done h' => Lawful cfg k h' ∧
      h' = h ++ .readSessions (.unrevokedOf u) rows :: .clock t :: revocations done t)
    ⟨hl₂, rfl⟩ ?_ ?_
  · rintro done m rest h' hx ⟨hl₃, rfl⟩
    have hm : m ∈ rows := by simp [hx]
    have hread : .readSessions (.unrevokedOf m.userId) rows ∈
        h ++ .readSessions (.unrevokedOf u) rows :: .clock t :: revocations done t := by
      simp [(hsel m hm).1]
    rw [← bind_pure (Prog.perform _)]
    refine traced_write hl₃ ⟨?_, (hauth m _ (hsel m hm).1).mono _, ?_⟩ (fun hl₄ => ?_)
      fun y hl₄ hy => ?_
    · simpa [Open, revocations] using ho
    · exact ⟨⟨_, rows, hread, hm⟩, rfl, by simp [(hsel m hm).2],
        ⟨t, rfl, .inl ⟨by simp, m, ⟨_, rows, hread, hm⟩, rfl, (hsel m hm).2⟩⟩, .mass rows hread hm⟩
    · exact ⟨hl₄, by simp [revocations]⟩
    · rw [List.append_assoc] at hl₄ ⊢
      exact herr y _ hl₄ (by simp [revocations]) (by simp [revocations])
        ⟨m, _, List.mem_append_right _ (by simp; rfl)⟩ hy
  · rintro h' ⟨hl₃, rfl⟩
    exact hok rows t (fun r hm => (hsel r hm).1) hl₃

theorem traced_purge {sessions : List UserSession} {p : UserSession → M Unit} {f : Unit → M α}
    (hl : Lawful cfg k h)
    (hp : ∀ s h, Lawful cfg k h → Traced cfg k (p s) (fun r h' => r = .ok () ∧
      h' = h ++ [Act.cacheDeleted (.session s.id), .cacheDeleted (.grace s.id)] ∧ Lawful cfg k h') h)
    (hf : Lawful cfg k (h ++ purgeTrail sessions) →
      Traced cfg k (f ()) Q (h ++ purgeTrail sessions)) :
    Traced cfg k (sessions.forM p >>= f) Q h := by
  refine (Trace.wp_bind _ _ _ _ _).mpr ?_
  refine Trace.wp_forM _ (fun done h' => Lawful cfg k h' ∧ h' = h ++ purgeTrail done)
    ⟨hl, by simp [purgeTrail]⟩ ?_ ?_
  · rintro done s rest h' - ⟨hl', rfl⟩
    refine Trace.wp_mono _ (hp s _ hl') ?_
    rintro r h'' ⟨rfl, rfl, hl''⟩
    exact ⟨hl'', by simp [purgeTrail]⟩
  · rintro h' ⟨hl', rfl⟩
    exact hf hl'

end Sessions

section Users

variable {cfg : Config} {k : Call} {h : List Act} {α : Type} {Q : Except Exc α → List Act → Prop}

theorem traced_findUser {q : UserQuery} {f : Option User → M α} (hl : Lawful cfg k h)
    (ho : Open h) (hi : ∀ r, .wrote (.insertUser r) ∉ h)
    (hnone : Lawful cfg k (h ++ [Act.readUsers q []]) →
      Traced cfg k (f none) Q (h ++ [Act.readUsers q []]))
    (hsome : ∀ x, q.selects x = true → x.id ≠ "" → Lawful cfg k (h ++ [Act.readUsers q [x]]) →
      Traced cfg k (f (some x.toEntity)) Q (h ++ [Act.readUsers q [x]]))
    (herr : ∀ rows, Lawful cfg k (h ++ [Act.readUsers q rows]) →
      (∀ u, q ≠ .byId u) → Q (.error .multipleResultsFound) (h ++ [Act.readUsers q rows])) :
    Traced cfg k (findUser q >>= f) Q h := by
  unfold findUser
  rw [bind_assoc]
  refine traced_selectUsers hl ho hi fun rows hr hl' => ?_
  match rows, hr, hl' with
  | [], _, hl' => exact hnone hl'
  | [x], hr, hl' => exact hsome x (hr.selects x (by simp)) (hr.id_ne x (by simp)) hl'
  | x :: y :: rest, hr, hl' =>
    refine herr _ hl' ?_
    rintro u rfl
    have hn := hr.nodup
    have h1 : x.id = u ∧ x.deletedAt = none := by
      simpa [UserQuery.selects] using hr.selects x (by simp)
    have h2 : y.id = u ∧ y.deletedAt = none := by
      simpa [UserQuery.selects] using hr.selects y (by simp)
    simp [h1, h2] at hn

def changeTrail (x n : UserModel) (t : Time) : List Act :=
  .readUsers (.row x.id) [x] :: .clock t ::
    if n = x then [] else [.wrote (.updateUser x n)]

theorem traced_changeRow {u : String} {g : UserModel → UserModel} {f : User → M α}
    (hl : Lawful cfg k h) (ho : Open h) (hi : ∀ r, .wrote (.insertUser r) ∉ h)
    (hs : ∀ r, .wrote (.insertSession r) ∉ h) (hg : ∀ x, (g x).id = x.id ∧ (g x).role = x.role)
    (hauth : ∀ l n, l.id = u → k.Authorised cfg h (.updateUser l n))
    (halter : ∀ x t, x.id = u → k.Alters h x { g x with updatedAt := t })
    (hok : ∀ x n t, x.id = u → n = { g x with updatedAt := t } →
      Lawful cfg k (h ++ changeTrail x n t) →
        Traced cfg k (f n.toEntity) Q (h ++ changeTrail x n t))
    (herr : ∀ y l, Lawful cfg k (h ++ l) → .committed ∉ l → Q (.error y) (h ++ l)) :
    Traced cfg k (changeRow u g >>= f) Q h := by
  unfold changeRow
  rw [bind_assoc]
  refine traced_selectUsers hl ho hi fun rows hr hl₁ => ?_
  match rows, hr, hl₁ with
  | [], _, hl₁ => exact herr _ _ hl₁ (by simp)
  | x :: y :: rest, _, hl₁ => exact herr _ _ hl₁ (by simp)
  | [x], hr, hl₁ =>
    have hid : x.id = u := by simpa [UserQuery.selects] using hr.selects x (by simp)
    simp only [scalarOne, pure_bind]
    rw [bind_assoc]
    refine traced_now hl₁ fun t _ hl₂ => ?_
    have hok' := hok x { g x with updatedAt := t } t hid rfl
    unfold changeTrail at hok'
    rw [hid] at hok'
    by_cases hn : { g x with updatedAt := t } = x
    · rw [if_pos hn] at hok' ⊢
      simp only [pure_bind]
      simp only [List.append_assoc, List.singleton_append] at hl₂ ⊢
      exact hok' hl₂
    · rw [if_neg hn] at hok' ⊢
      rw [bind_assoc]
      refine traced_write hl₂ ⟨?_, ?_, ?_⟩ (fun hl₃ => ?_) fun y hl₃ _ => ?_
      · simpa [Open] using ho
      · simpa using (hauth x _ hid).mono [.readUsers (.row u) [x], .clock t]
      · have ha : k.Alters (h ++ [Act.readUsers (.row u) [x]] ++ [Act.clock t]) x
            { g x with updatedAt := t } := ((halter x t hid).mono _).mono _
        exact ⟨⟨[x], by simp [hid], by simp⟩, (hg x).1, (hg x).2, by simpa using hs, ha⟩
      · simp only [List.append_assoc, List.singleton_append, pure_bind] at hl₃ ⊢
        exact hok' hl₃
      · simp only [List.append_assoc, List.singleton_append] at hl₃ ⊢
        exact herr y _ hl₃ (by simp)

end Users

end AsyncPulse
