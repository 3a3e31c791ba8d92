import AsyncPulse.RepositoryTraces
set_option autoImplicit false

namespace AsyncPulse
open Effect

/-- Every revoked session was purged from the cache, unless it was revoked together with all
others of its user and had been passed over as expired. -/
def Purged (h : List Act) : Prop :=
  ∀ l n, .wrote (.updateSession l n) ∈ h → .cacheDeleted (.session l.id) ∈ h ∨
    ∃ t active rows, .readSessions (.activeOf l.userId t) active ∈ h ∧
      .readSessions (.unrevokedOf l.userId) rows ∈ h ∧ l ∈ rows ∧ ∀ r ∈ active, r.id ≠ l.id

/-- A call that commits also purges what it changed from the cache. -/
structure Tidy (h : List Act) : Prop where
  sessions : .committed ∈ h → Purged h
  users : .committed ∈ h → ∀ l n, .wrote (.updateUser l n) ∈ h → .cacheDeleted (.user l.id) ∈ h

theorem tidy_of_uncommitted {h : List Act} (hc : .committed ∉ h) : Tidy h :=
  ⟨fun hm => absurd hm hc, fun hm => absurd hm hc⟩

def Massed (h : List Act) (u : String) : Prop :=
  .committed ∈ h ∧ ∃ rows, .readSessions (.unrevokedOf u) rows ∈ h

def Issued (cfg : Config) (h : List Act) (parent : Option String) (p : TokenPair) : Prop :=
  ∃ r a b, .wrote (.insertSession r) ∈ h ∧ .committed ∈ h ∧ r.previousSessionId = parent ∧
    .signed a ∈ h ∧ .signed b ∈ h ∧ a.type = .access ∧ b.type = .refresh ∧
    p = { accessToken := cfg.jose.encode a, refreshToken := cfg.jose.encode b }

/-- `p` comes from the grace entry of session `s`, revoked no longer than the window ago. -/
def Replayed (cfg : Config) (h : List Act) (s : String) (p : TokenPair) : Prop :=
  ∃ a b : Claims, p = { accessToken := cfg.jose.encode a, refreshToken := cfg.jose.encode b } ∧
    .cacheGot (.grace s) (some p.toDict) ∈ h ∧ ∃ row t₀ t, .readSessions (.byId s) [row] ∈ h ∧
      row.revokedAt = some t₀ ∧ .clock t ∈ h ∧ t - t₀ ≤ graceWindow

section

variable {cfg : Config} {k : Call} {h : List Act} {α : Type} {Q : Except Exc α → List Act → Prop}

theorem Call.authorised_of_not_request (hk : k.isRequest = false) (v : Write) :
    k.Authorised cfg h v := fun hr => by simp [hk] at hr

theorem Call.Refreshes.authorised_update {s u : String} (hk : k.Refreshes cfg s u)
    {l : SessionModel} (hl : l.id = s) (n : SessionModel) :
    k.Authorised cfg h (.updateSession l n) := by
  obtain ⟨-, c, hc, -, hj, -⟩ := hk
  exact fun _ => ⟨c, hc, .inr (.inr ⟨l, n, rfl, .inr (hl ▸ hj)⟩)⟩

theorem Call.Refreshes.authorised_owner {s u : String} (hk : k.Refreshes cfg s u) {v : Write}
    (hv : v.owner = u) : k.Authorised cfg h v := by
  obtain ⟨-, c, hc, -, -, hs⟩ := hk
  exact fun _ => ⟨c, hc, .inl (hv.trans hs.symm)⟩

theorem Call.Refreshes.revokesAll {s u : String} (hk : k.Refreshes cfg s u) :
    k.RevokesAll cfg u := by
  obtain ⟨hr, c, hc, -, -, hs⟩ := hk
  cases k <;> simp only [Call.isRefresh, Bool.false_eq_true] at hr <;> exact ⟨c, hc, hs⟩

theorem traced_createToken {sub id : String} {delta : Time} {ty : TokenType} {f : Token → M α}
    (hl : Lawful cfg k h) (hsub : sub ≠ "") (hid : id ≠ "") (hd : .drew id ∈ h)
    (hty : ∀ c, .signed c ∈ h → c.type ≠ ty) (hi : ∀ r, .wrote (.insertSession r) ∉ h)
    (hf : ∀ t c, c.type = ty → c.sub = sub → c.Names id → c.exp = wholeSeconds (t + delta) →
      Lawful cfg k (h ++ [Act.clock t, .signed c]) →
      Traced cfg k (f (cfg.jose.encode c)) Q (h ++ [Act.clock t, .signed c])) :
    Traced cfg k (createToken sub delta ty (some id) >>= f) Q h := by
  unfold createToken
  rw [bind_assoc]
  refine traced_now hl fun t _ hl₁ => ?_
  have hne : ¬ some id = some "" := by simpa using hid
  simp only [if_neg hne]
  have hn : Claims.Names
      { sub := sub, exp := wholeSeconds (t + delta), type := ty,
        sid := if ty = .refresh then none else some id,
        jti := if ty = .refresh then some id else none } id := by
    cases ty <;> exact ⟨rfl, rfl⟩
  refine traced_encode hl₁ ⟨hsub, ⟨id, hid, List.mem_append_left _ hd, hn⟩, ?_, ?_⟩ fun hl₂ => ?_
  · simpa using hty
  · simpa using hi
  · simp only [List.append_assoc, List.singleton_append] at hl₂ ⊢
    exact hf t _ rfl rfl hn rfl hl₂

theorem traced_decodeToken {token : Token} {f : Claims → M α} (hl : Lawful cfg k h)
    (hok : ∀ c t, cfg.jose.verify token = some c → wholeSeconds t ≤ c.exp →
      (∀ t', .clock t' ∈ h → t' ≤ t) → Lawful cfg k (h ++ [Act.clock t]) →
      Traced cfg k (f c) Q (h ++ [Act.clock t]))
    (hbad : cfg.jose.verify token = none → Q (.error .jwtError) h)
    (hexp : ∀ c t, cfg.jose.verify token = some c → c.exp < wholeSeconds t →
      Lawful cfg k (h ++ [Act.clock t]) → Q (.error .jwtError) (h ++ [Act.clock t])) :
    Traced cfg k (decodeToken cfg token >>= f) Q h := by
  unfold decodeToken
  cases hv : cfg.jose.verify token with
  | none => exact hbad hv
  | some c =>
    simp only
    rw [bind_assoc]
    refine traced_now hl fun t ht hl' => ?_
    rw [bind_assoc]
    refine (Trace.wp_bind _ _ _ _ _).mpr ((Trace.wp_raiseIf _ _ _ _ _).mpr ⟨fun he => ?_, fun he => ?_⟩)
    · exact hexp c t hv he hl'
    · exact hok c t hv (Int.not_lt.mp he) ht hl'

theorem traced_raiseIf {c : Prop} [Decidable c] {e : Exc} {f : Unit → M α}
    (herr : c → Q (.error e) h) (hok : ¬ c → Traced cfg k (f ()) Q h) :
    Traced cfg k (Prog.raiseIf c e >>= f) Q h :=
  (Trace.wp_bind _ _ _ _ _).mpr ((Trace.wp_raiseIf _ _ _ _ _).mpr ⟨herr, hok⟩)

def logoutAllTrail (u : String) (t : Time) (active rows : List SessionModel) (t' : Time) :
    List Act :=
  .clock t :: .readSessions (.activeOf u t) active :: massTrail u rows t' ++
    .committed :: purgeTrail (active.map SessionModel.toEntity)

def revokerTrail (u : String) (t : Time) (active rows : List SessionModel) (t' : Time) :
    List Act :=
  .clock t :: .readSessions (.activeOf u t) active :: massTrail u rows t' ++
    purgeTrail (active.map SessionModel.toEntity)

theorem mem_purgeTrail_session {active : List SessionModel} {s : String} :
    .cacheDeleted (.session s) ∈ purgeTrail (active.map SessionModel.toEntity) ↔
      ∃ a ∈ active, a.id = s := by
  simp only [mem_purgeTrail, List.mem_map, Act.cacheDeleted.injEq, Key.session.injEq, reduceCtorEq,
    or_false, exists_exists_and_eq_and, SessionModel.toEntity]
  exact exists_congr fun a => and_congr_right fun _ => eq_comm

theorem mem_wrote_massTrail {u : String} {rows : List SessionModel} {t : Time} {v : Write} :
    .wrote v ∈ massTrail u rows t ↔
      ∃ r ∈ rows, v = .updateSession r { r with revokedAt := some t } := by
  simp only [massTrail, revocations, List.mem_cons, reduceCtorEq, List.mem_map, Act.wrote.injEq,
    false_or]
  exact exists_congr fun r => and_congr_right fun _ => eq_comm

theorem mem_read_massTrail {u u' : String} {rows rows' : List SessionModel} {t : Time} :
    .readSessions (.unrevokedOf u') rows' ∈ massTrail u rows t ↔ u' = u ∧ rows' = rows := by
  simp [massTrail, revocations]

/-- Sessions that `revoke_all_sessions` ends and the purge skips were not among the active
ones. -/
theorem purged_mass {u : String} (t : Time) (active rows : List SessionModel)
    (hw : ∀ a b, .wrote (.updateSession a b) ∈ h → a ∈ rows) (hu : ∀ r ∈ rows, r.userId = u)
    (hr : .readSessions (.activeOf u t) active ∈ h) (hm : .readSessions (.unrevokedOf u) rows ∈ h)
    (hd : ∀ a ∈ active, .cacheDeleted (.session a.id) ∈ h) : Purged h := by
  intro l n hl
  by_cases ha : ∃ a ∈ active, a.id = l.id
  · obtain ⟨a, ha, hid⟩ := ha
    exact .inl (hid ▸ hd a ha)
  · have hlr := hw l n hl
    rw [← hu l hlr] at hr hm
    exact .inr ⟨t, active, rows, hr, hm, hlr, fun r hr' hid => ha ⟨r, hr', hid⟩⟩

theorem traced_revokeUserSessions {u : String} {f : Unit → M α} (hl : Lawful cfg k h)
    (hk : k.RevokesAll cfg u) (ho : Open h) (hi : ∀ r, .wrote (.insertSession r) ∉ h)
    (hu : ∀ l n, .wrote (.updateSession l n) ∉ h)
    (hm : ∀ u' rows, .readSessions (.unrevokedOf u') rows ∉ h)
    (hauth : ∀ l n, l.userId = u → k.Authorised cfg h (.updateSession l n))
    (hok : ∀ t active rows t', (∀ r ∈ rows, r.userId = u) →
      Lawful cfg k (h ++ revokerTrail u t active rows t') →
      Traced cfg k (f ()) Q (h ++ revokerTrail u t active rows t'))
    (herr : ∀ y l, Lawful cfg k (h ++ l) → .committed ∉ l → Q (.error y) (h ++ l)) :
    Traced cfg k (revokeUserSessions u >>= f) Q h := by
  unfold revokeUserSessions
  rw [bind_assoc]
  refine traced_getActiveSessionsForUser hl ho hi hm fun t active _ hl₁ => ?_
  rw [bind_assoc]
  refine traced_revokeAllSessions hl₁ hk (by simpa [Open] using ho) (by simpa using hi)
    (by simpa using hu) (fun l n hlu => (hauth l n hlu).mono _) (fun rows t' hrows hl₂ => ?_)
    fun y l hl₂ hc _ _ _ => ?_
  · refine traced_purge hl₂ (fun s h' hl' => ?_) fun hl₃ => ?_
    · refine traced_cacheDelete hl' fun hl₄ => ?_
      rw [← bind_pure (cacheDelete _)]
      refine traced_cacheDelete hl₄ fun hl₅ => ?_
      simp only [List.append_assoc, List.singleton_append] at hl₅ ⊢
      exact ⟨rfl, rfl, hl₅⟩
    · have he : h ++ [Act.clock t, .readSessions (.activeOf u t) active] ++ massTrail u rows t' ++
          purgeTrail (active.map SessionModel.toEntity) =
          h ++ revokerTrail u t active rows t' := by simp [revokerTrail]
      rw [he] at hl₃ ⊢
      exact hok t active rows t' hrows hl₃
  · rw [List.append_assoc] at hl₂ ⊢
    exact herr y _ hl₂ (by simpa using hc)

theorem traced_logoutAll {u : String} {f : Unit → M α} (hl : Lawful cfg k h)
    (hk : k.RevokesAll cfg u) (hread : Reading h)
    (hauth : ∀ l n, l.userId = u → k.Authorised cfg h (.updateSession l n))
    (hok : ∀ t active rows t', (∀ r ∈ rows, r.userId = u) →
      Lawful cfg k (h ++ logoutAllTrail u t active rows t') →
      Traced cfg k (f ()) Q (h ++ logoutAllTrail u t active rows t'))
    (herr : ∀ y l, Lawful cfg k (h ++ l) → .committed ∉ l →
      (∀ u' rows, .readSessions (.unrevokedOf u') rows ∈ l → u' = u) →
      (∃ a b, .refused (.updateSession a b) ∈ l) → y ≠ tokenReuse → Q (.error y) (h ++ l)) :
    Traced cfg k (logoutAll u >>= f) Q h := by
  have ho := hread.opened
  have hw := hread.unwritten
  unfold logoutAll
  rw [bind_assoc]
  refine traced_getActiveSessionsForUser hl ho (fun r => hw _) hread.not_mass fun t active _ hl₁ => ?_
  rw [bind_assoc]
  refine traced_revokeAllSessions hl₁ hk (by simpa [Open] using ho) (by simpa using fun r => hw _)
    (by simpa using fun l n => hw _) (fun l n hlu => (hauth l n hlu).mono _)
    (fun rows t' hrows hl₂ => ?_) fun y l hl₂ hc hu' hr hy => ?_
  · rw [bind_assoc]
    have hc : Act.committed.Lawful cfg k
        (h ++ [Act.clock t, .readSessions (.activeOf u t) active] ++ massTrail u rows t') := by
      refine ⟨by simpa [Open, massTrail, revocations] using ho, ?_, ?_⟩
      · intro u' rows' hr r hrm
        simp only [List.mem_append, mem_read_massTrail] at hr
        obtain ⟨rfl, rfl⟩ : u' = u ∧ rows' = rows := by simpa [hread.not_mass] using hr
        exact ⟨_, List.mem_append_right _ (mem_wrote_massTrail.mpr ⟨r, hrm, rfl⟩)⟩
      · intro l n hm'
        simp [hw, mem_wrote_massTrail] at hm'
    refine traced_commit hl₂ hc fun hl₃ => ?_
    refine traced_purge hl₃ (fun s h' hl' => ?_) fun hl₄ => ?_
    · refine traced_suppressDelete hl' fun hl₄ => ?_
      rw [← bind_pure (Prog.suppress _)]
      refine traced_suppressDelete hl₄ fun hl₅ => ?_
      simp only [List.append_assoc, List.singleton_append] at hl₅ ⊢
      exact ⟨rfl, rfl, hl₅⟩
    · have he : h ++ [Act.clock t, .readSessions (.activeOf u t) active] ++ massTrail u rows t' ++
          [.committed] ++ purgeTrail (active.map SessionModel.toEntity) =
          h ++ logoutAllTrail u t active rows t' := by simp [logoutAllTrail]
      rw [he] at hl₄ ⊢
      exact hok t active rows t' hrows hl₄
  · rw [List.append_assoc] at hl₂ ⊢
    obtain ⟨a, b, hab⟩ := hr
    exact herr y _ hl₂ (by simpa using hc) (by simpa using hu')
      ⟨a, b, List.mem_append_right _ hab⟩ hy

theorem logoutAllTrail_done {u : String} (t t' : Time) (active : List SessionModel)
    {rows : List SessionModel} (hw : ∀ v, .wrote v ∉ h) (hrows : ∀ r ∈ rows, r.userId = u) :
    Tidy (h ++ logoutAllTrail u t active rows t') ∧
      Massed (h ++ logoutAllTrail u t active rows t') u := by
  have hread : .readSessions (.activeOf u t) active ∈ h ++ logoutAllTrail u t active rows t' := by
    simp [logoutAllTrail]
  have hmass : .readSessions (.unrevokedOf u) rows ∈ h ++ logoutAllTrail u t active rows t' := by
    simp [logoutAllTrail, mem_read_massTrail]
  refine ⟨⟨fun _ => purged_mass t active rows ?_ hrows hread hmass ?_, ?_⟩, ?_, rows, hmass⟩
  · intro a b hm
    have hab : a ∈ rows ∧ b = { a with revokedAt := some t' } := by
      simpa [logoutAllTrail, hw, mem_wrote_massTrail, mem_purgeTrail] using hm
    exact hab.1
  · intro a ha
    refine List.mem_append_right _ (List.mem_append_right _ (List.mem_cons_of_mem _ ?_))
    exact mem_purgeTrail_session.mpr ⟨a, ha, rfl⟩
  · intro _ l n hm
    simp [logoutAllTrail, hw, mem_wrote_massTrail, mem_purgeTrail] at hm
  · simp [logoutAllTrail]

theorem traced_logout {s : String} {f : Unit → M α} (hl : Lawful cfg k h) (hread : Reading h)
    (hauth : ∀ l n, l.id = s → k.Authorised cfg h (.updateSession l n))
    (hend : ∀ l : SessionModel, l.id = s → k.Ends cfg h l)
    (hok : ∀ l, Lawful cfg k (h ++ l) → Tidy (h ++ l) →
      (.readSessions (.byId s) [] ∈ l ∨ .committed ∈ l ∧ Ended (h ++ l) s) →
      Traced cfg k (f ()) Q (h ++ l))
    (herr : ∀ y l, Lawful cfg k (h ++ l) → .committed ∉ l → Q (.error y) (h ++ l)) :
    Traced cfg k (logout s >>= f) Q h := by
  have ho := hread.opened
  have hw := hread.unwritten
  unfold logout
  rw [bind_assoc]
  refine traced_getSessionById hl ho (fun r => hw _) (fun hl₁ => ?_) fun row hid hl₁ => ?_
  · simp only [pure_bind]
    exact hok _ hl₁ (tidy_of_uncommitted (by simpa using ho.1)) (.inl (by simp))
  · simp only
    rw [bind_assoc]
    have hsaw : Saw (h ++ [Act.readSessions (.byId s) [row]]) row :=
      ⟨.byId s, [row], by simp, by simp⟩
    -- Whether or not the row was revoked already, the entity to be saved is.
    have hrest : ∀ (e : UserSession) (l : List Act), Clear l → (∀ v, .wrote v ∉ l) →
        Lawful cfg k (h ++ [Act.readSessions (.byId s) [row]] ++ l) → e.toModel.core = row.core →
        (∃ t, e.revokedAt = some t ∧ (.clock t ∈ h ++ [Act.readSessions (.byId s) [row]] ++ l ∧
          (∃ y, Saw (h ++ [Act.readSessions (.byId s) [row]] ++ l) y ∧ y.id = row.id ∧
            y.revokedAt = none) ∨
          ∃ y, Saw (h ++ [Act.readSessions (.byId s) [row]] ++ l) y ∧ y.id = row.id ∧
            y.revokedAt = some t)) →
        Traced cfg k ((do
          updateSession e
          commit
          Prog.suppress (cacheDelete (.session s))
          Prog.suppress (cacheDelete (.grace s))) >>= f) Q
          (h ++ [Act.readSessions (.byId s) [row]] ++ l) := by
      intro e l hcl hwl hl₂ hcore htime
      rw [bind_assoc]
      have hids : ∀ x : SessionModel, x.core = row.core → x.id = s := fun x hx =>
        (SessionModel.core_id hx).trans hid
      refine traced_updateSession hl₂ ?_ ?_ hsaw.mono hcore htime
        (fun x n hx => by
          rw [List.append_assoc]
          exact (hauth x n (hids x hx)).mono _)
        (fun x hx => by
          rw [List.append_assoc]
          exact (hend x (hids x hx)).mono _)
        (fun l₂ hl₃ hcl₂ hup hended => ?_) fun y l₂ hl₃ hcl₂ _ => ?_
      · exact ⟨by simp [ho.1, hcl.opened.1], by simp [ho.2, hcl.opened.2]⟩
      · simp [hw, hwl]
      · rw [bind_assoc]
        refine traced_commit hl₃ ⟨?_, ?_, ?_⟩ fun hl₄ => ?_
        · exact ⟨by simp [ho.1, hcl.opened.1, hcl₂.opened.1],
            by simp [ho.2, hcl.opened.2, hcl₂.opened.2]⟩
        · intro u rows hr
          simp [hread.not_mass, hcl.not_mass, hcl₂.not_mass] at hr
        · intro x n hx
          simp [hw, hwl, hcl₂.not_updated] at hx
        rw [bind_assoc]
        refine traced_suppressDelete hl₄ fun hl₅ => ?_
        refine traced_suppressDelete hl₅ fun hl₆ => ?_
        have he : h ++ [Act.readSessions (.byId s) [row]] ++ l ++ l₂ ++ [Act.committed] ++
            [.cacheDeleted (.session s)] ++ [Act.cacheDeleted (.grace s)] =
            h ++ (.readSessions (.byId s) [row] :: l ++ l₂ ++ [Act.committed,
              .cacheDeleted (.session s), .cacheDeleted (.grace s)]) := by simp
        have hended' := hended.mono [.committed, .cacheDeleted (.session s), .cacheDeleted (.grace s)]
        simp only [List.append_assoc, List.cons_append] at he hl₆ hended' ⊢
        refine hok _ hl₆ ⟨fun _ a b hab => .inl ?_, fun _ a b hab => ?_⟩
          (.inr ⟨by simp, by simpa [hid] using hended'⟩)
        · have hab' : .wrote (.updateSession a b) ∈ l₂ := by simpa [hw, hwl] using hab
          simp [hup a b hab', hid]
        · simp [hw, hwl, hcl₂.not_updated] at hab
      · simp only [List.append_assoc] at hl₃ ⊢
        exact herr y _ hl₃ (by simp [hcl.opened.1, hcl₂.opened.1])
    refine traced_revoke hl₁ (fun t ht => ?_) fun hrev t hl₂ => ?_
    · have := hrest row.toEntity [] (by simp) (by simp) (by simpa using hl₁) rfl
        ⟨t, ht, .inr ⟨row, by simpa using hsaw, rfl, ht⟩⟩
      simpa using this
    · exact hrest { row.toEntity with revokedAt := some t } [.clock t] (by simp [Act.plain])
        (by simp) hl₂ rfl ⟨t, rfl, .inl ⟨by simp, row, hsaw.mono, rfl, hrev⟩⟩

theorem traced_rotate {s u : String} {row : SessionModel} {ip : Option String} {t₁ : Time}
    {x : UserModel} (hl : Lawful cfg k h) (hc : Clear h) (hw : ∀ v, .wrote v ∉ h)
    (hread : .readSessions (.byId s) [row] ∈ h) (hid : row.id = s) (hrev : row.revokedAt = none)
    (ht₁ : .clock t₁ ∈ h) (hexp : t₁ ≤ row.expiresAt) (hk : k.Refreshes cfg s u) (hu : u ≠ "")
    (hx : SawUser h x) (hxid : x.id = u) (hxs : x.InService) :
    Traced cfg k (rotate cfg s u row.toEntity ip) (fun r h' => Tidy h' ∧
      (∀ u rows, .readSessions (.unrevokedOf u) rows ∉ h') ∧
      ((∃ p, r = .ok p ∧ Issued cfg h' (some s) p) ∨
        ∃ e, r = .error e ∧ .committed ∉ h' ∧ e ≠ tokenReuse)) h := by
  subst hid
  have hsaw : Saw h row := ⟨_, _, hread, by simp⟩
  unfold rotate
  refine traced_revoke hl (fun t ht => ?_) fun _ t hl₁ => ?_
  · change row.revokedAt = some t at ht
    rw [hrev] at ht
    cases ht
  refine traced_updateSession (x := row) hl₁ (by simpa [Open] using hc.opened)
    (by simpa using hc.not_inserted) hsaw.mono rfl
    ⟨t, rfl, .inl ⟨by simp, row, hsaw.mono, rfl, hrev⟩⟩
    (fun l n hlc => hk.authorised_update (SessionModel.core_id hlc) n)
    (fun l hlc => .rotation u (by rw [SessionModel.core_id hlc]; exact hk))
    (fun l hl₂ hcl hup hended => ?_) fun y l hl₂ hcl hy => ?_
  swap
  · have hn : .committed ∉ h ++ [Act.clock t] ++ l := by simp [hc.opened.1, hcl.opened.1]
    exact ⟨tidy_of_uncommitted hn, by simp [hc.not_mass, hcl.not_mass], .inr ⟨y, rfl, hn, hy⟩⟩
  have hcl₀ : Clear (h ++ [Act.clock t] ++ l) := by simp [hc, hcl, Act.plain]
  have hread₀ : .readSessions (.byId row.id) [row] ∈ h ++ [Act.clock t] ++ l := by simp [hread]
  have ht₀ : .clock t₁ ∈ h ++ [Act.clock t] ++ l := by simp [ht₁]
  have hx₀ : SawUser (h ++ [Act.clock t] ++ l) x := hx.mono.mono
  have hup₀ : ∀ a b, .wrote (.updateSession a b) ∈ h ++ [Act.clock t] ++ l → a.id = row.id := by
    simpa [hw] using hup
  generalize h ++ [Act.clock t] ++ l = h₀ at *
  refine traced_suppressDelete hl₂ fun hl₃ => ?_
  refine traced_now hl₃ fun t₂ _ hl₄ => ?_
  refine traced_uuid4 hl₄ fun id hne hfresh hl₅ => ?_
  refine traced_createToken hl₅ hu hne (by simp) (by simp [hcl₀.not_signed])
    (by simp [hcl₀.not_inserted]) fun t₃ a hat has han _ hl₆ => ?_
  refine traced_createToken hl₆ hu hne (by simp)
    (by simp [hcl₀.not_signed, hat]) (by simp [hcl₀.not_inserted])
    fun t₄ b hbt hbs hbn _ hl₇ => ?_
  unfold UserSession.create
  rw [bind_assoc]
  refine traced_now hl₇ fun t₅ _ hl₈ => ?_
  simp only [List.append_assoc, List.cons_append, List.nil_append] at hl₈ ⊢
  refine traced_write hl₈ ⟨?_, hk.authorised_owner rfl, ?_⟩ (fun hl₉ => ?_) fun y _ hy => ?_
  · simpa [Open] using hcl₀.opened
  · refine ⟨.rotation row [row] t₁ rfl hk (by simp [hread₀]) (by simp) hrev (by simp [ht₀]) hexp
      rfl rfl ?_, by simp [UserSession.toModel], rfl, by simp [hcl₀.not_inserted], ?_, ?_,
      ⟨x, hx₀.mono, hxid, hxs⟩, by simp [hcl₀.not_mass], by simp [hcl₀.not_updated]⟩
    · exact hended.mono _
    · rintro y ⟨q, rows, hm, hy⟩
      exact hfresh y ⟨q, rows, by simpa using hm, hy⟩
    · simp only [List.mem_append, List.mem_cons, Act.signed.injEq, reduceCtorEq, false_or, or_false,
        List.not_mem_nil, hcl₀.not_signed]
      rintro c (rfl | rfl)
      · exact ⟨han, has⟩
      · exact ⟨hbn, hbs⟩
  · refine traced_commit hl₉ ⟨?_, ?_, ?_⟩ fun hl₁₀ => ?_
    · simpa [Open] using hcl₀.opened
    · simp [hcl₀.not_mass]
    · simp [hcl₀.not_updated]
    refine traced_suppressSet hl₁₀ ⟨_, rfl, rfl, .inl ⟨by simp; exact .inr rfl, by simp⟩⟩
      fun hl₁₁ => ?_
    refine traced_suppressSet hl₁₁ ⟨_, a, b, by simp; exact .inr rfl, by simp, rfl, by simp, by simp,
      hat, hbt, rfl⟩ fun hl₁₂ => ?_
    refine ⟨⟨fun _ l n hm => .inl ?_, fun _ l n hm => ?_⟩, by simp [hcl₀.not_mass],
      .inl ⟨_, rfl, _, a, b, by simp; exact .inr rfl, by simp, rfl, by simp, by simp, hat, hbt,
        rfl⟩⟩
    · have hm' : .wrote (.updateSession l n) ∈ h₀ := by simpa using hm
      simp [hup₀ l n hm']
    · simp [hcl₀.not_updated] at hm
  · have hn : .committed ∉ h₀ := hcl₀.opened.1
    exact ⟨tidy_of_uncommitted (by simp [hn]), by simp [hcl₀.not_mass],
      .inr ⟨y, rfl, by simp [hn], hy⟩⟩

structure ReplayDone (cfg : Config) (s u : String) (t₀ : Time) (r : Except Exc TokenPair)
    (h : List Act) : Prop where
  tidy : Tidy h
  replayed : ∀ p, r = .ok p → Replayed cfg h s p
  reason : ∀ u' rows, .readSessions (.unrevokedOf u') rows ∈ h →
    u' = u ∧ ∃ t, .clock t ∈ h ∧ graceWindow < t - t₀
  detected : r = .error tokenReuse → Massed h u
  committed : .committed ∈ h → r = .error tokenReuse
  breach : (∀ t, .clock t ∈ h → graceWindow < t - t₀) →
    r = .error tokenReuse ∨ ∃ a b, .refused (.updateSession a b) ∈ h

theorem traced_replayOrBreach {s u : String} {row : SessionModel} {t₀ : Time}
    (hl : Lawful cfg k h) (hr : Reading h)
    (hread : .readSessions (.byId s) [row] ∈ h) (hrev : row.revokedAt = some t₀)
    (hk : k.Refreshes cfg s u) :
    Traced cfg k (replayOrBreach s u t₀) (ReplayDone cfg s u t₀) h := by
  unfold replayOrBreach
  refine traced_now hl fun t _ hl₁ => ?_
  by_cases hwin : t - t₀ ≤ graceWindow
  · simp only [if_pos hwin]
    refine (Trace.wp_bind _ _ _ _ _).mpr ((Trace.wp_tryCatch _ _ _ _ _).mpr ?_)
    rw [← bind_pure (getJson _)]
    refine traced_getJson hl₁ fun v hv hl₂ => ?_
    have hnot : ∀ u' rows, .readSessions (.unrevokedOf u') rows ∉
        h ++ [Act.clock t] ++ [Act.cacheGot (.grace s) v] := by simp [hr.not_mass]
    have huncommitted : .committed ∉ h ++ [Act.clock t] ++ [Act.cacheGot (.grace s) v] := by
      simp [hr.opened.1]
    have hclock : ¬ ∀ t', .clock t' ∈ h ++ [Act.clock t] ++ [Act.cacheGot (.grace s) v] →
        graceWindow < t' - t₀ := fun hall => absurd (hall t (by simp)) (Int.not_lt.mpr hwin)
    cases v with
    | none =>
      exact ⟨tidy_of_uncommitted huncommitted, fun p hp => (by cases hp),
        fun u' rows hm => absurd hm (hnot u' rows),
        fun hr => by simp [tokenReuse, Exc.invalidToken] at hr,
        fun hm => absurd hm huncommitted, fun hall => absurd hall hclock⟩
    | some data =>
      obtain ⟨a, b, rfl⟩ := hv data rfl
      refine ⟨tidy_of_uncommitted huncommitted, fun p hp => ?_,
        fun u' rows hm => absurd hm (hnot u' rows), fun hr => (by cases hr),
        fun hm => absurd hm huncommitted, fun hall => absurd hall hclock⟩
      have hp' : p = { accessToken := cfg.jose.encode a, refreshToken := cfg.jose.encode b } :=
        (Except.ok.inj hp).symm
      subst hp'
      exact ⟨a, b, rfl, by simp, row, t₀, t, by simp [hread], hrev, by simp, hwin⟩
  · simp only [if_neg hwin]
    have hlate : graceWindow < t - t₀ := Int.not_le.mp hwin
    refine traced_logoutAll hl₁ hk.revokesAll (by simp [hr, Act.reads])
      (fun l n hlu => hk.authorised_owner hlu) (fun t₁ active rows t₂ hrows hl₂ => ?_)
      fun y l hl₂ hcl hu hrefused hy => ?_
    · obtain ⟨htidy, hmass⟩ := logoutAllTrail_done t₁ t₂ active
        (h := h ++ [Act.clock t]) (by simp [hr.unwritten]) hrows
      refine ⟨htidy, fun p hp => (by cases hp), fun u' rows' hm => ⟨?_, t, by simp, hlate⟩,
        fun _ => hmass, fun _ => rfl, fun _ => .inl rfl⟩
      have hm' : u' = u ∧ rows' = rows := by
        simpa [logoutAllTrail, hr.not_mass, mem_read_massTrail, mem_purgeTrail] using hm
      exact hm'.1
    · obtain ⟨a, b, hab⟩ := hrefused
      have hn : .committed ∉ h ++ [Act.clock t] ++ l := by simp [hr.opened.1, hcl]
      refine ⟨tidy_of_uncommitted hn, fun p hp => (by cases hp),
        fun u' rows' hm => ⟨hu u' rows' ?_, t, by simp, hlate⟩,
        fun he => absurd (Except.error.inj he) hy, fun hm => absurd hm hn,
        fun _ => .inr ⟨a, b, List.mem_append_right _ hab⟩⟩
      simpa [hr.not_mass] using hm

theorem traced_checkAndRotate {s u : String} {row : SessionModel} {ip : Option String}
    (hl : Lawful cfg k h) (hc : Clear h) (hw : ∀ v, .wrote v ∉ h)
    (hread : .readSessions (.byId s) [row] ∈ h) (hid : row.id = s) (hrev : row.revokedAt = none)
    (hk : k.Refreshes cfg s u) (hu : u ≠ "") :
    Traced cfg k (checkAndRotate cfg s u row.toEntity ip) (fun r h' => Tidy h' ∧
      (∀ u rows, .readSessions (.unrevokedOf u) rows ∉ h') ∧
      ((∃ p, r = .ok p ∧ Issued cfg h' (some s) p) ∨
        ∃ e, r = .error e ∧ .committed ∉ h' ∧ e ≠ tokenReuse)) h := by
  have herr : ∀ e l, e ≠ tokenReuse → Clear l → Tidy (h ++ l) ∧
      (∀ u rows, .readSessions (.unrevokedOf u) rows ∉ h ++ l) ∧
      ((∃ p, (.error e : Except Exc TokenPair) = .ok p ∧ Issued cfg (h ++ l) (some s) p) ∨
        ∃ e', (.error e : Except Exc TokenPair) = .error e' ∧ .committed ∉ h ++ l ∧
          e' ≠ tokenReuse) := by
    intro e l he hcl
    have hn : .committed ∉ h ++ l := by simp [hc.opened.1, hcl.opened.1]
    exact ⟨tidy_of_uncommitted hn, by simp [hc.not_mass, hcl.not_mass], .inr ⟨e, rfl, hn, he⟩⟩
  unfold checkAndRotate UserSession.isExpired
  rw [bind_assoc]
  refine traced_now hl fun t _ hl₁ => ?_
  refine traced_raiseIf (fun _ => herr _ [.clock t] (by simp [tokenReuse, Exc.invalidToken])
    (by simp [Act.plain])) fun hexp => ?_
  refine traced_findUser hl₁ (by simpa [Open] using hc.opened) (by simpa using fun r => hw _)
    (fun hl₂ => ?_) (fun x hsel hne hl₂ => ?_) fun rows hl₂ hq => absurd rfl (hq u)
  · rw [List.append_assoc]
    exact herr _ _ (by simp [tokenReuse, Exc.invalidToken]) (by simp [Act.plain])
  · have hx : x.id = u ∧ x.deletedAt = none := by simpa [UserQuery.selects] using hsel
    refine traced_raiseIf (fun _ => ?_) fun hst => ?_
    · rw [List.append_assoc]
      exact herr _ _ (by simp [tokenReuse, Exc.invalidToken]) (by simp [Act.plain])
    · have hexp' : t ≤ row.expiresAt := by simpa [SessionModel.toEntity] using hexp
      have hin : x.InService := by
        refine ⟨hx.2, fun hm => hst ?_⟩
        have hm' : x.status = .suspended ∨ x.status = .banned := by simpa [lockoutStatuses] using hm
        exact hm'.symm
      have ht : .clock t ∈ h ++ [Act.clock t] ++ [Act.readUsers (.byId u) [x]] := by simp
      refine traced_rotate hl₂ (by simp [hc, Act.plain]) (by simpa using hw) (by simp [hread]) hid
        hrev ht hexp' hk hu ?_ hx.1 hin
      exact ⟨.byId u, [x], by simp, by simp⟩

structure RefreshDone (cfg : Config) (request : Token) (r : Except Exc TokenPair)
    (h : List Act) : Prop where
  tidy : Tidy h
  issued : ∀ p, r = .ok p → ∃ c s, cfg.jose.verify request = some c ∧ c.type = .refresh ∧
    c.jti = some s ∧ (Issued cfg h (some s) p ∨ Replayed cfg h s p)
  reason : ∀ u rows, .readSessions (.unrevokedOf u) rows ∈ h → ∃ c s row t₀ t,
    cfg.jose.verify request = some c ∧ c.type = .refresh ∧ c.jti = some s ∧ u = c.sub ∧
      (∃ t' rest, h = .clock t' :: .readSessions (.byId s) [row] :: rest) ∧
      row.revokedAt = some t₀ ∧ .clock t ∈ h ∧ graceWindow < t - t₀
  detected : r = .error tokenReuse → ∃ c, cfg.jose.verify request = some c ∧ Massed h c.sub
  committed : .committed ∈ h → r = .error tokenReuse ∨ ∃ c s p, cfg.jose.verify request = some c ∧
    c.type = .refresh ∧ c.jti = some s ∧ r = .ok p ∧ Issued cfg h (some s) p
  breach : ∀ s row t₀ t rest, h = .clock t :: .readSessions (.byId s) [row] :: rest →
    row.revokedAt = some t₀ → (∀ t, .clock t ∈ h → graceWindow < t - t₀) →
    r = .error tokenReuse ∨ ∃ a b, .refused (.updateSession a b) ∈ h
  decoded : ∀ c s t rest, cfg.jose.verify request = some c → c.type = .refresh → c.jti = some s →
    s ≠ "" → c.sub ≠ "" → h = .clock t :: rest → wholeSeconds t ≤ c.exp →
    ∃ rows rest', rest = .readSessions (.byId s) rows :: rest'

theorem traced_decodeOr {token : Token} {g : Exc → M Claims} {e : Exc} {f : Claims → M α}
    (hg : g .jwtError = throw e) (hl : Lawful cfg k h)
    (hok : ∀ c t, cfg.jose.verify token = some c → wholeSeconds t ≤ c.exp →
      (∀ t', .clock t' ∈ h → t' ≤ t) → Lawful cfg k (h ++ [Act.clock t]) →
      Traced cfg k (f c) Q (h ++ [Act.clock t]))
    (hbad : cfg.jose.verify token = none → Q (.error e) h)
    (hexp : ∀ c t, cfg.jose.verify token = some c → c.exp < wholeSeconds t →
      Lawful cfg k (h ++ [Act.clock t]) → Q (.error e) (h ++ [Act.clock t])) :
    Traced cfg k (tryCatch (decodeToken cfg token) g >>= f) Q h := by
  refine (Trace.wp_bind _ _ _ _ _).mpr ((Trace.wp_tryCatch _ _ _ _ _).mpr ?_)
  rw [← bind_pure (decodeToken cfg token)]
  refine traced_decodeToken hl hok (fun hv => ?_) fun c t hv ht hl' => ?_
  · rw [Trace.after_error, hg]
    exact hbad hv
  · rw [Trace.after_error, hg]
    exact hexp c t hv ht hl'

section Refresh

variable {request : Token} {c : Claims} {s : String} {t : Time} {row : SessionModel}

theorem refreshDone_unread {e : Exc} {l : List Act} (he : e ≠ tokenReuse) (hcl : Clear l)
    (hr : ∀ q rows, .readSessions q rows ∉ l)
    (hd : ∀ c s t rest, cfg.jose.verify request = some c → c.type = .refresh → c.jti = some s →
      s ≠ "" → c.sub ≠ "" → l = .clock t :: rest → c.exp < wholeSeconds t) :
    RefreshDone cfg request (.error e) l := by
  refine ⟨tidy_of_uncommitted hcl.opened.1, fun p hp => (by cases hp),
    fun u rows hm => absurd hm (hr _ _), fun h => absurd (Except.error.inj h) he,
    fun hm => absurd hm hcl.opened.1, fun s row t₀ t rest hl => ?_, ?_⟩
  · exact absurd (hl ▸ by simp) (hr (.byId s) [row])
  intro c s t rest hv hty hj hs hsub hl ht
  exact absurd (hd c s t rest hv hty hj hs hsub hl) (Int.not_lt.mpr ht)

theorem decoded_of_read (hv : cfg.jose.verify request = some c) (hs : c.jti = some s)
    (rows : List SessionModel) (l : List Act) : ∀ c' s' t' (rest : List Act),
      cfg.jose.verify request = some c' → c'.type = .refresh → c'.jti = some s' → s' ≠ "" →
      c'.sub ≠ "" → [.clock t, .readSessions (.byId s) rows] ++ l = .clock t' :: rest →
      wholeSeconds t' ≤ c'.exp → ∃ rows' rest', rest = .readSessions (.byId s') rows' :: rest' := by
  intro c' s' t' rest hv' _ hj' _ _ hl' _
  rw [hv] at hv'
  cases hv'
  rw [hs] at hj'
  cases hj'
  simp only [List.cons_append, List.nil_append, List.cons.injEq] at hl'
  exact ⟨rows, l, hl'.2.symm⟩

theorem eq_of_read {row' : SessionModel} {s' : String} {t' : Time} {l rest : List Act}
    (h : [.clock t] ++ [Act.readSessions (.byId s) [row]] ++ l =
      .clock t' :: .readSessions (.byId s') [row'] :: rest) : row' = row := by
  simp only [List.cons_append, List.nil_append, List.cons.injEq, Act.readSessions.injEq,
    SessionQuery.byId.injEq, and_true] at h
  exact h.2.1.2.symm

theorem traced_refreshRevoked {t₀ : Time} (hv : cfg.jose.verify request = some c)
    (hty : c.type = .refresh) (hs : c.jti = some s) (hk : k.Refreshes cfg s c.sub)
    (hrev : row.revokedAt = some t₀)
    (hl : Lawful cfg k ([.clock t] ++ [.readSessions (.byId s) [row]])) :
    Traced cfg k (replayOrBreach s c.sub t₀) (RefreshDone cfg request)
      ([.clock t] ++ [.readSessions (.byId s) [row]]) := by
  refine Trace.wp_mono _ (Trace.wp_record _ hl
    (traced_replayOrBreach hl (by simp [Act.reads]) (by simp) hrev hk)) ?_
  rintro r h' ⟨⟨_, l, rfl⟩, hd⟩
  refine ⟨hd.tidy, fun p hp => ⟨c, s, hv, hty, hs, .inr (hd.replayed p hp)⟩, fun u rows hm => ?_,
    fun hr => ⟨c, hv, hd.detected hr⟩, fun hm => .inl (hd.committed hm),
    fun s' row' t₀' t' rest hl' hr' hlate => ?_, decoded_of_read hv hs _ l⟩
  · obtain ⟨rfl, t', ht', hlate⟩ := hd.reason u rows hm
    exact ⟨c, s, row, t₀, t', hv, hty, hs, rfl, ⟨t, l, rfl⟩, hrev, ht', hlate⟩
  · rw [eq_of_read hl', hrev] at hr'
    cases hr'
    exact hd.breach hlate

theorem traced_refreshLive {ip : Option String} (hv : cfg.jose.verify request = some c)
    (hty : c.type = .refresh) (hs : c.jti = some s) (hk : k.Refreshes cfg s c.sub)
    (hsub : c.sub ≠ "") (hid : row.id = s) (hrev : row.revokedAt = none)
    (hl : Lawful cfg k ([.clock t] ++ [.readSessions (.byId s) [row]])) :
    Traced cfg k (checkAndRotate cfg s c.sub row.toEntity ip) (RefreshDone cfg request)
      ([.clock t] ++ [.readSessions (.byId s) [row]]) := by
  refine Trace.wp_mono _ (Trace.wp_record _ hl (traced_checkAndRotate hl (by simp [Act.plain])
    (by simp) (by simp) hid hrev hk hsub)) ?_
  rintro r h' ⟨⟨_, l, rfl⟩, htidy, hmass, hr⟩
  refine ⟨htidy, fun p hp => ?_, fun u rows hm => absurd hm (hmass u rows), fun he => ?_,
    fun hm => .inr ?_, fun s' row' t₀' t' rest hl' hr' _ => ?_, decoded_of_read hv hs _ l⟩
  · subst hp
    rcases hr with ⟨p', hp', hi⟩ | ⟨e, he, -⟩
    · cases hp'
      exact ⟨c, s, hv, hty, hs, .inl hi⟩
    · cases he
  · subst he
    rcases hr with ⟨p', hp', -⟩ | ⟨e, he, -, hne⟩
    · cases hp'
    · exact absurd (Except.error.inj he).symm hne
  · rcases hr with ⟨p', hp', hi⟩ | ⟨e, -, hn, -⟩
    · exact ⟨c, s, p', hv, hty, hs, hp', hi⟩
    · exact absurd hm hn
  · rw [eq_of_read hl', hrev] at hr'
    cases hr'

theorem traced_refreshToken {ip : Option String} (hk : k.isRefresh = true)
    (hreq : request ∈ k.tokens) :
    Traced cfg k (refreshToken cfg request ip) (RefreshDone cfg request) [] := by
  unfold refreshToken
  refine traced_decodeOr rfl .nil (fun c t hv hdec _ hl₁ => ?_) (fun hv => ?_)
    fun c t hv hdec hl₁ => ?_
  · simp only [List.nil_append] at hl₁ ⊢
    refine traced_raiseIf (fun hty => ?_) fun hty => ?_
    · refine refreshDone_unread (by simp [tokenReuse, Exc.invalidToken]) (by simp [Act.plain])
        (by simp) ?_
      intro c' s t' rest hv' hty'
      rw [hv] at hv'
      cases hv'
      exact absurd hty' hty
    have hty' : c.type = .refresh := by simpa using hty
    refine traced_raiseIf (fun hids => ?_) fun hids => ?_
    · refine refreshDone_unread (by simp [tokenReuse, Exc.invalidToken]) (by simp [Act.plain])
        (by simp) ?_
      intro c' s t' rest hv' _ hj hs hsub
      rw [hv] at hv'
      cases hv'
      simp [hj, hs, hsub] at hids
    obtain ⟨hj, hsub⟩ : c.jti.getD "" ≠ "" ∧ c.sub ≠ "" := not_or.mp hids
    obtain ⟨s, hs⟩ : ∃ s, c.jti = some s := by
      cases hc : c.jti with
      | none => simp [hc] at hj
      | some s => exact ⟨s, rfl⟩
    simp only [hs, Option.getD_some]
    have hk' : k.Refreshes cfg s c.sub := ⟨hk, c, ⟨request, hreq, hv⟩, hty', hs, rfl⟩
    refine traced_getSessionById hl₁ (by simp [Open]) (by simp) (fun hl₂ => ?_)
      fun row hid hl₂ => ?_
    · refine ⟨tidy_of_uncommitted (by simp), fun p hp => (by cases hp), by simp,
        fun hr => by simp [tokenReuse, Exc.invalidToken] at hr, fun hm => by simp at hm,
        fun s' row t₀ t' rest hl' => ?_, decoded_of_read hv hs [] []⟩
      simp at hl'
    · cases hrev : row.revokedAt with
      | some t₀ =>
        simp only [show row.toEntity.revokedAt = some t₀ from hrev]
        exact traced_refreshRevoked hv hty' hs hk' hrev hl₂
      | none =>
        simp only [show row.toEntity.revokedAt = none from hrev]
        exact traced_refreshLive hv hty' hs hk' hsub hid hrev hl₂
  · exact refreshDone_unread (by simp [tokenReuse, Exc.invalidToken]) (by simp) (by simp) (by simp)
  · refine refreshDone_unread (by simp [tokenReuse, Exc.invalidToken]) (by simp [Act.plain])
      (by simp) ?_
    intro c' s t' rest hv' _ _ _ _ hl'
    rw [hv] at hv'
    cases hv'
    simp only [List.nil_append, List.cons.injEq, Act.clock.injEq] at hl'
    exact hl'.1 ▸ hdec

end Refresh

def Evicted (h : List Act) : Prop :=
  ∀ a b, .wrote (.updateSession a b) ∈ h → .cacheDeleted (.session a.id) ∈ h

theorem traced_evict {a : SessionModel} (rows : List SessionModel) {u e p : String}
    {d ip : Option String} (t : Time) (hk : k = .authenticate e p d ip) (hl : Lawful cfg k h)
    (hc : Clear h) (he : Evicted h) (hread : .readSessions (.activeOf u t) rows ∈ h)
    (ha : a ∈ rows) (hn : 5 ≤ rows.length) (hu : a.userId = u) (hrev : a.revokedAt = none) :
    Traced cfg k (evict a.toEntity) (fun r h' => Clear h' ∧
      (r = .ok () → Evicted h' ∧ Ended h' a.id)) h := by
  have hsaw : Saw h a := ⟨_, _, hread, ha⟩
  unfold evict
  refine traced_revoke hl (fun t' ht => ?_) fun _ t' hl₁ => ?_
  · change a.revokedAt = some t' at ht
    rw [hrev] at ht
    cases ht
  refine traced_updateSession (x := a) hl₁ (by simpa [Open] using hc.opened)
    (by simpa using hc.not_inserted) hsaw.mono rfl
    ⟨t', rfl, .inl ⟨by simp, a, hsaw.mono, rfl, hrev⟩⟩
    (fun l n _ => Call.authorised_of_not_request (by rw [hk]; rfl) _)
    (fun l hlc => ?_) (fun l hl₂ hcl hup hended => ?_) fun y l hl₂ hcl _ => ?_
  · refine .eviction e p d ip t rows hk ?_ hn ⟨a, ha, (SessionModel.core_id hlc).symm⟩
    rw [SessionModel.core_userId hlc, hu]
    exact List.mem_append_left _ hread
  · rw [← bind_pure (Prog.suppress _)]
    refine traced_suppressDelete hl₂ fun hl₃ => ?_
    refine ⟨by simp [hc, hcl, Act.plain], fun _ => ⟨fun x y hm => ?_, hended.mono _⟩⟩
    have hm' : .wrote (.updateSession x y) ∈ h ∨ .wrote (.updateSession x y) ∈ l := by
      simpa using hm
    rcases hm' with hm' | hm'
    · simp [he x y hm']
    · simp [hup x y hm', SessionModel.toEntity]
  · exact ⟨by simp [hc, hcl, Act.plain], fun hr => by cases hr⟩

theorem traced_openSession {user : User} {x : UserModel} {e p : String} {d d' ip ip' : Option String}
    (hk : k = .authenticate e p d ip) (hl : Lawful cfg k h) (hc : Clear h) (he : Evicted h)
    (hx : SawUser h x) (hid : x.id = user.id) (hne : user.id ≠ "") (hin : x.InService)
    {t : Time} {rows : List SessionModel} (hread : .readSessions (.activeOf user.id t) rows ∈ h)
    (hended : ∀ s ∈ toRevoke (rows.map SessionModel.toEntity), Ended h s.id) :
    Traced cfg k (openSession cfg user d' ip') (fun r h' => Tidy h' ∧
      ∀ resp, r = .ok resp → Issued cfg h' none resp.tokenPair) h := by
  unfold openSession
  refine traced_uuid4 hl fun id hidne hfresh hl₁ => ?_
  refine traced_now hl₁ fun t₁ _ hl₂ => ?_
  refine traced_createToken hl₂ hne hidne (by simp) (by simp [hc.not_signed])
    (by simp [hc.not_inserted]) fun t₂ a hat has han _ hl₃ => ?_
  refine traced_createToken hl₃ hne hidne (by simp) (by simp [hc.not_signed, hat])
    (by simp [hc.not_inserted]) fun t₃ b hbt hbs hbn _ hl₄ => ?_
  unfold UserSession.create
  rw [bind_assoc]
  refine traced_now hl₄ fun t₄ _ hl₅ => ?_
  simp only [List.append_assoc, List.cons_append, List.nil_append] at hl₅ ⊢
  refine traced_write hl₅ ⟨?_, Call.authorised_of_not_request (by rw [hk]; rfl) _, ?_⟩
    (fun hl₆ => ?_) fun y _ _ => ?_
  · simpa [Open] using hc.opened
  · refine ⟨.login e p d ip t₁ t rows hk rfl (by simp) rfl (by simp [UserSession.toModel, hread])
      fun s hs => (hended s hs).mono _, by simp [UserSession.toModel], rfl, by simp [hc.not_inserted],
      ?_, ?_, ⟨x, hx.mono, hid, hin⟩, by simp [hc.not_mass], by simp [hc.not_updated]⟩
    · rintro y ⟨q, rows, hm, hy⟩
      exact hfresh y ⟨q, rows, by simpa using hm, hy⟩
    · simp only [List.mem_append, List.mem_cons, Act.signed.injEq, reduceCtorEq, false_or, or_false,
        List.not_mem_nil, hc.not_signed]
      rintro c (rfl | rfl)
      · exact ⟨han, has⟩
      · exact ⟨hbn, hbs⟩
  · refine traced_commit hl₆ ⟨?_, ?_, ?_⟩ fun hl₇ => ?_
    · simpa [Open] using hc.opened
    · simp [hc.not_mass]
    · simp [hc.not_updated]
    refine traced_suppressSet hl₇ ⟨_, rfl, rfl, .inl ⟨by simp; exact .inr rfl, by simp⟩⟩
      fun hl₈ => ?_
    have htidy : ∀ l, (∀ a b, .wrote (.updateSession a b) ∉ l) →
      (∀ a b, .wrote (.updateUser a b) ∉ l) →
        Tidy (h ++ l) := by
      intro l h1 h2
      refine ⟨fun _ x y hm => .inl ?_, fun _ x y hm => ?_⟩
      · have hm' : .wrote (.updateSession x y) ∈ h := by simpa [h1] using hm
        simp [he x y hm']
      · simp [h2, hc.not_updated] at hm
    simp only [List.append_assoc, List.cons_append, List.nil_append]
    unfold loginResponse
    split
    · exact ⟨htidy _ (by simp) (by simp), fun resp hr => by cases hr⟩
    · refine ⟨htidy _ (by simp) (by simp), fun resp hr => ?_⟩
      cases hr
      exact ⟨_, a, b, by simp; exact .inr rfl, by simp, rfl, by simp, by simp, hat, hbt, rfl⟩
  · have hn : .committed ∉ h := hc.opened.1
    exact ⟨tidy_of_uncommitted (by simp [hn]), fun resp hr => by cases hr⟩

theorem mem_toRevoke {sessions : List UserSession} {s : UserSession}
    (hs : s ∈ toRevoke sessions) : 5 ≤ sessions.length ∧ s ∈ sessions := by
  unfold toRevoke at hs
  split at hs
  · exact ⟨‹_›, List.mem_of_mem_take hs⟩
  · simp at hs

structure LoginDone (cfg : Config) (r : Except Exc LoginResponse) (h : List Act) : Prop where
  tidy : Tidy h
  issued : ∀ resp, r = .ok resp → Issued cfg h none resp.tokenPair

theorem traced_authenticate {e p : String} {d ip : Option String}
    (hk : k = .authenticate e p d ip) :
    Traced cfg k (authenticate cfg e p d ip) (LoginDone cfg) [] := by
  have herr : ∀ e l, .committed ∉ l → LoginDone cfg (.error e) l := fun e l hn =>
    ⟨tidy_of_uncommitted hn, fun resp hr => by cases hr⟩
  unfold authenticate
  refine traced_findUser .nil (by simp [Open]) (by simp) (fun hl₁ => herr _ _ (by simp))
    (fun x hsel hne hl₁ => ?_) fun rows hl₁ _ => herr _ _ (by simp)
  have hx : x.email = e ∧ x.deletedAt = none := by simpa [UserQuery.selects] using hsel
  simp only [List.nil_append] at hl₁ ⊢
  refine (Trace.wp_bind _ _ _ _ _).mpr ?_
  unfold verifyPassword
  cases cfg.checkpw p x.toEntity.hashedPassword with
  | error e => exact herr _ _ (by simp)
  | ok valid =>
    simp only [Trace.wp_ret, Trace.after_ok]
    refine traced_raiseIf (fun _ => herr _ _ (by simp)) fun _ => ?_
    refine traced_raiseIf (fun _ => herr _ _ (by simp)) fun hsus => ?_
    refine traced_raiseIf (fun _ => herr _ _ (by simp)) fun hban => ?_
    refine traced_getActiveSessionsForUser hl₁ (by simp [Open]) (by simp) (by simp)
      fun t rows hr hl₂ => ?_
    refine (Trace.wp_bind _ _ _ _ _).mpr ?_
    refine Trace.wp_forM _ (fun done h' => Lawful cfg k h' ∧ Clear h' ∧ Evicted h' ∧
      (∀ s ∈ done, Ended h' s.id) ∧
      ∃ l, h' = [.readUsers (.byEmail e) [x], .clock t, .readSessions (.activeOf x.id t) rows] ++ l)
      ⟨hl₂, by simp [Act.plain], by simp [Evicted], by simp, [], by simp [UserModel.toEntity]⟩ ?_ ?_
    · rintro done s rest h' hlist ⟨hl₃, hc, hev, hended, l, rfl⟩
      obtain ⟨hn, hs⟩ := mem_toRevoke (hlist ▸ List.mem_append_right done List.mem_cons_self)
      obtain ⟨a, ha, rfl⟩ := List.mem_map.mp hs
      have hsel : (a.userId = x.toEntity.id ∧ a.revokedAt = none) ∧ t < a.expiresAt := by
        simpa [SessionQuery.selects] using hr.selects a ha
      refine Trace.wp_mono _ (Trace.wp_record _ hl₃ (traced_evict rows t hk hl₃ hc hev
        (u := x.id) (by simp) ha (by simpa using hn) hsel.1.1 hsel.1.2)) ?_
      rintro r h' ⟨⟨hl₄, l', rfl⟩, hc', hev'⟩
      cases r with
      | ok _ =>
        refine ⟨hl₄, hc', (hev' rfl).1, fun s hs => ?_, l ++ l', by simp⟩
        rcases List.mem_append.mp hs with hs | hs
        · exact (hended s hs).mono l'
        · rw [List.mem_singleton.mp hs]
          exact (hev' rfl).2
      | error y => exact herr _ _ hc'.opened.1
    · rintro h' ⟨hl₃, hc, hev, hended, l, rfl⟩
      refine Trace.wp_mono _ (traced_openSession hk hl₃ hc hev (x := x)
        ⟨.byEmail e, [x], by simp, by simp⟩ rfl hne ⟨hx.2, ?_⟩ (t := t) (by simp [UserModel.toEntity])
        hended) fun r h' hd => ⟨hd.1, hd.2⟩
      · have h1 : ¬ x.status = .suspended := hsus
        have h2 : ¬ x.status = .banned := hban
        simp [lockoutStatuses, h1, h2]

end

end AsyncPulse
