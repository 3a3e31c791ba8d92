import AsyncPulse.Coherence
set_option autoImplicit false

namespace AsyncPulse
open Effect

variable {γ χ : Type} {cfg : Config} {C : MayCache Key Json γ χ}

/-- The id has been drawn, and no unrevoked row goes by it. -/
structure Over (w : World γ) (s : String) : Prop where
  drawn : ∃ j, w.drawn s = some j
  row : ∀ x, w.db.sessions.get s = some x → x.revokedAt ≠ none

/-- A token whose user has no unrevoked session names a session that is over. -/
theorem Provenance.minted_over {m : Nat → Option Call} {w : World γ} (h : Provenance cfg C m w)
    {c : Claims} (hc : c ∈ w.minted)
    (hall : ∀ x ∈ w.db.sessions.rows, x.userId = c.sub → x.revokedAt ≠ none) :
    ∃ s, c.Names s ∧ Over w s := by
  obtain ⟨s, -, hn, hdrawn⟩ := h.minted_drawn hc
  refine ⟨s, hn, hdrawn, fun x hx => ?_⟩
  exact hall x (Keyed.mem_of_get hx) (h.token_owner hx hc hn)

theorem Call.Presents.unique {k : Call} (hk : k.isRefresh = true) {c c' : Claims}
    (h : k.Presents cfg c) (h' : k.Presents cfg c') : c' = c := by
  obtain ⟨t, ht, hv⟩ := h
  obtain ⟨t', ht', hv'⟩ := h'
  have htok : t = t' := by
    cases k with
    | refreshToken _ _ => exact (List.mem_singleton.mp ht).trans (List.mem_singleton.mp ht').symm
    | refreshRoute _ _ _ =>
      exact Option.some.inj ((Option.mem_toList.mp ht).symm.trans (Option.mem_toList.mp ht'))
    | _ => cases hk
  rw [htok, hv'] at hv
  exact Option.some.inj hv

namespace Turn

variable {m : Nat → Option Call} {n : Nat} {k : Call} {r : Except Exc Out} {start : Time}
  {w w' : World γ} (h : Turn cfg C m n k r start w w')
include h

theorem stays_over {s : String} (ho : Over w s) : Over w' s := by
  obtain ⟨j, hj⟩ := ho.drawn
  refine ⟨⟨j, h.drawn hj⟩, fun x hx => ?_⟩
  cases hs : w.db.sessions.get s with
  | some y =>
    rw [h.frozen hs (ho.row y hs)] at hx
    cases hx
    exact ho.row x hs
  | none =>
    obtain ⟨y, hw, -, hid, -⟩ := h.inserted hs hx
    exact absurd hid (h.inserts_new hw hj)

theorem rejects (hc : Coherent C w) (hlate : w.clock < start) {token : Token}
    (hk : k = .getCurrentUser token) {c : Claims} {s : String}
    (hv : cfg.jose.verify token = some c) (hn : c.Names s) (ho : Over w s) :
    ∃ msg, r = .error (.invalidToken msg) := by
  cases hty : c.type with
  | access =>
    obtain ⟨r₀, t, t', -, rfl, -, -, -, hverdict⟩ := h.gate hc hlate hk hv hty
    generalize hg : tableGate w.db c t t' = o at hverdict
    cases hverdict with
    | rejected msg => exact ⟨msg, rfl⟩
    | passed x z _ =>
      obtain ⟨row, hrow, -, -, -, hlive, -⟩ := (tableGate_eq_some (hn.sid hty)).mp hg
      exact absurd hlive (ho.row row hrow)
  | refresh =>
    subst hk
    obtain ⟨l, -, -, -, r₀, rfl, hdone⟩ := h.finished
    cases hdone with
    | refused msg _ _ _ => exact ⟨msg, rfl⟩
    | ran c' _ _ _ hv' hty' _ _ _ _ =>
      rw [hv] at hv'
      cases hv'
      rw [hty] at hty'
      cases hty'

theorem inserts_nothing (hk : k.isRefresh = true) {c : Claims} (hc : k.Presents cfg c) {s : String}
    (hn : ∀ s', c.jti = some s' → s' = s) (ho : Over w s) (y : SessionModel) :
    .wrote (.insertSession y) ∉ w'.hist n := by
  intro hw
  obtain ⟨k', h₁, h₂, hm, he, -, -, hop⟩ := h.after.provenance.wrote hw
  rw [Function.update_self] at hm
  cases hm
  cases hop.origin with
  | login _ _ _ _ _ _ _ hlogin =>
    subst hlogin
    cases hk
  | rotation row rows _ _ hrefresh hread hrow hlive =>
    obtain ⟨-, c', hc', -, hjti, -⟩ := hrefresh
    obtain rfl := hc.unique hk hc'
    obtain ⟨z, hz, -, hsame⟩ := h.alone.saw row ⟨_, rows, he ▸ List.mem_append_left _ hread, hrow⟩
    rw [hn row.id hjti] at hz
    have hrev := ho.row z hz
    rw [← hsame hrev] at hrev
    exact hrev hlive

theorem opens_nothing {token : Token} {ip : Option String} (hk : k = .refreshToken token ip)
    {c : Claims} {s : String} (hv : cfg.jose.verify token = some c) (hn : c.Names s)
    (ho : Over w s) {s' : String} {x : SessionModel} (hx : w'.db.sessions.get s' = some x) :
    ∃ y, w.db.sessions.get s' = some y := by
  subst hk
  cases hs : w.db.sessions.get s' with
  | some y => exact ⟨y, rfl⟩
  | none =>
    obtain ⟨y, hw, -⟩ := h.inserted hs hx
    exact absurd hw (h.inserts_nothing rfl ⟨token, List.mem_singleton_self token, hv⟩
      (fun s' hj => hn.eq_of_jti hj) ho y)

theorem massed {u : String} {rows : List SessionModel} (hc : .committed ∈ w'.hist n)
    (hm : .readSessions (.unrevokedOf u) rows ∈ w'.hist n) :
    ∀ x ∈ w'.db.sessions.rows, x.userId = u → x.revokedAt ≠ none := by
  intro x hx hu
  have hx' := Keyed.get_of_mem hx
  cases hs : w.db.sessions.get x.id with
  | some y =>
    obtain ⟨z, hz, hcore, hrev⟩ := h.grows.sessions _ y hs
    rw [hx'] at hz
    cases hz
    by_cases hlive : y.revokedAt = none
    · have hy : y ∈ rows :=
        h.found hm (Keyed.mem_of_get hs) ((SessionModel.core_userId hcore).symm.trans hu) hlive
      obtain ⟨h₁, h₂, he⟩ := List.append_of_mem hc
      have hlaw := h.lawful
      rw [he] at hlaw hm
      have hm₁ : .readSessions (.unrevokedOf u) rows ∈ h₁ :=
        hlaw.before_commit (by simpa using hm) fun _ hl => hl.1
      obtain ⟨b, hb⟩ := hlaw.of_split.2.1 u rows hm₁ y hy
      obtain ⟨z, hz, hzr⟩ := h.after.provenance.took n (.updateSession y b)
        (by rw [he]; exact List.mem_append_left _ hb) hc
      rw [Keyed.key_of_get hs, hx'] at hz
      cases hz
      exact hzr
    · exact hrev hlive
  | none =>
    -- A call that inserts a session does not revoke others as a whole.
    obtain ⟨y, hw, -⟩ := h.inserted hs hx'
    obtain ⟨_, h₁, h₂, -, he, -, -, hop⟩ := h.after.provenance.wrote hw
    rw [he] at hm
    obtain hm | hm := List.mem_append.mp hm
    · exact absurd hm (hop.apart.1 u rows)
    · obtain ⟨h₃, h₄, rfl⟩ := List.append_of_mem (by simpa using hm :
        .readSessions (.unrevokedOf u) rows ∈ h₂)
      have hlaw := h.lawful
      rw [he, ← List.cons_append, ← List.append_assoc] at hlaw
      exact absurd (by simp) (hlaw.of_split.2.1 y)

end Turn

/-- The tokens signed for `u` so far are of no use in any run on from `w`: the gate turns them
away, and refreshing with them opens no session. -/
def ShutOut (cfg : Config) (C : MayCache Key Json γ χ) (n : Nat) (w : World γ) (u : String) :
    Prop :=
  ∀ log m w₁ k r w₂, (app cfg C).Seq Later n w log m w₁ →
    (app cfg C).Completed Later m k r w₁ w₂ → ∀ c ∈ w.minted, c.sub = u →
      (∀ token, k = .getCurrentUser token → cfg.jose.verify token = some c →
        ∃ msg, r = .error (.invalidToken msg)) ∧
      ∀ token ip, k = .refreshToken token ip → cfg.jose.verify token = some c →
        ∀ s x, w₂.db.sessions.get s = some x → ∃ y, w₁.db.sessions.get s = some y

theorem Sequential.shutOut {log : List (Call × Except Exc Out)} {w : World γ} {u : String}
    (hex : C.Exact) (h : Sequential cfg C Later log w)
    (hall : ∀ x ∈ w.db.sessions.rows, x.userId = u → x.revokedAt ≠ none) :
    ShutOut cfg C log.length w u := by
  intro log' m w₁ k r w₂ hseq hcall c hc hu
  obtain ⟨hb, hcoh⟩ := h.coherent hex
  obtain ⟨s, hn, ho⟩ := hb.provenance.minted_over hc (hu ▸ hall)
  obtain ⟨m', hb₁, hcoh₁, ho₁⟩ := hb.seq (I := fun w => Coherent C w ∧ Over w s)
    (fun _ _ _ _ _ _ _ _ ht hi => ⟨ht.coherent hex hi.1, ht.stays_over hi.2⟩) ⟨hcoh, ho⟩ hseq
  obtain ⟨start, hlate, ht⟩ := hb₁.completed hcall
  exact ⟨fun token hk hv => ht.rejects hcoh₁ hlate hk hv hn ho₁,
    fun token ip hk hv s' x hx => ht.opens_nothing hk hv hn ho₁ hx⟩

theorem Turn.reuse {m : Nat → Option Call} {n : Nat} {r : Except Exc Out} {start : Time}
    {w w' : World γ} {token : Token} {ip : Option String}
    (h : Turn cfg C m n (.refreshToken token ip) r start w w') {c : Claims} {s : String}
    {row : SessionModel} {t₀ t : Time} {rest : List Act} (hv : cfg.jose.verify token = some c)
    (hty : c.type = .refresh) (hjti : c.jti = some s) (hrow : w.db.sessions.get s = some row)
    (hrev : row.revokedAt = some t₀) (hfirst : w'.hist n = .clock t :: rest)
    (hdec : wholeSeconds t ≤ c.exp) (hlong : graceWindow < t - t₀) :
    r = .error tokenReuse ∧ .committed ∈ w'.hist n ∧
      ∃ rows, .readSessions (.unrevokedOf c.sub) rows ∈ w'.hist n := by
  have hprov := h.after.provenance
  have hmint : c ∈ w'.minted :=
    hprov.presented n _ c (Function.update_self _ _ _) ⟨token, by simp [Call.tokens], hv⟩
  obtain ⟨s', hne, hnames⟩ := hprov.names hmint
  obtain rfl := hnames.eq_of_jti hjti
  obtain ⟨l, hl, -, -, r₀, rfl, hdone⟩ := h.finished
  obtain ⟨l', rfl⟩ : ∃ l', l = .clock t :: l' := by
    rw [hl] at hfirst
    cases l with
    | nil => cases hfirst
    | cons a l => exact ⟨l, by rw [(List.cons.inj hfirst).1]⟩
  obtain ⟨rows, l₂, rfl⟩ := hdone.decoded c s t l' hv hty hjti hne (hprov.sub_ne hmint) rfl hdec
  have hl' : w'.hist n = [.clock t, .readSessions (.byId s) rows] ++ (l₂ ++ [Act.closed]) := hl
  obtain ⟨rank, rfl⟩ := h.read hl' (List.mem_cons_of_mem _ (List.mem_singleton_self _)) (by simp)
  rw [SessionQuery.eval_byId hrow] at hl hdone
  have hplay := h.alone.played
  have hall : ∀ t', .clock t' ∈ Act.clock t :: .readSessions (.byId s) [row] :: l₂ →
      graceWindow < t' - t₀ := by
    intro t' ht'
    have hle : t ≤ t' := by
      obtain he | hm := List.mem_cons.mp ht'
      · cases he
        exact Int.le_refl t
      · obtain ⟨l₃, l₄, he⟩ := List.append_of_mem hm
        refine hplay.ordered (.clock t :: l₃) (l₄ ++ [Act.closed]) t' ?_ t (by simp)
        rw [hl, he]
        simp
    exact Int.lt_of_lt_of_le hlong (Int.sub_le_sub_right hle t₀)
  have hrefused : ∀ a b,
      .refused (.updateSession a b) ∉ Act.clock t :: .readSessions (.byId s) [row] :: l₂ := by
    intro a b hm
    obtain ⟨l₃, l₄, he⟩ := List.append_of_mem hm
    obtain hno | hno := hplay.refused l₃ (l₄ ++ [Act.closed]) (.updateSession a b)
      (by rw [hl, he]; simp)
    · cases hno
    · cases hno
  obtain rfl | ⟨a, b, hab⟩ := hdone.breach s row t₀ t l₂ rfl hrev hall
  · obtain ⟨c', hv', hcom, rows, hm⟩ := hdone.detected rfl
    rw [hv] at hv'
    cases hv'
    refine ⟨rfl, ?_, rows, ?_⟩
    · rw [hl]
      exact List.mem_append_left _ hcom
    · rw [hl]
      exact List.mem_append_left _ hm
  · exact absurd hab (hrefused a b)

/-- A refresh token whose session was rotated more than 30 seconds ago is recognised, and its user
is shut out. -/
theorem reuse_shuts_down {log : List (Call × Except Exc Out)} {r : Except Exc Out} {token : Token}
    {ip : Option String} {c : Claims} {s : String} {x : SessionModel} {w w' : World γ} {t : Time}
    {rest : List Act} (hex : C.Exact) (hrun : Sequential cfg C Later log w)
    (hcall : (app cfg C).Completed Later log.length (.refreshToken token ip) r w w')
    (hv : cfg.jose.verify token = some c) (hty : c.type = .refresh) (hjti : c.jti = some s)
    (hx : x ∈ w.db.sessions.rows) (hprev : x.previousSessionId = some s)
    (hfirst : w'.hist log.length = .clock t :: rest) (hdec : wholeSeconds t ≤ c.exp) :
    ∃ row t₀, w.db.sessions.get s = some row ∧ row.revokedAt = some t₀ ∧
      (graceWindow < t - t₀ → r = .error tokenReuse ∧
        ShutOut cfg C (log.length + 1) w' c.sub) := by
  have hb := hrun.between
  obtain ⟨start, -, ht⟩ := hb.completed hcall
  obtain ⟨row, hrow, hrev, -⟩ := hb.provenance.parent hx hprev
  obtain ⟨t₀, ht₀⟩ := Option.ne_none_iff_exists'.mp hrev
  refine ⟨row, t₀, hrow, ht₀, fun hlong => ?_⟩
  obtain ⟨rfl, hcom, rows, hm⟩ := ht.reuse hv hty hjti hrow ht₀ hfirst hdec hlong
  refine ⟨rfl, ?_⟩
  have hout := (hrun.completed hcall).shutOut hex (ht.massed hcom hm)
  rwa [List.length_append] at hout

def aliceRefreshes : List (Choice Unit × Call × List (Choice Unit)) :=
  aliceSignsIn ++ [request 2 "s2" (.refreshToken (refreshTokenOf "s1") none)]

theorem reuse_shuts_down_alice : ∃ (log : List (Call × Except Exc Out)) (r : Except Exc Out)
    (w w' : World (TimedStore Key Json)), rehearsal aliceRefreshes = some (log, w) ∧
    (w.db.sessions.get "s1").bind SessionModel.revokedAt = some (seconds 2) ∧
    (w'.hist log.length).head? = some (.clock (seconds 40)) ∧ r = .error tokenReuse ∧
    ShutOut sampleConfig TimedStore.reliable (log.length + 1) w' "alice" := by
  obtain ⟨log, w, r, w', h₀, hrun, hcall, hend⟩ := rehearsed aliceRefreshes 40 ""
    (.refreshToken (refreshTokenOf "s1") none)
    (fun r w' => !r.isOk && (w'.hist 2).head? = some (.clock (seconds 40))) (by decide +kernel)
  have hstart : (rehearsal aliceRefreshes).any (fun y => y.1.length = 2 &&
      (y.2.db.sessions.get "s1").bind SessionModel.revokedAt = some (seconds 2) &&
      y.2.db.sessions.rows.any fun x => x.previousSessionId = some "s1") = true := by
    decide +kernel
  simp only [h₀, Option.any_some, Bool.and_eq_true, decide_eq_true_eq, List.any_eq_true] at hstart
  obtain ⟨⟨hlen, hrevoked⟩, x, hx, hprev⟩ := hstart
  simp only [Bool.and_eq_true, Bool.not_eq_true', decide_eq_true_eq] at hend
  have hhead : (w'.hist log.length).head? = some (.clock (seconds 40)) := hlen ▸ hend.2
  obtain ⟨rest, hrest⟩ := List.head?_eq_some_iff.mp hhead
  obtain ⟨row, t₀, hrow, ht₀, hshut⟩ := reuse_shuts_down TimedStore.reliable_exact hrun
    (hcall.mono fun _ _ hg => hg.1) rfl rfl rfl hx hprev hrest (by decide)
  have hat : t₀ = seconds 2 := by simpa [hrow, ht₀] using hrevoked
  subst hat
  exact ⟨log, r, w, w', h₀, hrevoked, hhead, hshut (by decide)⟩

end AsyncPulse
