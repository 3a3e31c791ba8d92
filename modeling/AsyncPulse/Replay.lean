import AsyncPulse.Lockout
set_option autoImplicit false

namespace AsyncPulse
open Effect

variable {γ χ : Type} {cfg : Config} {C : MayCache Key Json γ χ}

/-- Where the revocation of a session comes from. -/
theorem Provenance.revoker {m : Nat → Option Call} {w : World γ} (h : Provenance cfg C m w)
    {s : String} {x : SessionModel} {t : Time} (hx : w.db.sessions.get s = some x)
    (ht : x.revokedAt = some t) :
    ∃ j k l n, m j = some k ∧ .wrote (.updateSession l n) ∈ w.hist j ∧ .committed ∈ w.hist j ∧
      l.id = s ∧ n.revokedAt = some t ∧ k.Ends cfg (w.hist j) l := by
  obtain ⟨j, l, n, hw, hc, hid, hn⟩ := h.revoked s x t hx ht
  obtain ⟨k, h₁, h₂, hm, he, -, -, hrev⟩ := h.wrote hw
  refine ⟨j, k, l, n, hm, hw, hc, hid, hn, ?_⟩
  rw [he]
  exact hrev.reason.mono _

/-- A refresh that revokes all sessions of a user has been given a token whose session an earlier
call revoked, more than 30 seconds ago. -/
theorem breach_after_revocation {log : List (Call × Except Exc Out)} {r : Except Exc Out}
    {token : Token} {ip : Option String} {gap : World γ → World γ → Prop} {w w' : World γ}
    {u : String} {rows : List SessionModel} (hrun : Sequential cfg C gap log w)
    (hcall : (app cfg C).Completed gap log.length (.refreshToken token ip) r w w')
    (hbreach : .readSessions (.unrevokedOf u) rows ∈ w'.hist log.length) :
    ∃ c s x t₀ t, cfg.jose.verify token = some c ∧ c.jti = some s ∧ u = c.sub ∧
      w.db.sessions.get s = some x ∧ x.revokedAt = some t₀ ∧ .clock t ∈ w'.hist log.length ∧
      graceWindow < t - t₀ ∧
      ∃ j k r' l n, log[j]? = some (k, r') ∧ .wrote (.updateSession l n) ∈ w.hist j ∧
        .committed ∈ w.hist j ∧ l.id = s ∧ n.revokedAt = some t₀ ∧ k.Ends cfg (w.hist j) l := by
  have hb := hrun.between
  obtain ⟨start, -, ht⟩ := hb.completed hcall
  obtain ⟨l, hl, -, -, r₀, -, hdone⟩ := ht.finished
  rw [hl] at hbreach ⊢
  obtain ⟨c, s, row, t₀, t, hv, -, hj, hu, ⟨t', rest, rfl⟩, hrev, hclock, hlong⟩ :=
    hdone.reason u rows (by simpa using hbreach)
  have hl' : w'.hist log.length = [.clock t', .readSessions (.byId s) [row]] ++
    (rest ++ [.closed]) := hl
  obtain ⟨rank, hrows⟩ := ht.read hl' (List.mem_cons_of_mem _ (List.mem_singleton_self _)) (by simp)
  have hrow : w.db.sessions.get s = some row :=
    SessionQuery.mem_byId.mp (hrows ▸ List.mem_singleton_self row)
  refine ⟨c, s, row, t₀, t, hv, hj, hu, hrow, hrev, List.mem_append_left _ hclock, hlong, ?_⟩
  obtain ⟨j, k, a, b, hm, hw, hc, hid, hb, hends⟩ := hb.provenance.revoker hrow hrev
  obtain ⟨⟨k', r'⟩, hlog, rfl⟩ := Option.map_eq_some_iff.mp hm
  exact ⟨j, k', r', a, b, hlog, hw, hc, hid, hb, hends⟩

def failure : Except Exc Out → Option Exc
  | .ok _ => none
  | .error e => some e

/-- Alice signs in, refreshes, and much later presents the token that she has used up. -/
theorem breach_after_revocation_alice : ∃ (log : List (Call × Except Exc Out))
    (r : Except Exc Out) (w w' : World (TimedStore Key Json)),
    rehearsal aliceRefreshes = some (log, w) ∧ failure r = some tokenReuse ∧
    ∃ c s x t₀ t, sampleConfig.jose.verify (refreshTokenOf "s1") = some c ∧ c.jti = some s ∧
      "alice" = c.sub ∧ w.db.sessions.get s = some x ∧ x.revokedAt = some t₀ ∧
      .clock t ∈ w'.hist log.length ∧ graceWindow < t - t₀ ∧
      ∃ j k r' l n, log[j]? = some (k, r') ∧ .wrote (.updateSession l n) ∈ w.hist j ∧
        .committed ∈ w.hist j ∧ l.id = s ∧ n.revokedAt = some t₀ ∧
        k.Ends sampleConfig (w.hist j) l := by
  obtain ⟨log, w, r, w', h₀, hrun, hcall, hend⟩ := rehearsed aliceRefreshes 40 ""
    (.refreshToken (refreshTokenOf "s1") none)
    (fun r w' => failure r = some tokenReuse && (w'.hist 2).any (Act.selectsAll "alice"))
    (by decide +kernel)
  have hlen : log.length = 2 := (sequential_of_rehearsal h₀).2.symm
  simp only [Bool.and_eq_true, decide_eq_true_eq, List.any_eq_true] at hend
  obtain ⟨hfail, a, ha, hread⟩ := hend
  obtain ⟨rows, rfl⟩ := Act.selectsAll_iff.mp hread
  exact ⟨log, r, w, w', h₀, hfail, breach_after_revocation hrun
    (hcall.mono fun _ _ hg => hg.1) (hlen ▸ ha)⟩

/-- Alice signs out and in again; the token of the session that she has ended herself costs her
the new one, although no session was ever rotated. -/
theorem breach_after_logout :
    (rehearsal (aliceSignsIn ++ [request 2 "" (.logout "s1"),
      request 3 "s2" (.authenticate "alice@example.org" "secret" none none),
      request 40 "" (.refreshToken (refreshTokenOf "s1") none)])).map (fun y =>
        (y.1.map fun z => failure z.2, y.2.db.sessions.rows.map fun x =>
          (x.id, x.previousSessionId, x.revokedAt))) =
    some ([none, none, none, some tokenReuse],
      [("s1", none, some (seconds 2)), ("s2", none, some (seconds 40))]) := by
  decide +kernel

def signedPair (cfg : Config) (a b : Claims) : TokenPair :=
  { accessToken := cfg.jose.encode a, refreshToken := cfg.jose.encode b }

def graceEntry (cfg : Config) (a b : Claims) : Json := (signedPair cfg a b).toDict

theorem graceEntry_inj {a b a' b' : Claims} (h : graceEntry cfg a b = graceEntry cfg a' b') :
    a = a' ∧ b = b' := by
  have hinj : ∀ {x y : Claims}, cfg.jose.encode x = cfg.jose.encode y → x = y := by
    intro x y hxy
    have hx := cfg.jose.verify_encode x
    rw [hxy, cfg.jose.verify_encode] at hx
    exact (Option.some.inj hx).symm
  simp only [graceEntry, signedPair, TokenPair.toDict, Json.dict.injEq, List.cons.injEq, Prod.mk.injEq,
    JVal.tok.injEq, true_and, and_true] at h
  exact ⟨hinj h.1, hinj h.2⟩

def Elapsed (w : World γ) (p : String) : Prop :=
  ∃ y t₀, w.db.sessions.get p = some y ∧ y.revokedAt = some t₀ ∧ graceWindow < w.clock - t₀

def Call.Targets (k : Call) (x : SessionModel) : Prop :=
  match k with
  | .logout s => x.id = s
  | .logoutAll u | .deleteUser u => x.userId = u
  | .changeStatus u st => x.userId = u ∧ st ∈ lockoutStatuses
  | _ => False

def Call.endsSessions : Call → Bool
  | .logout _ | .logoutAll _ | .deleteUser _ => true
  | .changeStatus _ st => st ∈ lockoutStatuses
  | _ => false

/-- No grace entry that hands out the tokens of session `s` will be replayed. -/
structure Withheld (cfg : Config) (C : MayCache Key Json γ χ) (s : String) (w : World γ) :
    Prop where
  drawn : ∃ j, w.drawn s = some j
  entry : ∀ p a b, C.holds w.cache (.grace p) (graceEntry cfg a b) → a.Names s ∨ b.Names s →
    Elapsed w p

theorem Withheld.tick {s : String} {w : World γ} (h : Withheld cfg C s w) {t : Time}
    (ht : w.clock ≤ t) : Withheld cfg C s (w.setClock t) := by
  refine ⟨h.drawn, fun p a b hv hn => ?_⟩
  obtain ⟨y, t₀, hy, hrev, hlong⟩ := h.entry p a b hv hn
  exact ⟨y, t₀, hy, hrev, Int.lt_of_lt_of_le hlong (Int.sub_le_sub_right ht t₀)⟩

namespace Turn

variable {m : Nat → Option Call} {n : Nat} {k : Call} {r : Except Exc Out} {start : Time}
  {w w' : World γ} (h : Turn cfg C m n k r start w w')
include h

theorem elapsed {p : String} (he : Elapsed (w.setClock start) p) : Elapsed w' p := by
  obtain ⟨y, t₀, hy, hrev, hlong⟩ := he
  refine ⟨y, t₀, h.frozen hy (by simp [hrev]), hrev, ?_⟩
  exact Int.lt_of_lt_of_le hlong (Int.sub_le_sub_right h.alone.played.started t₀)

theorem names_new {x : SessionModel} {c : Claims} {s : String}
    (hx : .wrote (.insertSession x) ∈ w'.hist n) (hc : .signed c ∈ w'.hist n) {j : Nat}
    (hs : w.drawn s = some j) : ¬ c.Names s := by
  intro hn
  obtain ⟨hx', -⟩ := h.lawful.signed_insert hc hx
  exact h.inserts_new hx hs (hx'.unique hn)

theorem stores_new {p : String} {a b : Claims} {ttl : Option Int} {l₁ l₂ : List Act}
    (hl : w'.hist n = l₁ ++ .cacheSet (.grace p) (graceEntry cfg a b) ttl :: l₂) {s : String}
    {j : Nat} (hs : w.drawn s = some j) : ¬ (a.Names s ∨ b.Names s) := by
  have hlaw := h.lawful
  rw [hl] at hlaw
  obtain ⟨x, a', b', hx, -, -, ha, hb, -, -, hv⟩ := hlaw.of_split
  obtain ⟨rfl, rfl⟩ := graceEntry_inj hv
  have hmem : ∀ {e : Act}, e ∈ l₁ → e ∈ w'.hist n := fun he => hl ▸ List.mem_append_left _ he
  intro hn
  cases hn with
  | inl hn => exact h.names_new (hmem hx) (hmem ha) hs hn
  | inr hn => exact h.names_new (hmem hx) (hmem hb) hs hn

theorem withheld {s : String} (hw : Withheld cfg C s (w.setClock start)) :
    Withheld cfg C s w' := by
  obtain ⟨j, hj⟩ := hw.drawn
  refine ⟨⟨j, h.drawn hj⟩, fun p a b hv hn => ?_⟩
  obtain ⟨hold, -⟩ | ⟨ttl, l₁, l₂, hl, -⟩ := h.alone.played.holds _ _ hv
  · exact h.elapsed (hw.entry p a b hold hn)
  · exact absurd hn (h.stores_new hl hj)

theorem hands_out_none {token : Token} {ip : Option String} (hk : k = .refreshToken token ip)
    {s : String} (hw : Withheld cfg C s w) {p : TokenPair} (hr : r = .ok (.pair p)) {c : Claims}
    (hc : cfg.jose.verify p.accessToken = some c ∨ cfg.jose.verify p.refreshToken = some c) :
    ¬ c.Names s := by
  subst hk hr
  obtain ⟨j, hj⟩ := hw.drawn
  obtain ⟨l, hl, -, -, r₀, hr₀, hdone⟩ := h.finished
  obtain ⟨p', rfl, hp⟩ := map_eq_ok hr₀.symm
  cases hp
  have hmem : ∀ {e : Act}, e ∈ l → e ∈ w'.hist n := fun he => hl ▸ List.mem_append_left _ he
  have hcase : ∀ a b : Claims, p = signedPair cfg a b → c = a ∨ c = b := by
    rintro a b rfl
    simp only [signedPair, cfg.jose.verify_encode, Option.some.injEq] at hc
    exact hc.imp Eq.symm Eq.symm
  obtain ⟨c', s', -, -, -, hissued | hreplayed⟩ := hdone.issued p rfl
  · obtain ⟨x, a, b, hx, -, -, ha, hb, -, -, hpair⟩ := hissued
    obtain rfl | rfl := hcase a b hpair
    · exact h.names_new (hmem hx) (hmem ha) hj
    · exact h.names_new (hmem hx) (hmem hb) hj
  · obtain ⟨a, b, hpair, hgot, row, t₀, t, hread, hrev, hclock, hle⟩ := hreplayed
    intro hn
    have hn' : a.Names s ∨ b.Names s := by
      cases hcase a b hpair with
      | inl he => exact .inl (he ▸ hn)
      | inr he => exact .inr (he ▸ hn)
    rw [hpair] at hgot
    obtain ⟨l₁, l₂, hl'⟩ := List.append_of_mem (hmem hgot)
    obtain hv | ⟨ttl, hset⟩ := h.alone.played.got l₁ l₂ _ _ hl'
    · obtain ⟨y, t₁, hy, hyrev, hlong⟩ := hw.entry s' a b hv hn'
      obtain ⟨l₃, l₄, hl₃, -⟩ := h.lawful.of_mem (hmem hread)
      obtain ⟨rank, hrows⟩ := h.alone.played.read l₃ l₄ _ _ hl₃
      have hid : row.id = s' :=
        Keyed.key_of_get (SessionQuery.mem_byId.mp (hrows ▸ List.mem_singleton_self row))
      obtain rfl := h.saw_frozen hy (by simp [hyrev])
        ⟨_, _, hmem hread, List.mem_singleton_self row⟩ hid
      rw [hyrev] at hrev
      cases hrev
      have hstart : w.clock ≤ t :=
        Int.le_trans h.started (h.alone.played.clock t (hmem hclock)).1
      exact absurd (Int.lt_of_lt_of_le hlong (Int.sub_le_sub_right hstart _)) (Int.not_lt.mpr hle)
    · obtain ⟨l₃, l₄, rfl⟩ := List.append_of_mem hset
      rw [List.append_assoc] at hl'
      exact h.stores_new hl' hj hn'

theorem targets (hk : k.endsSessions = true) {s : String} {x y : SessionModel}
    (hx : w.db.sessions.get s = some x) (hlive : x.revokedAt = none)
    (hy : w'.db.sessions.get s = some y) (hrev : y.revokedAt ≠ none) : k.Targets x := by
  obtain ⟨t, ht⟩ := Option.ne_none_iff_exists'.mp hrev
  obtain ⟨a, b, hw, -, rfl, -⟩ := h.revoked hx hlive hy ht
  obtain ⟨k', h₁, h₂, hm, he, -, -, hrevokes⟩ := h.after.provenance.wrote hw
  rw [Function.update_self] at hm
  cases hm
  have hlaw := h.lawful
  rw [he] at hlaw
  cases hrevokes.reason with
  | rotation u hu =>
    have hrefresh := hu.1
    cases k with
    | refreshToken _ _ => cases hk
    | refreshRoute _ _ _ => cases hk
    | _ => cases hrefresh
  | eviction e p d ip t rows hk' _ _ _ =>
    subst hk'
    cases hk
  | logout hk' =>
    subst hk'
    exact Keyed.key_of_get hx
  | logoutRoute t c hk' _ _ =>
    subst hk'
    cases hk
  | mass rows hr _ =>
    obtain ⟨l₃, l₄, rfl, -, -, -, hmass⟩ := hlaw.of_append.of_mem hr
    obtain ⟨z, hz, hcore, -⟩ := h.alone.saw a (he ▸ hrevokes.saw.mono)
    rw [World.setClock_db, hx] at hz
    cases hz
    have hu : x.userId = a.userId := SessionModel.core_userId hcore
    have hall := (hmass a.userId rfl).1
    cases k with
    | logoutAll u => exact hu.trans hall.symm
    | deleteUser u => exact hu.trans hall.symm
    | changeStatus u st => exact ⟨hu.trans hall.1.symm, hall.2⟩
    | logout _ => exact False.elim hall
    | _ => cases hk

end Turn

/-- A grace entry that hands out tokens of a session is that of the session's parent. -/
theorem Provenance.grace_parent {m : Nat → Option Call} {w : World γ} (h : Provenance cfg C m w)
    {p s : String} {a b : Claims} (hv : C.holds w.cache (.grace p) (graceEntry cfg a b))
    (hn : a.Names s ∨ b.Names s) {x : SessionModel} (hx : w.db.sessions.get s = some x) :
    x.previousSessionId = some p := by
  obtain ⟨j, ttl, hset⟩ := h.cached _ _ hv
  obtain ⟨y, a', b', hy, hc, hp, ha, hb, -, -, he⟩ := h.grace_origin hset
  obtain ⟨rfl, rfl⟩ := graceEntry_inj he
  obtain ⟨k, -, hl⟩ := h.lawful_of_mem hy
  have hid : y.id = s := by
    cases hn with
    | inl hn => exact ((hl.signed_insert ha hy).1.unique hn)
    | inr hn => exact ((hl.signed_insert hb hy).1.unique hn)
  obtain ⟨z, hz, hcore⟩ := h.took j _ hy hc
  rw [hid, hx] at hz
  cases hz
  exact (SessionModel.core_previous hcore).trans hp

/-- `k`, made now, ends no session whose tokens a grace entry can still hand out. -/
def GraceSafe (C : MayCache Key Json γ χ) (k : Call) (w : World γ) : Prop :=
  ∀ x ∈ w.db.sessions.rows, x.revokedAt = none → k.Targets x → ∀ p,
    x.previousSessionId = some p → (∀ v, ¬ C.holds w.cache (.grace p) v) ∨ Elapsed w p

/-- No refresh in a run on from `w` hands out a token of the session `s`. -/
def NeverHandedOut (cfg : Config) (C : MayCache Key Json γ χ) (gap : World γ → World γ → Prop)
    (n : Nat) (w : World γ) (s : String) : Prop :=
  ∀ log m w₁ token ip p w₂, (app cfg C).Seq gap n w log m w₁ →
    (app cfg C).Completed gap m (.refreshToken token ip) (.ok (.pair p)) w₁ w₂ → ∀ c,
      cfg.jose.verify p.accessToken = some c ∨ cfg.jose.verify p.refreshToken = some c →
        ¬ c.Names s

/-- The sessions that a logout or a lockout ends are not handed out again, if no grace entry of
their parents can be replayed when it is made. -/
theorem grace_withheld {log : List (Call × Except Exc Out)} {k : Call} {r : Except Exc Out}
    {gap : World γ → World γ → Prop} {start : Time} {w w' : World γ} {s : String}
    {x y : SessionModel} (hrun : Sequential cfg C gap log w) (hk : k.endsSessions = true)
    (hcall : (app cfg C).Completed (fun _ w₁ => w₁.clock = start) log.length k r w w')
    (hsafe : GraceSafe C k (w.setClock start)) (hx : w.db.sessions.get s = some x)
    (hlive : x.revokedAt = none) (hy : w'.db.sessions.get s = some y) (hrev : y.revokedAt ≠ none) :
    NeverHandedOut cfg C gap (log.length + 1) w' s := by
  have hb := hrun.between
  obtain ⟨start', hstart, ht⟩ := hb.completed hcall
  obtain rfl : start' = start := hstart
  have htarget := ht.targets hk hx hlive hy hrev
  obtain ⟨j, hj⟩ := hb.provenance.drawn_of_row hx
  -- What an entry can hand out of the session is kept under its parent's key.
  have hwithheld : Withheld cfg C s (w.setClock start') := by
    refine ⟨⟨j, hj⟩, fun p a b hv hn => ?_⟩
    have hprev := hb.provenance.grace_parent hv hn hx
    cases hsafe x (Keyed.mem_of_get hx) hlive htarget p hprev with
    | inl hnone => exact absurd hv (hnone _)
    | inr helapsed => exact helapsed
  intro log' m w₁ token ip p w₂ hlater hrefresh c hc
  obtain ⟨m', hb₁, hw₁⟩ := ht.after.seq
    (fun _ _ _ _ _ _ _ _ ht' hw => ht'.withheld (hw.tick ht'.started)) (ht.withheld hwithheld)
    hlater
  obtain ⟨start₁, -, ht₁⟩ := hb₁.completed hrefresh
  exact ht₁.hands_out_none rfl hw₁ rfl hc

/-- Alice refreshes, and signs out when the grace window of her first session is over. -/
theorem grace_withheld_alice : ∃ (log : List (Call × Except Exc Out))
    (w w' : World (TimedStore Key Json)) (x y : SessionModel),
    rehearsal aliceRefreshes = some (log, w) ∧ w.db.sessions.get "s2" = some x ∧
    x.revokedAt = none ∧ w'.db.sessions.get "s2" = some y ∧ y.revokedAt ≠ none ∧
    NeverHandedOut sampleConfig TimedStore.reliable Later (log.length + 1) w' "s2" := by
  obtain ⟨log, w, r, w', h₀, hrun, hcall, hend⟩ := rehearsed aliceRefreshes 40 "" (.logout "s2")
    (fun _ w' => (w'.db.sessions.get "s2").any fun y => y.revokedAt ≠ none) (by decide +kernel)
  have hstart : (rehearsal aliceRefreshes).any (fun y =>
      (y.2.db.sessions.get "s2").any (fun x => x.revokedAt = none) &&
      (y.2.db.sessions.get "s1").any (fun x => x.revokedAt = some (seconds 2)) &&
      y.2.db.sessions.rows.all fun x => x.previousSessionId.all fun p => p = "s1") = true := by
    decide +kernel
  simp only [h₀, Option.any_some, Bool.and_eq_true, Option.any_eq_true, decide_eq_true_eq,
    List.all_eq_true, Option.all_eq_true] at hstart hend
  obtain ⟨⟨⟨x, hx, hlive⟩, z, hz, hrotated⟩, hparents⟩ := hstart
  obtain ⟨y, hy, hrev⟩ := hend
  have hsafe : GraceSafe TimedStore.reliable (.logout "s2") (w.setClock (seconds 40)) := by
    intro x' hx' _ _ p hp
    obtain rfl := hparents x' hx' p hp
    have hlong : graceWindow < seconds 40 - seconds 2 := by decide
    exact .inr ⟨z, seconds 2, hz, hrotated, hlong⟩
  exact ⟨log, w, w', x, y, h₀, hx, hlive, hy, hrev, grace_withheld hrun rfl
    (hcall.mono fun _ _ hg => hg.2) hsafe hx hlive hy hrev⟩

def grantsAccess (cfg : Config) (s : String) : Except Exc Out → Bool
  | .ok (.pair p) => (cfg.jose.verify p.accessToken).any fun c =>
      c.type = .access && c.sid = some s && c.jti = none
  | _ => false

theorem grantsAccess_eq_true {r : Except Exc Out} {s : String} (h : grantsAccess cfg s r = true) :
    ∃ p c, r = .ok (.pair p) ∧ cfg.jose.verify p.accessToken = some c ∧ c.Names s := by
  unfold grantsAccess at h
  split at h
  · obtain ⟨c, hc, hnames⟩ := (Option.any_eq_true _ _).mp h
    simp only [Bool.and_eq_true, decide_eq_true_eq] at hnames
    refine ⟨_, c, rfl, hc, ?_⟩
    simp [Claims.Names, hnames]
  · cases h

/-- Alice refreshes and signs out. Within the grace window her first token still gets her the pair
of the session that she has ended. -/
theorem grace_after_logout : ∃ (log : List (Call × Except Exc Out))
    (w : World (TimedStore Key Json)),
    rehearsal (aliceRefreshes ++ [request 3 "" (.logout "s2")]) = some (log, w) ∧
    (w.db.sessions.get "s2").map (·.revokedAt) = some (some (seconds 3)) ∧
    ¬ NeverHandedOut sampleConfig TimedStore.reliable Later log.length w "s2" := by
  obtain ⟨log, w, r, w', h₀, hrun, hcall, hend⟩ :=
    rehearsed (aliceRefreshes ++ [request 3 "" (.logout "s2")]) 4 ""
      (.refreshToken (refreshTokenOf "s1") none)
      (fun r _ => grantsAccess sampleConfig "s2" r) (by decide +kernel)
  have hrow : (rehearsal (aliceRefreshes ++ [request 3 "" (.logout "s2")])).map (fun y =>
      (y.2.db.sessions.get "s2").map (·.revokedAt)) = some (some (some (seconds 3))) := by
    decide +kernel
  rw [h₀] at hrow
  refine ⟨log, w, h₀, Option.some.inj hrow, fun hnever => ?_⟩
  obtain ⟨p, c, rfl, hc, hn⟩ := grantsAccess_eq_true hend
  exact hnever [] _ w _ none p w' (.nil _ _) (hcall.mono fun _ _ hg => hg.1) c (.inl hc) hn

end AsyncPulse
