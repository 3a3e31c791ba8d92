import AsyncPulse.Audit
set_option autoImplicit false

namespace AsyncPulse
open Effect

namespace Lawful

variable {cfg : Config} {k : Call} {h : List Act}

theorem signed_unique (hl : Lawful cfg k h) {a b : Claims} (ha : .signed a ∈ h)
    (hb : .signed b ∈ h) (ht : a.type = b.type) : a = b := by
  induction hl with
  | nil => simp at ha
  | @snoc h x hl hx ih =>
    rcases List.mem_append.mp ha with ha | ha <;> rcases List.mem_append.mp hb with hb | hb
    · exact ih ha hb
    · rw [← List.mem_singleton.mp hb] at hx
      exact absurd ht (hx.2.2.1 a ha)
    · rw [← List.mem_singleton.mp ha] at hx
      exact absurd ht.symm (hx.2.2.1 b hb)
    · have he := (List.mem_singleton.mp ha).trans (List.mem_singleton.mp hb).symm
      simpa using he

theorem signed_insert (hl : Lawful cfg k h) {c : Claims} {r : SessionModel} (hc : .signed c ∈ h)
    (hr : .wrote (.insertSession r) ∈ h) : c.Names r.id ∧ c.sub = r.userId := by
  induction hl with
  | nil => simp at hc
  | @snoc h x hl hx ih =>
    rcases List.mem_append.mp hc with hc | hc <;> rcases List.mem_append.mp hr with hr | hr
    · exact ih hc hr
    · rw [← List.mem_singleton.mp hr] at hx
      exact hx.2.2.tokens c hc
    · rw [← List.mem_singleton.mp hc] at hx
      exact absurd hr (hx.2.2.2 r)
    · have he := (List.mem_singleton.mp hc).trans (List.mem_singleton.mp hr).symm
      simp at he

end Lawful

/-- `p` is made of the tokens of a committed session, issued to the session's user. -/
def Backed (cfg : Config) (d : Database) (p : TokenPair) : Prop :=
  ∃ a b row, p = { accessToken := cfg.jose.encode a, refreshToken := cfg.jose.encode b } ∧
    d.sessions.get row.id = some row ∧ a.type = .access ∧ a.sid = some row.id ∧
    a.sub = row.userId ∧ b.type = .refresh ∧ b.jti = some row.id ∧ b.sub = row.userId

theorem Claims.Names.sid {c : Claims} {s : String} (h : c.Names s) (ht : c.type = .access) :
    c.sid = some s := by
  simp only [Names, ht] at h
  exact h.1

theorem Claims.Names.jti {c : Claims} {s : String} (h : c.Names s) (ht : c.type = .refresh) :
    c.jti = some s := by
  simp only [Names, ht] at h
  exact h.1

variable {γ χ : Type} {cfg : Config} {C : MayCache Key Json γ χ}

namespace Provenance

variable {m : Nat → Option Call} {w : World γ}

/-- The call that inserted a session has signed the session's tokens, and no other call has. -/
theorem signer (h : Provenance cfg C m w) {s : String} {x : SessionModel} {c : Claims} {j : Nat}
    (hx : w.db.sessions.get s = some x) (hc : .signed c ∈ w.hist j) (hn : c.Names s) :
    x.userId = c.sub ∧ ∃ r, .wrote (.insertSession r) ∈ w.hist j ∧ r.id = s := by
  obtain ⟨i, r, hw, -, rfl, hcore⟩ := h.row s x hx
  have hd := h.drawn_of_inserted hw
  obtain ⟨k', -, hl'⟩ := h.lawful_of_mem hc
  obtain ⟨h₁', h₂', he', -, ⟨s', -, hdr, hn'⟩, -⟩ := hl'.of_mem hc
  obtain rfl := hn.unique hn'
  have hd' : w.drawn r.id = some j := (h.drawn _ _).mpr (he' ▸ List.mem_append_left _ hdr)
  rw [hd] at hd'
  cases hd'
  exact ⟨(SessionModel.core_userId hcore).trans (hl'.signed_insert hc hw).2.symm, r, hw, rfl⟩

theorem token_owner (h : Provenance cfg C m w) {s : String} {x : SessionModel} {c : Claims}
    (hx : w.db.sessions.get s = some x) (hc : c ∈ w.minted) (hn : c.Names s) :
    x.userId = c.sub := by
  obtain ⟨j, hj⟩ := (h.minted c).mp hc
  exact (h.signer hx hj hn).1

theorem minted_drawn (h : Provenance cfg C m w) {c : Claims} (hc : c ∈ w.minted) :
    ∃ s, s ≠ "" ∧ c.Names s ∧ ∃ j, w.drawn s = some j := by
  obtain ⟨j, hj⟩ := (h.minted c).mp hc
  obtain ⟨k, -, hl⟩ := h.lawful_of_mem hj
  obtain ⟨h₁, h₂, he, -, ⟨s, hs, hd, hn⟩, -⟩ := hl.of_mem hj
  exact ⟨s, hs, hn, j, (h.drawn s j).mpr (he ▸ List.mem_append_left _ hd)⟩

theorem names (h : Provenance cfg C m w) {c : Claims} (hc : c ∈ w.minted) :
    ∃ s, s ≠ "" ∧ c.Names s := by
  obtain ⟨s, hs, hn, -⟩ := h.minted_drawn hc
  exact ⟨s, hs, hn⟩

theorem refreshed_owner (h : Provenance cfg C m w) {j : Nat} {k : Call} (hm : m j = some k)
    {s u : String} (hk : k.Refreshes cfg s u) {x : SessionModel}
    (hx : w.db.sessions.get s = some x) : x.userId = u := by
  obtain ⟨-, c, hc, -, hj, hu⟩ := hk
  have hmint := h.presented j k c hm hc
  obtain ⟨s', -, hn⟩ := h.names hmint
  rw [hn.eq_of_jti hj] at hx
  exact (h.token_owner hx hmint hn).trans hu

theorem backed (h : Provenance cfg C m w) {j : Nat} {r : SessionModel} {a b : Claims}
    (hr : .wrote (.insertSession r) ∈ w.hist j) (hc : .committed ∈ w.hist j)
    (ha : .signed a ∈ w.hist j) (hb : .signed b ∈ w.hist j) (hat : a.type = .access)
    (hbt : b.type = .refresh) : Backed cfg w.db
      { accessToken := cfg.jose.encode a, refreshToken := cfg.jose.encode b } := by
  obtain ⟨x, hx, hcore⟩ := h.took j _ hr hc
  obtain ⟨k, -, hl⟩ := h.lawful_of_mem hr
  obtain ⟨han, has⟩ := hl.signed_insert ha hr
  obtain ⟨hbn, hbs⟩ := hl.signed_insert hb hr
  have hid : x.id = r.id := Keyed.key_of_get hx
  have hu : x.userId = r.userId := SessionModel.core_userId hcore
  rw [← hid] at han hbn hx
  exact ⟨a, b, x, rfl, hx, hat, han.sid hat, has.trans hu.symm, hbt, hbn.jti hbt, hbs.trans hu.symm⟩

theorem grace_origin (h : Provenance cfg C m w) {j : Nat} {p : String} {v : Json} {ttl : Option Int}
    (hs : .cacheSet (.grace p) v ttl ∈ w.hist j) :
    ∃ r a b, .wrote (.insertSession r) ∈ w.hist j ∧ .committed ∈ w.hist j ∧
      r.previousSessionId = some p ∧ .signed a ∈ w.hist j ∧ .signed b ∈ w.hist j ∧
      a.type = .access ∧ b.type = .refresh ∧ v = TokenPair.toDict
        { accessToken := cfg.jose.encode a, refreshToken := cfg.jose.encode b } := by
  obtain ⟨k, -, hl⟩ := h.lawful_of_mem hs
  obtain ⟨h₁, h₂, he, r, a, b, hr, hc, hp, ha, hb, hat, hbt, hv⟩ := hl.of_mem hs
  rw [he]
  exact ⟨r, a, b, List.mem_append_left _ hr, List.mem_append_left _ hc, hp,
    List.mem_append_left _ ha, List.mem_append_left _ hb, hat, hbt, hv⟩

/-- Where a session entry comes from: it projects the row, possibly as it was before it was
revoked. -/
theorem session_origin (h : Provenance cfg C m w) {j : Nat} {s : String} {v : Json}
    {ttl : Option Int} (hs : .cacheSet (.session s) v ttl ∈ w.hist j) :
    ∃ x y : SessionModel, v = x.projection.toDict ∧ w.db.sessions.get s = some y ∧
      y.core = x.core := by
  obtain ⟨k, -, hl⟩ := h.lawful_of_mem hs
  obtain ⟨h₁, h₂, he, x, rfl, hv, hx⟩ := hl.of_mem hs
  refine ⟨x, ?_⟩
  rcases hx with ⟨hw, hc⟩ | ⟨-, ⟨rows, hr, hxr⟩, -⟩
  · obtain ⟨y, hy, hcore⟩ := h.took j _ (he ▸ List.mem_append_left _ hw)
      (he ▸ List.mem_append_left _ hc)
    exact ⟨y, hv, hy, hcore⟩
  · obtain ⟨y, hy, hcore, -⟩ := h.saw j x ⟨_, rows, he ▸ List.mem_append_left _ hr, hxr⟩
    exact ⟨y, hv, hy, hcore⟩

theorem handed_backed (h : Provenance cfg C m w) {j : Nat} {o : Out} {p : TokenPair}
    {h₀ : List Act} (hj : h₀ ⊆ w.hist j) (hh : Handed cfg (.ok o) h₀) (hp : o.pair? = some p) :
    Backed cfg w.db p := by
  rcases hh o p rfl hp with ⟨_, r, a, b, hr, hc, -, ha, hb, hat, hbt, rfl⟩ | ⟨s, a, b, rfl, hg, -⟩
  · exact h.backed (hj hr) (hj hc) (hj ha) (hj hb) hat hbt
  · obtain ⟨i, ttl, hi⟩ := h.got j _ _ (hj hg)
    obtain ⟨r, a', b', hr, hc, -, ha, hb, hat, hbt, hv⟩ := h.grace_origin hi
    have hv' : TokenPair.fromDict (TokenPair.toDict
        { accessToken := cfg.jose.encode a, refreshToken := cfg.jose.encode b }) =
        TokenPair.fromDict (TokenPair.toDict
        { accessToken := cfg.jose.encode a', refreshToken := cfg.jose.encode b' }) := by rw [hv]
    rw [TokenPair.fromDict_toDict, TokenPair.fromDict_toDict] at hv'
    rw [Except.ok.inj hv']
    exact h.backed hr hc ha hb hat hbt

theorem superuser (h : Provenance cfg C m w) {j : Nat} {u : String}
    (hs : SawSuperuser (w.hist j) u) : ∃ x, w.db.users.get u = some x ∧ x.role = .superuser := by
  rcases hs with ⟨x, hg, hid, hr⟩ | ⟨x, hx, rfl, hr⟩
  · obtain ⟨i, ttl, hi⟩ := h.got j _ _ hg
    obtain ⟨k, -, hl⟩ := h.lawful_of_mem hi
    obtain ⟨h₁, h₂, he, y, hy, hv, -, -, rows, hread, hrow⟩ := hl.of_mem hi
    have hv' : User.fromDict x.toDict = User.fromDict y.toEntity.toDict := by rw [hv]
    rw [User.fromDict_toDict, User.fromDict_toDict] at hv'
    have hrole : x.role = y.role := congrArg User.role (Except.ok.inj hv')
    obtain ⟨z, hz, hzr⟩ := h.sawUser i y ⟨_, rows, he ▸ List.mem_append_left _ hread, hrow⟩
    rw [hy] at hz
    exact ⟨z, hz, hzr.trans (hrole.symm.trans hr)⟩
  · obtain ⟨z, hz, hzr⟩ := h.sawUser j x hx
    exact ⟨z, hz, hzr.trans hr⟩

end Provenance

structure Database.Apart (u : String) (d d' : Database) : Prop where
  users : ∀ u', u' ≠ u → d'.users.get u' = d.users.get u'
  sessions : ∀ s row, d.sessions.get s = some row ∨ d'.sessions.get s = some row →
    row.userId ≠ u → d'.sessions.get s = d.sessions.get s

namespace Database

theorem Apart.refl (u : String) (d : Database) : Apart u d d :=
  ⟨fun _ _ => rfl, fun _ _ _ _ => rfl⟩

theorem Apart.trans {u : String} {d d' d'' : Database} (h : Apart u d d') (h' : Apart u d' d'') :
    Apart u d d'' := by
  refine ⟨fun u' hu => (h'.users u' hu).trans (h.users u' hu), fun s row hr hu => ?_⟩
  rcases hr with hr | hr
  · have h1 := h.sessions s row (.inl hr) hu
    exact (h'.sessions s row (.inl (h1.trans hr)) hu).trans h1
  · have h1 := h'.sessions s row (.inr hr) hu
    exact h1.trans (h.sessions s row (.inr (h1.symm.trans hr)) hu)

theorem apply_apart {d : Database} {v : Write} {u : String} (hs : v.Sound d) (ho : v.owner = u) :
    Apart u d (d.apply v) := by
  cases v with
  | insertUser r =>
    refine ⟨fun u' hu => ?_, fun _ _ _ _ => rfl⟩
    simp only [apply]
    cases hr : d.users.get r.id with
    | none => rw [Keyed.get_insert hr, if_neg fun he => hu (he.trans ho)]
    | some x => rw [Keyed.insert_of_taken hr]
  | updateUser l n =>
    refine ⟨fun u' hu => ?_, fun _ _ _ _ => rfl⟩
    simp only [apply]
    rw [Keyed.get_modify, if_neg fun he => hu (he.trans ho)]
  | insertSession r =>
    refine ⟨fun _ _ => rfl, fun s row hr hu => ?_⟩
    simp only [apply] at hr ⊢
    cases hg : d.sessions.get r.id with
    | some x => rw [Keyed.insert_of_taken hg]
    | none =>
      rw [Keyed.get_insert hg] at hr ⊢
      split
      · rename_i hsr
        simp only [hsr, hg, if_true, reduceCtorEq, false_or, Option.some.injEq] at hr
        exact absurd (hr ▸ ho) hu
      · rfl
  | updateSession l n =>
    refine ⟨fun _ _ => rfl, fun s row hr hu => ?_⟩
    obtain ⟨⟨x, hx, hc⟩, hnc, hnr, -⟩ := hs
    simp only [apply] at hr ⊢
    rw [Keyed.get_modify] at hr ⊢
    split
    · rename_i hsl
      have hxu : x.userId = u := (SessionModel.core_userId hc).trans ho
      simp only [hsl, if_true, hx, Option.some.injEq, Option.map_some,
        SessionModel.patch_revoke hnc hnr] at hr
      rcases hr with rfl | rfl
      · exact absurd hxu hu
      · exact absurd hxu hu
    · rfl

theorem applyAll_apart {d : Database} {ws : List Write} {u : String} (hs : ∀ v ∈ ws, v.Sound d)
    (ho : ∀ v ∈ ws, v.owner = u) : Apart u d (d.applyAll ws) := by
  induction ws generalizing d with
  | nil => exact .refl u d
  | cons v ws ih =>
    have hv := apply_grows (hs v (by simp))
    exact (apply_apart (hs v (by simp)) (ho v (by simp))).trans
      (ih (fun v' hv' => (hs v' (by simp [hv'])).grows hv) fun v' hv' => ho v' (by simp [hv']))

end Database

/-- Every statement of a request with tokens of an ordinary user is about that user's rows. -/
theorem Provenance.owner {m : Nat → Option Call} {w : World γ} (h : Provenance cfg C m w) {i : Nat}
    {k : Call} (hm : m i = some k) (hk : k.isRequest = true) {u : String}
    (hu : ∀ c, k.Presents cfg c → c.sub = u)
    (hrole : ∀ x, w.db.users.get u = some x → x.role ≠ .superuser) {v : Write}
    (hv : .wrote v ∈ w.hist i) : v.owner = u := by
  obtain ⟨k', h₁, h₂, hm', he, -, hauth, hlaw⟩ := h.wrote hv
  rw [hm] at hm'
  cases hm'
  obtain ⟨c, hc, ho | hsuper | ⟨l, n, rfl, hl⟩⟩ := hauth hk
  · exact ho.trans (hu c hc)
  · have hs : SawSuperuser (w.hist i) c.sub := he ▸ hsuper.mono
    obtain ⟨x, hx, hr⟩ := h.superuser hs
    rw [hu c hc] at hx
    exact absurd hr (hrole x hx)
  · have hsaw : Saw (w.hist i) l := he ▸ hlaw.saw.mono
    obtain ⟨x, hx, hcore, -⟩ := h.saw i l hsaw
    have hmint := h.presented i k c hm hc
    obtain ⟨s, -, hn⟩ := h.names hmint
    have hs : l.id = s := by
      rcases hl with hl | hl
      · exact hn.eq_of_sid hl
      · exact hn.eq_of_jti hl
    rw [hs] at hx
    calc l.userId = x.userId := (SessionModel.core_userId hcore).symm
      _ = c.sub := h.token_owner hx hmint hn
      _ = u := hu c hc

/-- Every token handed out or cached is for a session of its own user, and so are the cached
projections; hence the requests of an ordinary user leave everybody else's rows alone. -/
theorem users_isolated {s : State γ} (hr : Reachable cfg C s) :
    (∀ i k o p, s.script i = some k → s.answer i = some (.ok o) → o.pair? = some p →
      Backed cfg s.world.db p) ∧
    (∀ parent v, C.holds s.world.cache (.grace parent) v →
      ∃ p, v = TokenPair.toDict p ∧ Backed cfg s.world.db p) ∧
    (∀ sid v, C.holds s.world.cache (.session sid) v →
      ∃ (p : SessionValidation) (row : SessionModel),
      v = p.toDict ∧ s.world.db.sessions.get sid = some row ∧ p.id = row.id ∧
        p.userId = row.userId) ∧
    ∀ i c k u s', (app cfg C).exec (.step i c) s = some s' → s.script i = some k →
      k.isRequest = true → (∀ c, k.Presents cfg c → c.sub = u) →
      (∀ x, s.world.db.users.get u = some x → x.role ≠ .superuser) →
      Database.Apart u s.world.db s'.world.db := by
  have h := hr.provenance
  refine ⟨fun i k o p hk hi hp => ?_, fun parent v hv => ?_, fun sid v hv => ?_, ?_⟩
  · obtain ⟨h₀, he, -, hh, -⟩ := hr.finished hk hi
    exact h.handed_backed (j := i) (he ▸ List.subset_append_left _ _) hh hp
  · obtain ⟨j, ttl, hj⟩ := h.cached _ v hv
    obtain ⟨r, a, b, hr, hc, -, ha, hb, hat, hbt, rfl⟩ := h.grace_origin hj
    exact ⟨_, rfl, h.backed hr hc ha hb hat hbt⟩
  · obtain ⟨j, ttl, hj⟩ := h.cached _ v hv
    obtain ⟨x, y, rfl, hy, hcore⟩ := h.session_origin hj
    exact ⟨x.projection, y, rfl, hy, (SessionModel.core_id hcore).symm,
      (SessionModel.core_userId hcore).symm⟩
  · intro i c k u s' hs hk hreq hu hrole
    cases hr.change hs with
    | idle _ t _ ht hw =>
      rw [hw]
      exact .refl u _
    | moved _ _ k' β e f r _ hc hk' hmv hl =>
      rw [hk] at hk'
      cases hk'
      rw [hmv.db]
      split
      · rename_i hcom
        rw [hcom] at hl
        have ho : Open (s.world.hist i) := (Lawful.snoc_iff.mp hl).2.1
        refine Database.applyAll_apart (h.sound_pending i) fun v hv => ?_
        rw [h.pending_eq ho, mem_written] at hv
        exact h.owner hk hreq hu hrole hv
      · exact .refl u _

/-- Alice and Bob sign in, and Alice asks for new tokens. Her request is about to commit. -/
def twoClients : List (Label Call (Choice Unit)) :=
  .call 0 (.authenticate "alice@example.org" "secret" none none) :: effects 0 14 1 "s1" ++
    .call 1 (.authenticate "bob@example.org" "secret" none none) :: effects 1 14 2 "s2" ++
      .call 2 (.refreshRoute (some (refreshTokenOf "s1")) none none) :: effects 2 16 3 "s3"

def twoClientsState : State (TimedStore Key Json) :=
  sampleApp.afterwards twoClients ⟨twins, fun _ => none⟩

theorem twins_init : Init TimedStore.reliable twins := by
  refine ⟨rfl, ?_, fun _ => rfl, fun _ => rfl, sampleWorld_init.cache, fun _ => rfl, rfl,
    fun _ => rfl⟩
  have hr : twins.db.users.rows = [alice, bob] := by decide +kernel
  simp [hr, alice, bob]

def rotated : State (TimedStore Key Json) :=
  sampleApp.afterwards [.step 2 (moment 3 "")] twoClientsState

def answered : State (TimedStore Key Json) := sampleApp.afterwards (effects 2 3 4 "") rotated

def pairOf (s : String) (exp : Int) : TokenPair := ⟨accessToken s exp, refreshTokenOf s, "bearer"⟩

theorem users_isolated_twins :
    Database.Apart "alice" twoClientsState.world.db rotated.world.db ∧
    rotated.world.db.sessions.rows.map (fun x => (x.id, x.userId, x.revokedAt)) =
      [("s1", "alice", some (seconds 3)), ("s2", "bob", none), ("s3", "alice", none)] ∧
    answered.answer 2 = some (.ok (.pair (pairOf "s3" 903))) ∧
    Backed sampleConfig answered.world.db (pairOf "s3" 903) ∧
    (∃ v p, TimedStore.Has answered.world.cache (.grace "s1") v ∧ v = TokenPair.toDict p ∧
      Backed sampleConfig answered.world.db p) ∧
    ∃ v, TimedStore.Has answered.world.cache (.session "s2") v ∧
      ∃ (p : SessionValidation) (row : SessionModel), v = p.toDict ∧
        answered.world.db.sessions.get "s2" = some row ∧ p.id = row.id ∧ p.userId = row.userId := by
  have hr : Reachable sampleConfig TimedStore.reliable twoClientsState :=
    ⟨twins, twoClients, twins_init, Service.execs_afterwards _ (by decide +kernel)⟩
  have hcommit : sampleApp.execs [.step 2 (moment 3 "")] twoClientsState = some rotated :=
    Service.execs_afterwards _ (by decide +kernel)
  have hanswer : sampleApp.execs (effects 2 3 4 "") rotated = some answered :=
    Service.execs_afterwards _ (by decide +kernel)
  have hstep : sampleApp.exec (.step 2 (moment 3 "")) twoClientsState = some rotated :=
    Service.execs_singleton _ ▸ hcommit
  have hsub : ∀ c, (Call.refreshRoute (some (refreshTokenOf "s1")) none none).Presents
      sampleConfig c → c.sub = "alice" := by
    rintro c ⟨t, ht, hc⟩
    cases List.mem_singleton.mp ht
    cases hc
    rfl
  have hdone := users_isolated ((hr.execs hcommit).execs hanswer)
  have hgrace : TimedStore.Has answered.world.cache (.grace "s1") (pairOf "s3" 903).toDict :=
    ⟨seconds 33, by decide +kernel⟩
  have hentry : TimedStore.Has answered.world.cache (.session "s2")
      ((answered.world.db.sessions.get "s2").get (by decide +kernel)).projection.toDict :=
    ⟨seconds 604802, by decide +kernel⟩
  refine ⟨(users_isolated hr).2.2.2 2 (moment 3 "")
      (.refreshRoute (some (refreshTokenOf "s1")) none none) "alice" rotated hstep
      (by decide +kernel) rfl hsub (by decide +kernel), by decide +kernel, by decide +kernel,
    hdone.1 2 (.refreshRoute (some (refreshTokenOf "s1")) none none) (.pair (pairOf "s3" 903)) _
      (by decide +kernel) (by decide +kernel) rfl, ?_, _, hentry, hdone.2.2.1 "s2" _ hentry⟩
  obtain ⟨p, hp, hbacked⟩ := hdone.2.1 "s1" _ hgrace
  exact ⟨_, p, hgrace, hp, hbacked⟩

end AsyncPulse
