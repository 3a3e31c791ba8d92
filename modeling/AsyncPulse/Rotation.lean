import AsyncPulse.Isolation
set_option autoImplicit false

namespace AsyncPulse
open Effect

variable {γ χ : Type} {cfg : Config} {C : MayCache Key Json γ χ}

def Write.succeeds (parent : String) : Write → Bool
  | .insertSession r => r.previousSessionId = some parent
  | _ => false

def Database.unrevoked (d : Database) (s : String) : Bool :=
  (d.sessions.get s).any fun x => x.revokedAt.isNone

/-- A rotation of `parent` is committed only while the row is still unrevoked. -/
def Unspent (parent : String) : Label Call (Choice χ) → State γ → Prop
  | .step i _, s => s.Next i fun _ e => e.isCommit = true →
      (s.world.pending i).any (Write.succeeds parent) = true → s.world.db.unrevoked parent = true
  | _, _ => True

instance (parent : String) (l : Label Call (Choice χ)) (s : State γ) :
    Decidable (Unspent parent l s) :=
  match l with
  | .step i _ => inferInstanceAs (Decidable (s.Next i _))
  | .call _ _ | .tick _ => .isTrue trivial

def Rotated (parent : String) (w : World γ) (i : Nat) (r : SessionModel) : Prop :=
  .wrote (.insertSession r) ∈ w.hist i ∧ .committed ∈ w.hist i ∧ r.previousSessionId = some parent

theorem Provenance.spent {m : Nat → Option Call} {w : World γ} (h : Provenance cfg C m w)
    {i : Nat} {r : SessionModel} {parent : String} (hr : Rotated parent w i r) :
    ∃ x, w.db.sessions.get parent = some x ∧ x.revokedAt ≠ none := by
  obtain ⟨hw, hc, hp⟩ := hr
  obtain ⟨k, h₁, h₂, -, he, -, -, hop⟩ := h.wrote hw
  cases hop.origin with
  | login _ _ _ _ _ _ _ _ hn _ _ _ _ =>
    rw [hn] at hp
    cases hp
  | rotation row rows t hprev _ _ _ _ _ _ _ _ hend =>
    rw [hprev] at hp
    cases hp
    rcases hend with ⟨l, n, hl, hid⟩ | ⟨x, hx, hid, hrev⟩
    · have := h.took i _ (he ▸ List.mem_append_left _ hl) hc
      rwa [← hid]
    · obtain ⟨y, hy, -, hyr⟩ := h.saw i x (he ▸ hx.mono)
      rw [hid] at hy
      rcases hyr hrev with hyr | ⟨l, n, hl, hlid⟩
      · exact ⟨y, hy, hyr⟩
      · have := h.took i _ hl hc
        rwa [← hid, ← hlid]

def RotatedOnce (parent : String) (w : World γ) : Prop :=
  ∀ i j r r', Rotated parent w i r → Rotated parent w j r' → i = j

theorem RotatedOnce.exec {parent : String} {s s' : State γ} {l : Label Call (Choice χ)}
    (hr : Reachable cfg C s) (h : RotatedOnce parent s.world) (hu : Unspent parent l s)
    (hs : (app cfg C).exec l s = some s') : RotatedOnce parent s'.world := by
  have hp := hr.provenance
  cases hr.change hs with
  | idle _ t _ _ hw =>
    rw [hw]
    exact h
  | moved i c k β e f r _ hc _ hmv hl =>
    -- A second successor could only come with this very commit.
    have hnew : ∀ j r', Rotated parent s'.world j r' → Rotated parent s.world j r' ∨
        j = i ∧ e.act r = .committed ∧ .insertSession r' ∈ s.world.pending i ∧
          r'.previousSessionId = some parent := by
      rintro j r' ⟨hw, hcom, hprev⟩
      have hlaw := (Lawful.snoc_iff.mp hl).2
      rcases hmv.mem_hist.mp hw with hw | ⟨rfl, hw⟩ <;>
        rcases hmv.mem_hist.mp hcom with hcom | ⟨hj, hcom⟩
      · exact .inl ⟨hw, hcom, hprev⟩
      · subst hj
        rw [← hcom] at hlaw
        refine .inr ⟨rfl, hcom.symm, ?_, hprev⟩
        rw [hp.pending_eq hlaw.1, mem_written]
        exact hw
      · rw [← hw] at hlaw
        exact absurd hcom hlaw.1.1
      · rw [← hw] at hcom
        cases hcom
    have hspent : ∀ j r', Rotated parent s.world j r' → e.act r = .committed →
        ∀ r'', .insertSession r'' ∈ s.world.pending i → r''.previousSessionId = some parent →
        False := by
      intro j r' hj hcom r'' hpend hprev
      obtain ⟨x, hx, hxr⟩ := hp.spent hj
      have hlive := Sys.Next.apply hu hc (Eff.isCommit_of_act hcom)
        (List.any_eq_true.mpr ⟨_, hpend, by simp [Write.succeeds, hprev]⟩)
      simp [Database.unrevoked, hx, hxr] at hlive
    intro j j' r₁ r₂ h₁ h₂
    rcases hnew j r₁ h₁ with h₁ | ⟨rfl, hc₁, hp₁, hv₁⟩ <;>
      rcases hnew j' r₂ h₂ with h₂ | ⟨rfl, hc₂, hp₂, hv₂⟩
    · exact h j j' r₁ r₂ h₁ h₂
    · exact (hspent j r₁ h₁ hc₂ r₂ hp₂ hv₂).elim
    · exact (hspent j' r₂ h₂ hc₁ r₁ hp₁ hv₁).elim
    · rfl

/-- A refresh that hands out tokens has rotated the session it was called for, or it replays
the grace entry of that session. -/
theorem Call.Finished.refreshed {k : Call} {p : TokenPair} {h : List Act} {s u : String}
    (hf : k.Finished cfg (.ok (.pair p)) h) (hk : k.Refreshes cfg s u) :
    ∃ h₀, h = h₀ ++ [Act.closed] ∧ (Issued cfg h₀ (some s) p ∨ Replayed cfg h₀ s p) := by
  obtain ⟨h₀, rfl, -, -, hd⟩ := hf
  refine ⟨h₀, rfl, ?_⟩
  have hdone : ∀ request r', (∀ c, k.Presents cfg c → cfg.jose.verify request = some c) →
      .ok (.pair p) = r'.map Out.pair → RefreshDone cfg request r' h₀ →
      Issued cfg h₀ (some s) p ∨ Replayed cfg h₀ s p := by
    intro request r' hreq hr' hdone
    obtain ⟨p', rfl, hp'⟩ := map_eq_ok hr'.symm
    cases hp'
    obtain ⟨c, s', hv, -, hj, hi⟩ := hdone.issued p rfl
    obtain ⟨-, c', hc', -, hj', -⟩ := hk
    have hcc := hreq c' hc'
    rw [hv] at hcc
    cases hcc
    rw [hj] at hj'
    cases hj'
    exact hi
  obtain ⟨hr, c, hc, -⟩ := hk
  cases k <;> simp only [Call.isRefresh, Bool.false_eq_true] at hr
  case refreshToken request ip =>
    obtain ⟨r', hr', hd⟩ := hd
    refine hdone request r' ?_ hr' hd
    rintro c ⟨t, ht, hv⟩
    rwa [← List.mem_singleton.mp ht]
  case refreshRoute b c ip =>
    rcases hd with ⟨-, he⟩ | ⟨request, hreq, r', hr', hd⟩
    · cases he
    · refine hdone request r' ?_ hr' hd
      rintro c ⟨t, ht, hv⟩
      simp only [Call.tokens, hreq, Option.toList_some, List.mem_singleton] at ht
      rwa [← ht]

theorem Provenance.pair_origin {m : Nat → Option Call} {w : World γ} (h : Provenance cfg C m w)
    {i : Nat} {k : Call} {p : TokenPair} {s u : String}
    (hf : k.Finished cfg (.ok (.pair p)) (w.hist i)) (hk : k.Refreshes cfg s u) :
    ∃ j r a b, Rotated s w j r ∧ .signed a ∈ w.hist j ∧ .signed b ∈ w.hist j ∧ a.type = .access ∧
      b.type = .refresh ∧
      p = { accessToken := cfg.jose.encode a, refreshToken := cfg.jose.encode b } := by
  obtain ⟨h₀, he, hi | ⟨a, b, rfl, hg, -⟩⟩ := hf.refreshed hk
  · obtain ⟨r, a, b, hr, hc, hp, ha, hb, hat, hbt, hpair⟩ := hi
    have hsub : h₀ ⊆ w.hist i := he ▸ List.subset_append_left _ _
    exact ⟨i, r, a, b, ⟨hsub hr, hsub hc, hp⟩, hsub ha, hsub hb, hat, hbt, hpair⟩
  · obtain ⟨j, ttl, hj⟩ := h.got i _ _ (he ▸ List.mem_append_left _ hg)
    obtain ⟨r, a', b', hr, hc, hp, ha, hb, hat, hbt, hv⟩ := h.grace_origin hj
    have hv' : TokenPair.fromDict (TokenPair.toDict
        { accessToken := cfg.jose.encode a, refreshToken := cfg.jose.encode b }) =
        TokenPair.fromDict (TokenPair.toDict
        { accessToken := cfg.jose.encode a', refreshToken := cfg.jose.encode b' }) := by rw [hv]
    rw [TokenPair.fromDict_toDict, TokenPair.fromDict_toDict] at hv'
    exact ⟨j, r, a', b', ⟨hr, hc, hp⟩, ha, hb, hat, hbt, Except.ok.inj hv'⟩

/-- While every rotation of an active session is committed on the unrevoked row, the session
gets at most one successor, and all calls with its refresh token that return tokens return
the same ones. -/
theorem rotation_unique {parent : String} {s₀ s : State γ} {ls : List (Label Call (Choice χ))}
    (hr : Reachable cfg C s₀) (hlive : s₀.world.db.unrevoked parent = true)
    (hs : (app cfg C).execs ls s₀ = some s) (hu : (app cfg C).Along (Unspent parent) ls s₀) :
    (∀ x ∈ s.world.db.sessions.rows, ∀ y ∈ s.world.db.sessions.rows,
      x.previousSessionId = some parent → y.previousSessionId = some parent → x = y) ∧
    ∀ i j k k' u u' p p', s.script i = some k → k.Refreshes cfg parent u →
      s.answer i = some (.ok (.pair p)) → s.script j = some k' → k'.Refreshes cfg parent u' →
      s.answer j = some (.ok (.pair p')) → p = p' := by
  have h₀ : RotatedOnce parent s₀.world := by
    intro i j r r' hi _
    obtain ⟨x, hx, hxr⟩ := hr.provenance.spent hi
    simp [Database.unrevoked, hx, hxr] at hlive
  have honce : RotatedOnce parent s.world :=
    ((app cfg C).execs_invariant (P := fun s => Reachable cfg C s ∧ RotatedOnce parent s.world)
      (fun l s s' hi hl hs => ⟨hi.1.exec hs, hi.2.exec hi.1 hl hs⟩) ⟨hr, h₀⟩ hu hs).2
  have hr' := hr.execs hs
  have h := hr'.provenance
  refine ⟨fun x hx y hy hxp hyp => ?_, fun i j k k' u u' p p' hki hk hi hkj hk' hj => ?_⟩
  · obtain ⟨i, r, hw, hc, hid, hcore⟩ := h.row _ x (Keyed.get_of_mem hx)
    obtain ⟨j, r', hw', hc', hid', hcore'⟩ := h.row _ y (Keyed.get_of_mem hy)
    have hij := honce i j r r' ⟨hw, hc, (SessionModel.core_previous hcore).symm.trans hxp⟩
      ⟨hw', hc', (SessionModel.core_previous hcore').symm.trans hyp⟩
    subst hij
    obtain ⟨k, -, hl⟩ := h.lawful_of_mem hw
    have hrr := hl.insert_unique hw hw'
    exact s.world.db.sessions.eq_of_key hx hy (by rw [← hid, ← hid', hrr])
  · obtain ⟨i', r, a, b, hrot, ha, hb, hat, hbt, rfl⟩ := h.pair_origin (hr'.finished hki hi) hk
    obtain ⟨j', r', a', b', hrot', ha', hb', hat', hbt', rfl⟩ :=
      h.pair_origin (hr'.finished hkj hj) hk'
    have hij := honce i' j' r r' hrot hrot'
    subst hij
    obtain ⟨_, -, hl⟩ := h.lawful_of_mem ha
    rw [hl.signed_unique ha ha' (hat.trans hat'.symm),
      hl.signed_unique hb hb' (hbt.trans hbt'.symm)]

def refreshOnce : List (Label Call (Choice Unit)) :=
  .call 1 (.refreshToken (refreshTokenOf "s1") none) :: effects 1 20 3 "s2"

/-- Two callers present the token of `s1`. The second one reads the row when the first one has
rotated it, within the grace window. -/
def refreshTwice : List (Label Call (Choice Unit)) :=
  .call 1 (.refreshToken (refreshTokenOf "s1") none) ::
    .call 2 (.refreshToken (refreshTokenOf "s1") none) ::
    (effects 2 1 2 "" ++ effects 1 20 3 "s2" ++ effects 2 4 5 "")

theorem rotation_unique_twice : ∃ p p',
    (sampleApp.afterwards refreshTwice signedIn).answer 1 = some (.ok (.pair p)) ∧
    (sampleApp.afterwards refreshTwice signedIn).answer 2 = some (.ok (.pair p')) ∧ p = p' ∧
    (sampleApp.afterwards refreshTwice signedIn).world.db.sessions.rows.map
      SessionModel.previousSessionId = [none, some "s1"] ∧
    ∀ x ∈ (sampleApp.afterwards refreshTwice signedIn).world.db.sessions.rows,
      ∀ y ∈ (sampleApp.afterwards refreshTwice signedIn).world.db.sessions.rows,
        x.previousSessionId = some "s1" → y.previousSessionId = some "s1" → x = y := by
  have hs : sampleApp.execs refreshTwice signedIn =
      some (sampleApp.afterwards refreshTwice signedIn) :=
    Service.execs_afterwards _ (by decide +kernel)
  have hi : (sampleApp.afterwards refreshTwice signedIn).answer 1 =
      some (.ok (.pair ⟨accessToken "s2" 903, refreshTokenOf "s2", "bearer"⟩)) := by
    decide +kernel
  have hj : (sampleApp.afterwards refreshTwice signedIn).answer 2 =
      some (.ok (.pair ⟨accessToken "s2" 903, refreshTokenOf "s2", "bearer"⟩)) := by
    decide +kernel
  obtain ⟨hrows, hpairs⟩ := rotation_unique signedIn_reachable
    (show signedIn.world.db.unrevoked "s1" = true by decide +kernel) hs (by decide +kernel)
  have hpresents : (Call.refreshToken (refreshTokenOf "s1") none).Refreshes sampleConfig "s1"
      "alice" := ⟨rfl, _, ⟨_, List.mem_singleton_self _, rfl⟩, rfl, rfl, rfl⟩
  have hsame := hpairs 1 2 _ _ _ _ _ _ (by decide +kernel) hpresents hi (by decide +kernel)
    hpresents hj
  exact ⟨_, _, hi, hj, hsame, by decide +kernel, hrows⟩

/-- Two refreshes at the same time: both have read session `s1` as unrevoked before either
commits. -/
def refreshRace : List (Label Call (Choice Unit)) :=
  .call 1 (.refreshToken (refreshTokenOf "s1") none) ::
    .call 2 (.refreshToken (refreshTokenOf "s1") none) ::
    (effects 2 4 2 "" ++ effects 1 20 3 "s2" ++ effects 2 16 4 "s3")

/-- Both refreshes rotate `s1`, and they hand out different tokens. -/
theorem refresh_race : ∃ s, Reachable sampleConfig TimedStore.reliable signedIn ∧
    signedIn.world.db.unrevoked "s1" = true ∧
    sampleApp.execs refreshRace signedIn = some s ∧
    (s.world.db.sessions.rows.filter fun x => x.previousSessionId = some "s1").map
      SessionModel.id = ["s2", "s3"] ∧
    (∃ p p', s.answer 1 = some (.ok (.pair p)) ∧ s.answer 2 = some (.ok (.pair p')) ∧ p ≠ p') := by
  refine ⟨_, signedIn_reachable, by decide +kernel, Service.execs_afterwards _ (by decide +kernel),
    by decide +kernel, ⟨accessToken "s2" 903, refreshTokenOf "s2", "bearer"⟩,
    ⟨accessToken "s3" 904, refreshTokenOf "s3", "bearer"⟩, by decide +kernel, by decide +kernel,
    by decide⟩

end AsyncPulse
