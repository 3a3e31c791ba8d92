import AsyncPulse.Rotation
set_option autoImplicit false

namespace AsyncPulse
open Effect

variable {γ χ : Type} {cfg : Config} {C : MayCache Key Json γ χ}

def Call.Revoked (cfg : Config) (k : Call) (r : Except Exc Out) (u : String) : Prop :=
  match k with
  | .logoutAll u' | .deleteUser u' | .deleteUserRoute _ u' => u' = u ∧ r = .ok .done
  | .changeStatus u' st => u' = u ∧ st ∈ lockoutStatuses ∧ ∃ v, r = .ok v
  | .refreshToken _ _ | .refreshRoute _ _ _ => r = .error tokenReuse ∧ ∃ c, k.Presents cfg c ∧ c.sub = u
  | .logoutAllRoute _ => r = .ok .done ∧ ∃ c, k.Presents cfg c ∧ c.sub = u
  | _ => False

theorem Massed.mono {h : List Act} {u : String} (hm : Massed h u) (l : List Act) :
    Massed (h ++ l) u := by
  obtain ⟨hc, rows, hr⟩ := hm
  exact ⟨List.mem_append_left _ hc, rows, List.mem_append_left _ hr⟩

theorem Call.Finished.massed {k : Call} {r : Except Exc Out} {h : List Act} {u : String}
    (hf : k.Finished cfg r h) (hk : k.Revoked cfg r u) : Massed h u := by
  obtain ⟨h₀, rfl, -, -, hd⟩ := hf
  refine Massed.mono ?_ _
  have hrefresh : ∀ request r', (∀ c, k.Presents cfg c → cfg.jose.verify request = some c) →
      r = r'.map Out.pair → r = .error tokenReuse → (∃ c, k.Presents cfg c ∧ c.sub = u) →
      RefreshDone cfg request r' h₀ → Massed h₀ u := by
    rintro request r' hreq rfl hr ⟨c, hc, rfl⟩ hdone
    cases r' with
    | ok p => cases hr
    | error e =>
      cases hr
      obtain ⟨c', hc', hm⟩ := hdone.detected rfl
      have hcc := hreq c hc
      rw [hc'] at hcc
      cases hcc
      exact hm
  cases k <;> simp only [Call.Revoked] at hk
  case logoutAll u' =>
    obtain ⟨rfl, hr⟩ := hk
    exact hd hr
  case deleteUser u' =>
    obtain ⟨rfl, hr⟩ := hk
    exact hd hr
  case deleteUserRoute t u' =>
    obtain ⟨rfl, hr⟩ := hk
    exact hd hr
  case changeStatus u' st =>
    obtain ⟨rfl, hst, v, hv⟩ := hk
    exact hd v hv hst
  case logoutAllRoute t =>
    obtain ⟨hr, c, ⟨t₁, ht₁, hv₁⟩, rfl⟩ := hk
    obtain ⟨c', ⟨t₂, ht₂, hv₂⟩, hm⟩ := hd hr
    simp only [Call.tokens, List.mem_singleton] at ht₁ ht₂
    rw [ht₁] at hv₁
    rw [ht₂, hv₁] at hv₂
    cases hv₂
    exact hm
  case refreshToken request ip =>
    obtain ⟨r', hr', hd⟩ := hd
    refine hrefresh request r' ?_ hr' hk.1 hk.2 hd
    rintro c ⟨t, ht, hv⟩
    rwa [← List.mem_singleton.mp ht]
  case refreshRoute b c ip =>
    rcases hd with ⟨hnone, -⟩ | ⟨request, hreq, r', hr', hd⟩
    · obtain ⟨-, c, ⟨t, ht, -⟩, -⟩ := hk
      simp [Call.tokens, hnone] at ht
    · refine hrefresh request r' ?_ hr' hk.1 hk.2 hd
      rintro c ⟨t, ht, hv⟩
      simp only [Call.tokens, hreq, Option.toList_some, List.mem_singleton] at ht
      rwa [← ht]

def Write.opens : Write → Bool
  | .insertSession _ => true
  | _ => false

/-- Call `i` commits a new session only before call `revoker` has read which sessions of `u`
are unrevoked. -/
def Ahead (i revoker : Nat) (u : String) : Label Call (Choice χ) → State γ → Prop
  | .step j _, s => s.Next j fun _ e => e.isCommit = true → j = i →
      (s.world.pending i).any Write.opens = true →
        (s.world.hist revoker).any (Act.selectsAll u) = false
  | _, _ => True

instance (i revoker : Nat) (u : String) (l : Label Call (Choice χ)) (s : State γ) :
    Decidable (Ahead i revoker u l s) :=
  match l with
  | .step j _ => inferInstanceAs (Decidable (s.Next j _))
  | .call _ _ | .tick _ => .isTrue trivial

def Concerns (i : Nat) (d : Database) (w : World γ) (s : String) : Prop :=
  d.sessions.get s ≠ none ∨ ∃ r, .wrote (.insertSession r) ∈ w.hist i ∧ r.id = s

/-- Every session of `u` that was there in `d`, or that call `i` has opened, is revoked, or call
`revoker` is about to revoke it. -/
structure Covered (i revoker : Nat) (u : String) (d : Database) (w : World γ) : Prop where
  grows : d.Grows w.db
  rows : ∀ rows, .readSessions (.unrevokedOf u) rows ∈ w.hist revoker → ∀ s x,
    w.db.sessions.get s = some x → x.userId = u → Concerns i d w s →
      x.revokedAt ≠ none ∨ ∃ l ∈ rows, l.id = s

theorem Provenance.inserter {m : Nat → Option Call} {w : World γ} (h : Provenance cfg C m w)
    {i j : Nat} {r r' : SessionModel} (hr : .wrote (.insertSession r) ∈ w.hist i)
    (hr' : .wrote (.insertSession r') ∈ w.hist j) (hid : r.id = r'.id) : i = j := by
  have h₁ := h.drawn_of_inserted hr
  rw [hid, h.drawn_of_inserted hr'] at h₁
  exact (Option.some.inj h₁).symm

theorem Covered.exec {i revoker : Nat} {u : String} {d : Database} {s s' : State γ}
    {l : Label Call (Choice χ)} (hr : Reachable cfg C s) (h : Covered i revoker u d s.world)
    (ha : Ahead i revoker u l s) (hs : (app cfg C).exec l s = some s') :
    Covered i revoker u d s'.world := by
  have hp := hr.provenance
  have hp' := (hr.exec hs).provenance
  cases hr.change hs with
  | idle _ t _ _ hw =>
    rw [hw]
    exact ⟨h.grows, h.rows⟩
  | moved j c k β e f r _ hc _ hmv hl =>
    have hlaw := (Lawful.snoc_iff.mp hl).2
    have hgrows := hp.moved_grows hmv
    refine ⟨h.grows.trans hgrows, fun rows hrows t x hx hu hcon => ?_⟩
    -- Rows that were there before this move, and what is known about them.
    have hold : ∀ y, s.world.db.sessions.get t = some y → y.core = x.core →
        (y.revokedAt ≠ none → x.revokedAt ≠ none) →
        x.revokedAt ≠ none ∨ ∃ l ∈ rows, l.id = t := by
      intro y hy hyc hyr
      have hyu : y.userId = u := (SessionModel.core_userId hyc).trans hu
      have hcon' : Concerns i d s.world t := by
        rcases hcon with hd | ⟨r', hr', hid⟩
        · exact .inl hd
        · rcases hmv.mem_hist.mp hr' with hr' | ⟨rfl, hr'⟩
          · exact .inr ⟨r', hr', hid⟩
          · rw [← hr'] at hlaw
            have ho : Open (s'.world.hist i) := by
              rw [hmv.hist, Function.update_self, ← hr']
              exact open_snoc.mpr ⟨hlaw.1, by simp, by simp⟩
            have hnone := hp'.unused ho (hmv.mem_hist.mpr (.inr ⟨rfl, hr'⟩))
            rw [hid, hx] at hnone
            cases hnone
      rcases hmv.mem_hist.mp hrows with hrows | ⟨rfl, hact⟩
      · exact (h.rows rows hrows t y hy hyu hcon').imp_left hyr
      · rw [← hact] at hlaw
        obtain ⟨rank, rfl⟩ := hmv.read _ _ hact.symm
        obtain ⟨z, hz, hzc, -⟩ := (hp.grows_view revoker).sessions t y hy
        by_cases hzr : z.revokedAt = none
        · refine .inr ⟨z, SessionQuery.mem_eval.mpr ⟨Keyed.mem_of_get hz, ?_⟩, Keyed.key_of_get hz⟩
          have hzu : z.userId = u := (SessionModel.core_userId hzc).trans hyu
          simp [SessionQuery.selects, hzu, hzr]
        · obtain ⟨y', hy', -, hyr'⟩ := hp.view_row hlaw.2.1 hz
          rw [hy] at hy'
          cases hy'
          rcases hyr' hzr with hyr' | ⟨l, n, hm, -⟩
          · exact .inl (hyr hyr')
          · exact absurd hm ((hlaw.2.2.2 u rfl).2 l n)
    have hx' := hx
    rw [hmv.db] at hx'
    split at hx'
    · rename_i hcom
      rw [hcom] at hlaw
      rcases hp.view_origin hlaw.1 hx' with ⟨y, hy, hyc⟩ | ⟨r', hr', hid, -⟩
      · refine hold y hy hyc.symm fun hyr => ?_
        obtain ⟨x', hx₁, -, hxr⟩ := hgrows.sessions t y hy
        rw [hx] at hx₁
        cases hx₁
        exact hxr hyr
      · -- A new row: only call `i` matters, and it commits in time.
        have hnone : s.world.db.sessions.get t = none := hid ▸ hp.unused hlaw.1 hr'
        have hji : j = i := by
          rcases hcon with hd | ⟨r'', hr'', hid''⟩
          · obtain ⟨y, hy⟩ := Option.ne_none_iff_exists'.mp hd
            obtain ⟨y', hy', -⟩ := h.grows.sessions t y hy
            rw [hnone] at hy'
            cases hy'
          · have hr₂ : .wrote (.insertSession r'') ∈ s.world.hist i := by
              simpa [hcom] using hmv.mem_hist.mp hr''
            exact hp.inserter hr' hr₂ (hid.trans hid''.symm)
        subst hji
        have hno := Sys.Next.apply ha hc (Eff.isCommit_of_act hcom) rfl (List.any_eq_true.mpr
          ⟨_, (hp.pending_eq hlaw.1).symm ▸ mem_written.mpr hr', rfl⟩)
        have hrows' : .readSessions (.unrevokedOf u) rows ∈ s.world.hist revoker := by
          simpa [hcom] using hmv.mem_hist.mp hrows
        rw [List.any_eq_false] at hno
        exact absurd (Act.selectsAll_iff.mpr ⟨rows, rfl⟩) (hno _ hrows')
    · exact hold x hx' rfl id

/-- Once a call has revoked all sessions of `u`, no session that was there before it or that
another call has opened meanwhile is left, as long as the other call commits the new session
before the revoking call has read which sessions there are. -/
theorem revocation_covers {i revoker : Nat} {u : String} {s₀ s : State γ}
    {ls : List (Label Call (Choice χ))} {k : Call} {r : Except Exc Out}
    (hr : Reachable cfg C s₀) (hnew : s₀.script revoker = none)
    (hs : (app cfg C).execs ls s₀ = some s) (ha : (app cfg C).Along (Ahead i revoker u) ls s₀)
    (hk : s.script revoker = some k) (hans : s.answer revoker = some r) (hrev : k.Revoked cfg r u) :
    ∀ x ∈ s.world.db.sessions.rows, x.userId = u →
      Concerns i s₀.world.db s.world x.id → x.revokedAt ≠ none := by
  have h₀ : Covered i revoker u s₀.world.db s₀.world := by
    refine ⟨.refl _, fun rows hrows => ?_⟩
    rw [hr.provenance.idle revoker hnew] at hrows
    simp at hrows
  have hcov : Covered i revoker u s₀.world.db s.world :=
    ((app cfg C).execs_invariant
      (P := fun s => Reachable cfg C s ∧ Covered i revoker u s₀.world.db s.world)
      (fun l s s' hi hl hs => ⟨hi.1.exec hs, hi.2.exec hi.1 hl hs⟩) ⟨hr, h₀⟩ ha hs).2
  have hr' := hr.execs hs
  have hp := hr'.provenance
  obtain ⟨hc, rows, hrows⟩ := (hr'.finished hk hans).massed hrev
  intro x hx hu hcon
  rcases hcov.rows rows hrows x.id x (Keyed.get_of_mem hx) hu hcon with hx | ⟨l, hl, hid⟩
  · exact hx
  · obtain ⟨k', -, hlaw⟩ := hp.lawful_of_mem hc
    obtain ⟨h₁, h₂, he, -, hall, -⟩ := hlaw.of_mem hc
    have hrows₁ : .readSessions (.unrevokedOf u) rows ∈ h₁ := by
      rw [he] at hlaw hrows
      exact hlaw.before_commit (by simpa using hrows) fun h ha => ha.1
    obtain ⟨n, hn⟩ := hall u rows hrows₁ l hl
    obtain ⟨y, hy, hyr⟩ := hp.took revoker _ (he ▸ List.mem_append_left _ hn) hc
    rw [hid, Keyed.get_of_mem hx] at hy
    cases hy
    exact hyr

/-- The revocation starts before the refresh commits, and reads its rows after that. -/
def refreshCovered : List (Label Call (Choice Unit)) :=
  .call 1 (.refreshToken (refreshTokenOf "s1") none) :: .call 2 (.logoutAll "alice") ::
    (effects 1 16 3 "s2" ++ effects 2 2 4 "" ++ effects 1 1 5 "" ++ effects 2 4 6 "" ++
      effects 1 3 7 "" ++ effects 2 3 8 "")

theorem revocation_covers_refresh :
    (sampleApp.afterwards refreshCovered signedIn).answer 1 =
      some (.ok (.pair ⟨accessToken "s2" 903, refreshTokenOf "s2", "bearer"⟩)) ∧
    (sampleApp.afterwards refreshCovered signedIn).world.db.sessions.rows.map
      SessionModel.id = ["s1", "s2"] ∧
    ∀ x ∈ (sampleApp.afterwards refreshCovered signedIn).world.db.sessions.rows,
      x.userId = "alice" → Concerns 1 signedIn.world.db
        (sampleApp.afterwards refreshCovered signedIn).world x.id → x.revokedAt ≠ none := by
  have hs : sampleApp.execs refreshCovered signedIn =
      some (sampleApp.afterwards refreshCovered signedIn) :=
    Service.execs_afterwards _ (by decide +kernel)
  refine ⟨by decide +kernel, by decide +kernel, ?_⟩
  exact revocation_covers (k := .logoutAll "alice") (r := .ok .done) signedIn_reachable
    (show signedIn.script 2 = none by decide +kernel) hs (by decide +kernel) (by decide +kernel)
    (by decide +kernel) ⟨rfl, rfl⟩

/-- The revocation reads its rows while the refresh waits to commit the new session. -/
def refreshOvertaken : List (Label Call (Choice Unit)) :=
  .call 1 (.refreshToken (refreshTokenOf "s1") none) :: .call 2 (.logoutAll "alice") ::
    (effects 1 16 3 "s2" ++ effects 2 4 4 "" ++ effects 1 4 5 "" ++ effects 2 5 6 "")

/-- Both calls have succeeded, and the session that the refresh opened is still active. -/
theorem refresh_overtaken : ∃ s, Reachable sampleConfig TimedStore.reliable signedIn ∧
    signedIn.world.db.unrevoked "s1" = true ∧
    sampleApp.execs refreshOvertaken signedIn = some s ∧
    s.answer 1 = some (.ok (.pair ⟨accessToken "s2" 903, refreshTokenOf "s2", "bearer"⟩)) ∧
    s.answer 2 = some (.ok .done) ∧
    (s.world.db.sessions.rows.map fun x => (x.id, x.userId, x.revokedAt)) =
      [("s1", "alice", some (seconds 4)), ("s2", "alice", none)] ∧
    (∀ x ∈ s.world.db.sessions.rows, s.world.clock < x.expiresAt) := by
  refine ⟨_, signedIn_reachable, by decide +kernel, Service.execs_afterwards _ (by decide +kernel),
    by decide +kernel, by decide +kernel, by decide +kernel, by decide +kernel⟩

end AsyncPulse
