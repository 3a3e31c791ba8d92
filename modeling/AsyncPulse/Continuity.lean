import AsyncPulse.EffectRaising
import AsyncPulse.RefreshExpiry
import AsyncPulse.Renewal
set_option autoImplicit false

namespace AsyncPulse
open Effect

structure SignsIn (cfg : Config) (h : List Act) (y : SessionModel) (a b : Claims)
    (resp : LoginResponse) : Prop where
  inserted : .wrote (.insertSession y) ∈ h
  committed : .committed ∈ h
  drew : .drew y.id ∈ h
  fits : fitsOpt 255 y.deviceInfo = true
  user : resp.userInfo.userId = y.userId
  pair : resp.tokenPair =
    { accessToken := cfg.jose.encode a, refreshToken := cfg.jose.encode b }
  tokens : ∃ t t₁ t₂, .clock t ∈ h ∧ t ≤ t₂ ∧ y.expiresAt = t + days cfg.refreshTokenExpireDays ∧
    Minted cfg y.userId y.id (days cfg.refreshTokenExpireDays) t₁ t₂ a b

section

variable {cfg : Config} {d : Database} {t₀ : Time} {h : List Act} {α β : Type}

theorem alone_skip {p : M α} {f : α → M β} {R : β → List Act → Prop}
    (hf : ∀ a l, Alone cfg d t₀ (f a) (fun r h' => ∀ b, r = .ok b → R b h') (h ++ l)) :
    Alone cfg d t₀ (p >>= f) (fun r h' => ∀ b, r = .ok b → R b h') h := by
  have hany : Alone cfg d t₀ p (fun _ _ => True) h :=
    Trace.wp_of_forall _ (fun _ => trivial) (fun _ _ => trivial) p h
  refine Trace.wp_seq _ trivial hany (fun a l _ _ => hf a l) fun x l _ _ b hb => ?_
  cases hb

theorem alone_opens {x : User} {dev ip : Option String} :
    Alone cfg d t₀ (openSession cfg x dev ip)
      (fun r h' => ∀ resp, r = .ok resp → ∃ y a b, SignsIn cfg h' y a b resp) h := by
  unfold openSession
  apply alone_uuid4
  intro u _
  apply alone_now
  intro t _
  unfold createAccessToken createRefreshToken
  apply alone_signToken
  intro t₁ a _ hat has hae han
  apply alone_signToken
  intro t₂ b ht₂ hbt hbs hbe hbn
  unfold UserSession.create
  rw [bind_assoc]
  apply alone_now
  intro t₃ _
  rw [pure_bind]
  unfold createSession
  apply alone_write
  · intro _ hf
    apply alone_commit
    apply alone_suppressSet
    unfold loginResponse
    split
    · intro resp hr
      cases hr
    · intro resp hr
      obtain rfl := Except.ok.inj hr
      let y : UserSession :=
        { id := u, userId := x.id, expiresAt := t + days cfg.refreshTokenExpireDays,
          deviceInfo := dev, ipAddress := ip, createdAt := t₃, revokedAt := none,
          previousSessionId := none }
      have hdev : fitsOpt 255 dev = true := (Bool.and_eq_true _ _ ▸ hf).1
      exact ⟨y.toModel, a, b, by simp [y], by simp, by simp [y, UserSession.toModel], hdev, rfl, rfl,
        t, t₁, t₂, by simp, ht₂ t (by simp), rfl, ⟨hat, has, hae⟩, ⟨hbt, hbs, hbe⟩,
        fun hs => ⟨han hs, hbn hs⟩⟩
  · intro y _ resp hr
    cases hr

theorem alone_signsIn {e p : String} {dev ip : Option String} :
    Alone cfg d t₀ (authenticate cfg e p dev ip)
      (fun r h => ∀ resp, r = .ok resp → ∃ y a b, SignsIn cfg h y a b resp) [] := by
  unfold authenticate
  apply alone_skip
  intro user l
  cases user with
  | none =>
    intro resp hr
    cases hr
  | some user =>
    apply alone_skip
    intro valid l
    apply alone_skip
    intro _ l
    apply alone_skip
    intro _ l
    apply alone_skip
    intro _ l
    apply alone_skip
    intro sessions l
    apply alone_skip
    intro _ l
    exact alone_opens

end

/-- The call does not act for user `u`, does not end its session `s`, and is no login of `u`. -/
structure Call.Leaves (cfg : Config) (d : Database) (u s : String) (k : Call) : Prop where
  mass : ¬ k.RevokesAll cfg u
  logout : k ≠ .logout s
  logoutRoute : ∀ t c, k = .logoutRoute t → cfg.jose.verify t = some c → c.sid ≠ some s
  login : ∀ e p dev ip x, k = .authenticate e p dev ip → d.users.get u = some x → x.email ≠ e

variable {γ χ : Type} {cfg : Config} {C : MayCache Key Json γ χ} {gap : World γ → World γ → Prop}
  {m : Nat → Option Call} {n : Nat} {k : Call} {r : Except Exc Out} {w w' : World γ}

theorem Between.does (h : Between cfg C m n w) (hc : (app cfg C).Completed gap n k r w w')
    {Q : Except Exc Out → List Act → Prop} (hp : ∀ t₀, Alone cfg w.db t₀ (Call.prog cfg k) Q []) :
    ∃ start, gap w (w.setClock start) ∧ Turn cfg C m n k r start w w' ∧ Q r (w'.hist n) := by
  obtain ⟨c, w₁, cs, ht, hgap, ha, hr⟩ := hc
  obtain ⟨-, rfl⟩ := app_tick ht
  have hvacant : Vacant (w.setClock c.time) n := ⟨h.pending n, h.locks⟩
  obtain ⟨l, hl, hq⟩ := hvacant.run (hp c.time) hr
  have hhist : w'.hist n = l := by
    rw [hl.hist, World.setClock_hist, h.provenance.idle n (h.unmade n (Nat.le_refl n)),
      List.nil_append]
  have hcompleted : (app cfg C).Completed gap n k r w w' := ⟨c, _, cs, ht, hgap, ha, hr⟩
  obtain ⟨start, hgap', hturn⟩ := h.completed hcompleted
  exact ⟨start, hgap', hturn, hhist ▸ hq⟩

theorem Between.login_leaves (h : Between cfg C m n w) {e p : String} {dev ip : Option String}
    (hc : (app cfg C).Completed gap n (.authenticate e p dev ip) r w w') {u s : String}
    {x : SessionModel} (hx : w.db.sessions.get s = some x) (hu : x.userId = u)
    (hno : ∀ z, w.db.users.get u = some z → z.email ≠ e) : w'.db.sessions.get s = some x := by
  obtain ⟨start, -, hturn, r', l, -, hhist, hrun⟩ := h.does hc fun _ => alone_login
  have hdb := hturn.alone.played.db
  rw [hhist] at hdb
  have hunwritten : .committed ∉ l → w'.db.sessions.get s = some x := by
    intro hn
    rw [hdb, ledger_uncommitted (by simp [hn])]
    exact hx
  cases hrun with
  | denied hd => exact hunwritten (by simp)
  | refused hy href => exact hunwritten (by simp [loginTrail, evictionTrail, openingTrail])
  | @opened _ y now t t₁ t₂ t₃ rank evs v a b hy _ hevs _ hfit =>
    have hv : w.db.sessions.get v = none := by
      simp only [Unfit, not_or, not_not] at hfit
      exact hfit.2.2
    have hne : s ≠ v := by
      rintro rfl
      rw [hv] at hx
      cases hx
    unfold loginTrail at hdb
    rw [hdb, ledger_login (by simp [Act.still])]
    refine (get_login (r := loginRow cfg y dev ip v t t₃) evs hv s).trans ?_
    rw [if_neg (show s ≠ (loginRow cfg y dev ip v t t₃).id from hne), get_evictions_of_ne ?_]
    · exact hx
    intro z hz hid
    have hz' : z.1 ∈ surplus ((SessionQuery.activeOf y.id now).eval rank w.db.sessions) :=
      hevs ▸ List.mem_map_of_mem hz
    obtain ⟨hrow, hact⟩ := mem_activeOf.mp ((surplus_sublist _).mem hz')
    have hrow' := Keyed.get_of_mem hrow
    rw [hid, hx] at hrow'
    cases hrow'
    have hyu : w.db.users.get u = some y := by
      rw [← hu, hact.1]
      exact Keyed.get_of_mem hy.mem
    exact hno y hyu hy.email

theorem Between.leaves (h : Between cfg C m n w) (hc : (app cfg C).Completed gap n k r w w')
    {u s : String} {x : SessionModel} (hx : w.db.sessions.get s = some x) (hu : x.userId = u)
    (hlive : x.revokedAt = none) (hk : k.Leaves cfg w.db u s) :
    w'.db.sessions.get s = some x := by
  obtain ⟨start, -, hturn⟩ := h.completed hc
  obtain ⟨x', hx', hcore, -⟩ := hturn.grows.sessions s x hx
  cases hrev : x'.revokedAt with
  | none => rw [hx', SessionModel.eq_of_core hcore (hrev.trans hlive.symm)]
  | some t =>
    obtain ⟨a, b, hw, hcom, rfl, -⟩ := hturn.revoked hx hlive hx' hrev
    obtain ⟨k', h₁, h₂, hm, he, -, -, hrevokes⟩ := hturn.after.provenance.wrote hw
    rw [Function.update_self] at hm
    cases hm
    obtain ⟨y, hy, hycore, -⟩ := hturn.alone.saw a (he ▸ hrevokes.saw.mono)
    rw [World.setClock_db, hx] at hy
    cases hy
    have hau : a.userId = u := (SessionModel.core_userId hycore).symm.trans hu
    cases hrevokes.reason with
    | rotation v hv =>
      have hown := hturn.after.provenance.refreshed_owner (Function.update_self _ _ _) hv hx'
      rw [SessionModel.core_userId hcore, hu] at hown
      exact absurd (hown ▸ hv.revokesAll) hk.mass
    | eviction e p dev ip t rows hk' _ _ _ =>
      subst hk'
      have hsame := h.login_leaves hc hx hu fun z hz => hk.login e p dev ip z rfl hz
      rw [hx'] at hsame
      cases hsame
      rw [hlive] at hrev
      cases hrev
    | logout hk' => exact absurd hk' hk.logout
    | logoutRoute token c hk' hv hsid => exact absurd hsid (hk.logoutRoute token c hk' hv)
    | mass rows hread _ =>
      obtain ⟨h₃, h₄, -, -, -, -, hmass⟩ := hturn.lawful.of_mem (he ▸ List.mem_append_left _ hread)
      exact absurd (hau ▸ (hmass a.userId rfl).1) hk.mass

/-- `p` is the pair of an unrevoked session of user `u` that expires at `e`. -/
structure Bearer (cfg : Config) (w : World γ) (u : String) (e : Time) (p : TokenPair) (a b : Claims)
    (row : SessionModel) : Prop where
  pair : p = { accessToken := cfg.jose.encode a, refreshToken := cfg.jose.encode b }
  access : a.type = .access ∧ a.sub = u ∧ a.sid = some row.id
  refresh : b.type = .refresh ∧ b.sub = u ∧ b.jti = some row.id
  lasting : wholeSeconds e ≤ b.exp + 1
  found : w.db.sessions.get row.id = some row
  owner : row.userId = u
  live : row.revokedAt = none
  expires : row.expiresAt = e
  fits : fitsOpt 255 row.deviceInfo = true

theorem wholeSeconds_mono {t t' : Int} (h : t ≤ t') : wholeSeconds t ≤ wholeSeconds t' :=
  Int.ediv_le_ediv (by decide) h

/-- The token that is dated after the measurement lasts but a second less than the session. -/
theorem lasting_of_measured {e t t' : Int} (h : t ≤ t') :
    wholeSeconds e ≤ wholeSeconds (t' + seconds (remainingSeconds e t)) + 1 := by
  rw [wholeSeconds_add_seconds]
  by_cases hle : t ≤ e
  · rw [remainingSeconds_of_le hle]
    change e / 1000000 ≤ t' / 1000000 + (e - t) / 1000000 + 1
    omega
  · rw [remainingSeconds_of_lt (Int.not_le.mp hle)]
    change e / 1000000 ≤ t' / 1000000 + 0 + 1
    omega

namespace Bearer

variable {u : String} {e : Time} {p : TokenPair} {a b : Claims} {row : SessionModel}

theorem of_same (hb : Bearer cfg w u e p a b row)
    (hx : w'.db.sessions.get row.id = some row) : Bearer cfg w' u e p a b row :=
  { hb with found := hx }

theorem verify_access (hb : Bearer cfg w u e p a b row) :
    cfg.jose.verify p.accessToken = some a := by
  rw [hb.pair]
  exact cfg.jose.verify_encode a

theorem verify (hb : Bearer cfg w u e p a b row) : cfg.jose.verify p.refreshToken = some b := by
  rw [hb.pair]
  exact cfg.jose.verify_encode b

theorem named (hb : Bearer cfg w u e p a b row) {t : Time} {c : Claims} {row' : SessionModel}
    (hn : Named cfg w.db p.refreshToken t c row') : c = b ∧ row' = row := by
  obtain rfl : b = c := Option.some.inj (hb.verify.symm.trans hn.verified)
  have hsame : row'.id = row.id := Option.some.inj (hn.jti.symm.trans hb.refresh.2.2)
  have hfound := hn.found
  rw [hsame, hb.found] at hfound
  exact ⟨rfl, (Option.some.inj hfound).symm⟩

theorem in_service (hb : Bearer cfg w u e p a b row) (h : Between cfg C m n w)
    (hbarred : Barred w) : ∃ z, w.db.users.get u = some z ∧ z.InService := by
  obtain ⟨z, hz⟩ := h.provenance.session_user (Keyed.mem_of_get hb.found)
  refine ⟨z, hb.owner ▸ hz, ?_⟩
  by_contra hout
  exact hbarred row (Keyed.mem_of_get hb.found) z hz hout hb.live

theorem late_of_declined (hb : Bearer cfg w u e p a b row) (h : Between cfg C m n w)
    (hbarred : Barred w) {y : Exc} {l : List Act} {t₁ : Time}
    (hd : Declined cfg w.db p.refreshToken y l) (hclock : ∀ t, .clock t ∈ l → t ≤ t₁) :
    e < t₁ + seconds 1 := by
  by_contra htime
  have htime : t₁ + seconds 1 ≤ e := Int.not_lt.mp htime
  have hverify := hb.verify
  obtain ⟨z, hz, hin⟩ := hb.in_service h hbarred
  cases hd with
  | forged hv =>
    rw [hverify] at hv
    cases hv
  | late c t hv hlate =>
    rw [hverify] at hv
    cases hv
    have hearly : wholeSeconds t + 1 ≤ b.exp + 1 := by
      calc wholeSeconds t + 1 ≤ wholeSeconds t₁ + 1 :=
            Int.add_le_add_right (wholeSeconds_mono (hclock t (by simp))) 1
        _ = wholeSeconds (t₁ + seconds 1) := (wholeSeconds_add_seconds _ _).symm
        _ ≤ wholeSeconds e := wholeSeconds_mono htime
        _ ≤ b.exp + 1 := hb.lasting
    exact absurd hlate (Int.not_lt.mpr (Int.le_of_add_le_add_right hearly))
  | misused c t hv hty =>
    rw [hverify] at hv
    cases hv
    exact hty hb.refresh.1
  | blank c t hv hids =>
    rw [hverify] at hv
    cases hv
    rw [hb.refresh.2.2, hb.refresh.2.1] at hids
    rcases hids with hid | hu
    · obtain ⟨j, hj⟩ := h.provenance.drawn_of_row hb.found
      exact h.provenance.drawnId _ _ hj hid
    · exact h.provenance.userId u z hz hu
  | unknown c s t hv hj hnone =>
    rw [hverify] at hv
    cases hv
    rw [hb.refresh.2.2] at hj
    cases hj
    rw [hb.found] at hnone
    cases hnone
  | expired c row' t t' hn hlive hexp =>
    obtain ⟨-, rfl⟩ := hb.named hn
    rw [hb.expires] at hexp
    have hover : e < t₁ := Int.lt_of_lt_of_le hexp (hclock t' (by simp))
    have hbefore : t₁ ≤ t₁ + seconds 1 := Int.le_add_of_nonneg_right (by decide)
    exact absurd hover (Int.not_lt.mpr (Int.le_trans hbefore htime))
  | barred c row' t t' rows hn hlive hout =>
    obtain ⟨rfl, -⟩ := hb.named hn
    exact hout z (hb.refresh.2.1.symm ▸ hz) hin

theorem refused_address (hb : Bearer cfg w u e p a b row) (h : Between cfg C m n w)
    {ip : Option String} {c : Claims} {x : UserModel} {t t' t₅ : Time} {s : String} {y : Exc}
    (hx : Renewable cfg w.db p.refreshToken t t' c row x)
    (hy : (Write.insertSession (successor c.sub row ip s t₅)).Refusal w.db y)
    (hs : w.drawn s = none) : fitsOpt 45 ip = false := by
  obtain hdev | hip | htaken := unfit_of_refused hx.user hx.found hy
  · rw [hb.fits] at hdev
    cases hdev
  · exact hip
  · obtain ⟨x', hx'⟩ := Option.ne_none_iff_exists'.mp htaken
    obtain ⟨j, hj⟩ := h.provenance.drawn_of_row hx'
    rw [hs] at hj
    cases hj

/-- Nothing but time and the request's own address can keep a bearer from a new pair, and then it
keeps the old one. -/
theorem refreshed (hb : Bearer cfg w u e p a b row) (h : Between cfg C m n w) (hbarred : Barred w)
    {ip : Option String}
    (hc : (app cfg C).Completed gap n (.refreshToken p.refreshToken ip) r w w') :
    (∃ p' a' b' row', r = .ok (.pair p') ∧ Bearer cfg w' u e p' a' b' row') ∨
      (∃ x, r = .error x) ∧ Bearer cfg w' u e p a b row ∧
        ¬ (fitsOpt 45 ip = true ∧ w'.clock + seconds 1 ≤ e) := by
  have hp : ∀ t₀, Alone cfg w.db t₀ (Call.prog cfg (.refreshToken p.refreshToken ip))
      (fun r h => ∃ (r' : Except Exc TokenPair) (h' : List Act), r = r'.map Out.pair ∧
        h = h' ++ [Act.closed] ∧ RefreshRun cfg w.db p.refreshToken ip r' h') [] :=
    fun t₀ => alone_prog rfl alone_refreshToken
  obtain ⟨start, -, hturn, r', l, rfl, hhist, hrun⟩ := h.does hc hp
  have hplayed := hturn.alone.played
  rw [hhist] at hplayed
  -- A call that has committed nothing leaves the bearer its pair.
  have hkept : ∀ x, r' = .error x → .committed ∉ l → ¬ (fitsOpt 45 ip = true ∧
      w'.clock + seconds 1 ≤ e) → (∃ x, r'.map Out.pair = .error x) ∧
        Bearer cfg w' u e p a b row ∧ ¬ (fitsOpt 45 ip = true ∧ w'.clock + seconds 1 ≤ e) := by
    intro x hx hn hlate
    refine ⟨⟨x, by rw [hx]; rfl⟩, hb.of_same ?_, hlate⟩
    rw [show w'.db = w.db from hplayed.unchanged hn]
    exact hb.found
  cases hrun with
  | @declined y _ hd =>
    right
    have hno : .committed ∉ l := fun hm => by simpa [Act.still] using hd.still _ hm
    have hlate := hb.late_of_declined h hbarred hd fun t ht =>
      (hplayed.clock t (List.mem_append_left _ ht)).2
    exact hkept y rfl hno fun hin => absurd hlate (Int.not_lt.mpr hin.2)
  | replayed hn hrev | reused hn hrev =>
    obtain ⟨-, rfl⟩ := hb.named hn
    rw [hb.live] at hrev
    cases hrev
  | @refused c row' x t t' t₁ t₂ t₃ t₄ t₅ s a' b' y hx hy =>
    right
    obtain ⟨-, rfl⟩ := hb.named hx.toNamed
    refine hkept y rfl (by simp [renewing, evictionTrail]) fun hin => ?_
    have hunfit := hb.refused_address h hx hy (hturn.undrawn (by rw [hhist]; simp))
    rw [hin.1] at hunfit
    cases hunfit
  | @renewed c row' x t t' t₁ t₂ t₃ t₄ t₅ s a' b' hx hfit hm ht =>
    left
    obtain ⟨rfl, rfl⟩ := hb.named hx.toNamed
    have hrot : Rotates cfg C c.sub row' ip s (w.setClock start) w'
        { accessToken := cfg.jose.encode a', refreshToken := cfg.jose.encode b' } :=
      hplayed.rotates hx hfit rfl hm
    obtain ⟨t₆, hnew⟩ := hrot.opened.2
    have hne : s ≠ "" := hturn.after.provenance.drawnId s n
      ((hturn.after.provenance.drawn _ _).mpr
        (by rw [hhist]; simp [rotationTrail, successor]))
    obtain ⟨han, hbn⟩ := hm.names hne
    refine ⟨_, a', b', successor c.sub row' ip s t₆, rfl, rfl,
      ⟨hm.access.1, hm.access.2.1.trans hb.refresh.2.1, han.sid hm.access.1⟩,
      ⟨hm.refresh.1, hm.refresh.2.1.trans hb.refresh.2.1, hbn.jti hm.refresh.1⟩, ?_, hnew,
      hb.refresh.2.1, rfl, hb.expires, hb.fits⟩
    rw [hm.refresh.2.2, hb.expires]
    exact lasting_of_measured ht

theorem admitted (hb : Bearer cfg w u e p a b row) (h : Between cfg C m n w) (hbarred : Barred w)
    (hcoh : Coherent C w)
    (hc : (app cfg C).Completed Later n (.getCurrentUser p.accessToken) r w w')
    (hactive : ∀ x, w.db.users.get u = some x → x.status = .active)
    (hexp : wholeSeconds w'.clock ≤ a.exp) (hle : w'.clock ≤ e) :
    ∃ z : User, r = .ok (.user z) ∧ z.id = u := by
  obtain ⟨start, hlate, hturn⟩ := h.completed hc
  obtain ⟨r₀, t, t', l, rfl, hhist, ht', -, hverdict⟩ :=
    hturn.gate hcoh hlate rfl hb.verify_access hb.access.1
  have hclock : ∀ t, .clock t ∈ w'.hist n → t ≤ w'.clock := fun t ht =>
    (hturn.alone.played.clock t ht).2
  obtain ⟨x, hx, hin⟩ := hb.in_service h hbarred
  have hgate : tableGate w.db a t t' = some x := by
    refine (tableGate_eq_some hb.access.2.2).mpr ⟨row, hb.found, hb.access.2.1.symm ▸ hx, ?_,
      hb.owner.trans hb.access.2.1.symm, hb.live, ?_, hin.1, hactive x hx⟩
    · exact Int.le_trans (wholeSeconds_mono (hclock t (by rw [hhist]; simp))) hexp
    · rw [hb.expires]
      exact Int.le_trans (hclock t' ht') hle
  rw [hgate] at hverdict
  generalize ho : (some x : Option UserModel) = o at hverdict
  cases hverdict with
  | rejected msg => cases ho
  | passed y z hblank =>
    cases ho
    have hid : x.id = u := Keyed.key_of_get hx
    exact ⟨z, rfl, (congrArg User.id hblank).trans hid⟩

end Bearer

def TokenPair.next (p : TokenPair) : Except Exc Out → TokenPair
  | .ok o => o.pair?.getD p
  | .error _ => p

end AsyncPulse
