import AsyncPulse.EffectRaising
import AsyncPulse.SessionForest
import AsyncPulse.WriteOrder
set_option autoImplicit false

namespace AsyncPulse
open Effect

variable {γ χ : Type} {cfg : Config} {C : MayCache Key Json γ χ}

/-- The record of a login as `e` with the password `pw`: only users with that address are looked
up, and nothing is written unless the password is theirs. -/
structure Matched (cfg : Config) (e pw : String) (h : List Act) : Prop where
  found : ∀ z, SawUser h z → z.email = e
  matched : ∀ v, .wrote v ∈ h → ∀ z, SawUser h z → cfg.checkpw pw z.hashedPassword = .ok true

theorem Matched.nil {e pw : String} : Matched cfg e pw [] :=
  ⟨fun z hz => by simp [SawUser] at hz, by simp⟩

def Eff.Unlooking : {β : Type} → Eff β → Prop
  | _, .selectUsers _ => False
  | _, _ => True

def Known (cfg : Config) (e pw : String) (h : List Act) : Prop :=
  ∀ z, SawUser h z → z.email = e ∧ cfg.checkpw pw z.hashedPassword = .ok true

section Programs

variable {e pw : String} {α β : Type} {h : List Act}

theorem Known.matched (hk : Known cfg e pw h) : Matched cfg e pw h :=
  ⟨fun z hz => (hk z hz).1, fun _ _ z hz => (hk z hz).2⟩

theorem Eff.Unlooking.sawUser {f : Eff β} (hf : f.Unlooking) {r : Except Exc β} {z : UserModel}
    (hz : SawUser (h ++ [f.act r]) z) : SawUser h z := by
  rcases sawUser_snoc.mp hz with hz | ⟨q, rows, ha, -⟩
  · exact hz
  · cases f with
    | selectUsers q => exact hf.elim
    | _ => cases r <;> simp [Eff.act] at ha

theorem matched_known {p : M α} (hp : Only Eff.Unlooking p) (hk : Known cfg e pw h) :
    (records cfg).wp (Matched cfg e pw) p (fun _ => Matched cfg e pw) h :=
  Trace.wp_mono _ (hp.wp (I := Known cfg e pw) (fun _ hi => hi.matched)
    (fun _ _ _ hf hi z hz => hi z (hf.sawUser hz)) hk) fun _ _ hi => hi.matched

theorem unlooking_evict (s : UserSession) : Only Eff.Unlooking (evict s) := by
  refine Only.bind ?_ fun s => Only.bind ?_ fun _ => Only.suppress (Only.perform trivial)
  · unfold UserSession.revoke
    cases s.revokedAt with
    | none => exact (Only.perform trivial).bind fun _ => Only.pure
    | some t => exact Only.pure
  · refine (Only.perform trivial).bind fun rows => ?_
    cases rows with
    | nil => exact Only.perform trivial
    | cons loaded rest =>
      simp only
      split
      · exact Only.pure
      · exact Only.perform trivial

theorem unlooking_openSession (user : User) (d ip : Option String) :
    Only Eff.Unlooking (openSession cfg user d ip) := by
  have htoken : ∀ u t ty s, Only Eff.Unlooking (createToken u t ty s) := fun _ _ _ _ =>
    (Only.perform trivial).bind fun _ => Only.perform trivial
  refine (Only.perform trivial).bind fun _ => (Only.perform trivial).bind fun _ => ?_
  refine (htoken ..).bind fun _ => (htoken ..).bind fun _ => ?_
  refine Only.bind ((Only.perform trivial).bind fun _ => Only.pure) fun _ => ?_
  refine (Only.perform trivial).bind fun _ => (Only.perform trivial).bind fun _ => ?_
  refine (Only.suppress (Only.perform trivial)).bind fun _ => ?_
  unfold loginResponse
  cases user.name with
  | none => exact Only.throw
  | some name => exact Only.pure

theorem matched_authenticate {d ip : Option String} :
    (records cfg).wp (Matched cfg e pw) (authenticate cfg e pw d ip)
      (fun _ => Matched cfg e pw) [] := by
  rintro r ⟨rows, rfl, hr⟩
  have hfound : ∀ z, SawUser ([] ++ [(records cfg).event (.selectUsers (.byEmail e)) (.ok rows)]) z →
      z ∈ rows ∧ z.email = e := by
    intro z hz
    rcases sawUser_snoc.mp hz with hz | ⟨q, rows', ha, hmem⟩
    · simp [SawUser] at hz
    · cases ha
      have hsel : z.email = e ∧ z.deletedAt = none := by
        simpa [UserQuery.selects] using hr.selects z hmem
      exact ⟨hmem, hsel.1⟩
  have hm : Matched cfg e pw
      ([] ++ [(records cfg).event (.selectUsers (.byEmail e)) (.ok rows)]) :=
    ⟨fun z hz => (hfound z hz).2, by simp [records, Eff.act]⟩
  refine ⟨hm, ?_⟩
  rcases rows with _ | ⟨x, _ | ⟨y, rest⟩⟩
  · exact hm
  · change (records cfg).wp _ (verifyPassword cfg pw x.hashedPassword >>= _) _ _
    unfold verifyPassword
    cases hc : cfg.checkpw pw x.hashedPassword with
    | error y => exact hm
    | ok valid =>
      cases valid with
      | false => exact hm
      | true =>
        refine matched_known (Only.raiseIf.bind fun _ => Only.raiseIf.bind fun _ =>
          Only.raiseIf.bind fun _ => ?_) fun z hz => ?_
        · refine Only.bind ((Only.perform trivial).bind fun _ => (Only.perform trivial).bind
            fun _ => Only.pure) fun _ => ?_
          exact (Only.forM unlooking_evict).bind fun _ => unlooking_openSession ..
        · obtain ⟨hz, he⟩ := hfound z hz
          rw [List.mem_singleton.mp hz] at he ⊢
          exact ⟨he, hc⟩
  · exact hm

def Verified (cfg : Config) (k : Call) (h : List Act) : Prop :=
  ∀ e pw d ip, k = .authenticate e pw d ip → Matched cfg e pw h

theorem verified_authenticate {d ip : Option String} :
    Verified cfg (.authenticate e pw d ip) = Matched cfg e pw := by
  funext h
  refine propext ⟨fun hv => hv e pw d ip rfl, ?_⟩
  rintro hm _ _ _ _ ⟨⟩
  exact hm

theorem verified_prog (k : Call) :
    (records cfg).wp (Verified cfg k) (k.prog cfg) (fun _ _ => True) [] := by
  cases k
  case authenticate e pw d ip =>
    rw [verified_authenticate]
    refine (Trace.wp_ensure _ _ _ _ _).mpr ((Trace.wp_map _ _ _ _ _).mpr ?_)
    refine Trace.wp_mono _ matched_authenticate fun r h hm x _ => ⟨?_, trivial⟩
    have hclose : Eff.close.Unlooking := trivial
    refine ⟨fun z hz => hm.found z (hclose.sawUser hz), fun v hv z hz => ?_⟩
    have hv : .wrote v ∈ h := by
      rcases List.mem_append.mp hv with hv | hv
      · exact hv
      · cases x <;> simp [records, Eff.act] at hv
    exact hm.matched v hv z (hclose.sawUser hz)
  all_goals
    exact Trace.wp_of_forall _ (fun h e pw d ip hk => by cases hk) (fun _ _ => trivial) _ _

end Programs

/-- Call `i` is a login as user `u`, with the password that `u` had by then. -/
def SignedInAs (cfg : Config) (m : Nat → Option Call) (w : World γ) (i : Nat) (u : String) : Prop :=
  ∃ e pw d ip z, m i = some (.authenticate e pw d ip) ∧ SawUser (w.hist i) z ∧ z.id = u ∧
    z.email = e ∧ z.InService ∧ cfg.checkpw pw z.hashedPassword = .ok true

def OpenedBy (w : World γ) (i : Nat) (x : SessionModel) : Prop :=
  ∃ r, .wrote (.insertSession r) ∈ w.hist i ∧ r.id = x.id

/-- How session `x` has been come by: the call that inserted it is such a login, or was given the
refresh token of a session that was come by in this way. -/
inductive Earned (cfg : Config) (m : Nat → Option Call) (w : World γ) : SessionModel → Prop where
  | login {x : SessionModel} (i : Nat) : x ∈ w.db.sessions.rows → x.previousSessionId = none →
      OpenedBy w i x → SignedInAs cfg m w i x.userId → Earned cfg m w x
  | refresh {x y : SessionModel} (i : Nat) (k : Call) : x ∈ w.db.sessions.rows →
      x.previousSessionId = some y.id → OpenedBy w i x → m i = some k →
      k.Refreshes cfg y.id x.userId → Earned cfg m w y → Earned cfg m w x

section Runs

variable {s : State γ}

theorem Reachable.signedIn (hr : Reachable cfg C s) {i : Nat} {r : SessionModel}
    (hw : .wrote (.insertSession r) ∈ s.world.hist i) (hp : r.previousSessionId = none) :
    SignedInAs cfg s.script s.world i r.userId := by
  obtain ⟨k, h₁, h₂, hk, he, -, -, hop⟩ := hr.provenance.wrote hw
  have hop : Opens cfg k h₁ r := hop
  cases hop.origin with
  | rotation row _ _ hrow => rw [hp] at hrow; cases hrow
  | login e pw d ip t t' rows hk' =>
    subst hk'
    have hmatched : Matched cfg e pw (s.world.hist i) :=
      (hr.programs (fun _ _ _ _ _ _ => .nil) verified_prog hk).1 e pw d ip rfl
    obtain ⟨z, hz, hid, hserv⟩ := hop.user
    have hsaw : SawUser (s.world.hist i) z := he ▸ hz.mono
    exact ⟨e, pw, d, ip, z, hk, hsaw, hid, hmatched.found z hsaw, hserv,
      hmatched.matched _ hw z hsaw⟩

theorem Reachable.earned (hr : Reachable cfg C s) {x : SessionModel}
    (hx : x ∈ s.world.db.sessions.rows) : Earned cfg s.script s.world x := by
  obtain ⟨y, hy, hd⟩ := hr.rooted x hx
  have h := hr.provenance
  induction hd with
  | refl hm =>
    obtain ⟨i, k, r, h₁, hw, -, hcore, -⟩ := h.inserted hm
    have hsigned := hr.signedIn hw ((SessionModel.core_previous hcore).symm.trans hy)
    exact .login i hm hy ⟨r, hw, (SessionModel.core_id hcore).symm⟩
      (SessionModel.core_userId hcore ▸ hsigned)
  | @step z x hd hm hp ih =>
    obtain ⟨i, k, r, h₁, hw, -, hcore, hk, hsub, hop⟩ := h.inserted hm
    have hprev := (SessionModel.core_previous hcore).symm.trans hp
    have huser := SessionModel.core_userId hcore
    cases hop.origin with
    | login _ _ _ _ _ _ _ _ hnone => rw [hnone] at hprev; cases hprev
    | rotation row rows t hrow href =>
      rw [hrow, Option.some.injEq] at hprev
      exact .refresh i k hm hp ⟨r, hw, (SessionModel.core_id hcore).symm⟩ hk
        (huser ▸ hprev ▸ href) (ih hd.mem)

def TokensOf (cfg : Config) (x : SessionModel) (p : TokenPair) : Prop :=
  ∃ a b : Claims, p = { accessToken := cfg.jose.encode a, refreshToken := cfg.jose.encode b } ∧
    a.type = .access ∧ a.sid = some x.id ∧ a.sub = x.userId ∧
    b.type = .refresh ∧ b.jti = some x.id ∧ b.sub = x.userId

def SignedFor (cfg : Config) (w : World γ) (x : SessionModel) (p : TokenPair) : Prop :=
  ∃ j r a b, .wrote (.insertSession r) ∈ w.hist j ∧ r.id = x.id ∧ .signed a ∈ w.hist j ∧
    .signed b ∈ w.hist j ∧ a.type = .access ∧ b.type = .refresh ∧
    p = { accessToken := cfg.jose.encode a, refreshToken := cfg.jose.encode b }

section Signed

variable {m : Nat → Option Call} {w : World γ} {x : SessionModel} {p p' : TokenPair}

theorem Provenance.signedFor_unique (h : Provenance cfg C m w) (hp : SignedFor cfg w x p)
    (hp' : SignedFor cfg w x p') : p = p' := by
  obtain ⟨j, r, a, b, hr, hid, ha, hb, hat, hbt, rfl⟩ := hp
  obtain ⟨j', r', a', b', hr', hid', ha', hb', hat', hbt', rfl⟩ := hp'
  have hj := h.drawn_of_inserted hr
  have hj' := h.drawn_of_inserted hr'
  rw [hid] at hj
  rw [hid', hj, Option.some.injEq] at hj'
  subst hj'
  obtain ⟨k, -, hl⟩ := h.lawful_of_mem ha
  rw [hl.signed_unique ha ha' (hat.trans hat'.symm), hl.signed_unique hb hb' (hbt.trans hbt'.symm)]

theorem Provenance.signedFor_tokens (h : Provenance cfg C m w) (hx : x ∈ w.db.sessions.rows)
    (hp : SignedFor cfg w x p) : TokensOf cfg x p := by
  obtain ⟨j, r, a, b, hr, hid, ha, hb, hat, hbt, rfl⟩ := hp
  obtain ⟨k, -, hl⟩ := h.lawful_of_mem ha
  have han := (hl.signed_insert ha hr).1
  have hbn := (hl.signed_insert hb hr).1
  rw [hid] at han hbn
  have hget := Keyed.get_of_mem hx
  exact ⟨a, b, rfl, hat, han.sid hat, ((h.signer hget ha han).1).symm, hbt, hbn.jti hbt,
    ((h.signer hget hb hbn).1).symm⟩

theorem TokensOf.session {x y : SessionModel} (hx : TokensOf cfg x p) (hy : TokensOf cfg y p) :
    x.id = y.id := by
  obtain ⟨a, b, rfl, -, hs, -⟩ := hx
  obtain ⟨a', b', he, -, hs', -⟩ := hy
  have hv := congrArg (fun p => cfg.jose.verify p.accessToken) he
  simp only [cfg.jose.verify_encode, Option.some.injEq] at hv
  rw [hv, hs'] at hs
  exact (Option.some.inj hs).symm

end Signed

def Call.Sparing (k : Call) (r : Except Exc Out) : Prop :=
  ∀ o p, r = .ok o → o.pair? = some p →
    (∃ e pw d ip, k = .authenticate e pw d ip) ∨ k.isRefresh = true

theorem sparing_body (k : Call) :
    (records cfg).wp (fun _ => True) (k.body cfg) (fun r _ => k.Sparing r) [] := by
  have hmap : ∀ {β : Type} {f : β → Out} {p : M β}, (∀ a, (f a).pair? = none) →
      (records cfg).wp (fun _ => True) (f <$> p) (fun r _ => k.Sparing r) [] := by
    intro β f p hf
    refine (Trace.wp_map _ _ _ _ _).mpr (Trace.wp_of_forall _ (fun _ => trivial) ?_ _ _)
    intro r _ o q ho hq
    obtain ⟨a, -, rfl⟩ := map_eq_ok ho
    rw [hf a] at hq
    cases hq
  cases k
  case authenticate e pw d ip =>
    exact Trace.wp_of_forall _ (fun _ => trivial) (fun _ _ _ _ _ _ => .inl ⟨e, pw, d, ip, rfl⟩) _ _
  case refreshToken | refreshRoute =>
    exact Trace.wp_of_forall _ (fun _ => trivial) (fun _ _ _ _ _ _ => .inr rfl) _ _
  case listUsers offset limit =>
    refine (Trace.wp_bind _ _ _ _ _).mpr (Trace.wp_of_forall _ (fun _ => trivial) ?_ _ _)
    rintro (y | ⟨users, total⟩) h o p ho hp
    · cases ho
    · cases ho
      cases hp
  all_goals exact hmap fun _ => rfl

theorem sparing_prog (k : Call) :
    (records cfg).wp (fun _ => True) (k.prog cfg) (fun r _ => k.Sparing r) [] := by
  refine (Trace.wp_ensure _ _ _ _ _).mpr (Trace.wp_mono _ (sparing_body k) ?_)
  exact fun r h hr _ _ => ⟨trivial, hr⟩

theorem Call.Finished.refreshes {k : Call} {o : Out} {p : TokenPair} {h : List Act}
    (hf : k.Finished cfg (.ok o) h) (hk : k.isRefresh = true) (hp : o.pair? = some p) :
    ∃ sid u, k.Refreshes cfg sid u ∧ o = .pair p := by
  obtain ⟨h₀, -, -, -, hd⟩ := hf
  have hdone : ∀ request r', request ∈ k.tokens → .ok o = r'.map Out.pair →
      RefreshDone cfg request r' h₀ → ∃ sid u, k.Refreshes cfg sid u ∧ o = .pair p := by
    intro request r' hreq hr' hdone
    obtain ⟨p', rfl, rfl⟩ := map_eq_ok hr'.symm
    cases hp
    obtain ⟨c, sid, hv, hty, hj, -⟩ := hdone.issued p rfl
    exact ⟨sid, c.sub, ⟨hk, c, ⟨request, hreq, hv⟩, hty, hj, rfl⟩, rfl⟩
  cases k <;> simp only [Call.isRefresh, Bool.false_eq_true] at hk
  case refreshToken request ip =>
    obtain ⟨r', hr', hd⟩ := hd
    exact hdone request r' (by simp [Call.tokens]) hr' hd
  case refreshRoute b c ip =>
    rcases hd with ⟨-, he⟩ | ⟨request, hreq, r', hr', hd⟩
    · cases he
    · exact hdone request r' (by simp [Call.tokens, hreq]) hr' hd

/-- Tokens are handed out to the login that opened the session, and to those who present the refresh
token of the session's predecessor. -/
theorem Reachable.handed (hr : Reachable cfg C s) {i : Nat} {k : Call} {o : Out} {p : TokenPair}
    (hk : s.script i = some k) (hi : s.answer i = some (.ok o)) (hp : o.pair? = some p) :
    ∃ x ∈ s.world.db.sessions.rows, SignedFor cfg s.world x p ∧
      (x.previousSessionId = none ∧ OpenedBy s.world i x ∧
          SignedInAs cfg s.script s.world i x.userId ∨
        ∃ parent, x.previousSessionId = some parent ∧ k.Refreshes cfg parent x.userId) := by
  have h := hr.provenance
  have hf := hr.finished hk hi
  have hrow : ∀ {j r}, .wrote (.insertSession r) ∈ s.world.hist j → .committed ∈ s.world.hist j →
      ∃ x ∈ s.world.db.sessions.rows, x.id = r.id ∧ x.core = r.core := fun hw hc => by
    obtain ⟨x, hx, hcore⟩ := h.took _ _ hw hc
    exact ⟨x, Keyed.mem_of_get hx, Keyed.key_of_get hx, hcore⟩
  rcases (hr.programs (fun _ => trivial) sparing_prog hk).2 _ hi o p rfl hp with
    ⟨e, pw, d, ip, rfl⟩ | hrefresh
  · obtain ⟨h₀, hh, -, -, r', hr', hdone⟩ := hf
    obtain ⟨resp, rfl, ho⟩ := map_eq_ok hr'.symm
    subst ho
    cases hp
    obtain ⟨r, a, b, hw, hc, hprev, ha, hb, hat, hbt, hpair⟩ := hdone.issued resp rfl
    have hsub : h₀ ⊆ s.world.hist i := hh ▸ List.subset_append_left _ _
    obtain ⟨x, hx, hid, hcore⟩ := hrow (hsub hw) (hsub hc)
    refine ⟨x, hx, ⟨i, r, a, b, hsub hw, hid.symm, hsub ha, hsub hb, hat, hbt, hpair⟩,
      .inl ⟨?_, ?_, ?_⟩⟩
    · exact (SessionModel.core_previous hcore).trans hprev
    · exact ⟨r, hsub hw, hid.symm⟩
    · exact SessionModel.core_userId hcore ▸ hr.signedIn (hsub hw) hprev
  · obtain ⟨parent, u, href, rfl⟩ := hf.refreshes hrefresh hp
    obtain ⟨j, r, a, b, hrot, ha, hb, hat, hbt, hpair⟩ := h.pair_origin hf href
    obtain ⟨x, hx, hid, hcore⟩ := hrow hrot.1 hrot.2.1
    have hprev : x.previousSessionId = some parent :=
      (SessionModel.core_previous hcore).trans hrot.2.2
    obtain ⟨z, hz, -, hu, -⟩ := h.parent hx hprev
    refine ⟨x, hx, ⟨j, r, a, b, hrot.1, hid.symm, ha, hb, hat, hbt, hpair⟩,
      .inr ⟨parent, hprev, ?_⟩⟩
    rw [hu, h.refreshed_owner hk href hz]
    exact href

theorem Reachable.let_in (hr : Reachable cfg C s) {i : Nat} {token : Token} {z : User}
    (hk : s.script i = some (.getCurrentUser token)) (hi : s.answer i = some (.ok (.user z))) :
    ∃ c x, cfg.jose.verify token = some c ∧ x ∈ s.world.db.sessions.rows ∧ c.sid = some x.id ∧
      x.userId = z.id := by
  have h := hr.provenance
  obtain ⟨h₀, hh, -, -, r', hr', hd⟩ := hr.finished hk hi
  obtain ⟨x, rfl, hx⟩ := map_eq_ok hr'.symm
  cases hx
  cases hd with
  | ran c sid r l hv hty hsid _ _ hrun =>
    have huser := hrun.user.1
    have hsub : h₀ ⊆ s.world.hist i := hh ▸ List.subset_append_left _ _
    obtain ⟨x, hx⟩ : ∃ x, s.world.db.sessions.get sid = some x := by
      cases hrun with
      | passed t t' l₁ l₂ v y _ hl _ _ _ _ _ =>
        cases hl with
        | hit v hid =>
          obtain ⟨j, ttl, hset⟩ := h.got i (.session sid) v.toDict (hsub (by simp))
          obtain ⟨_, x, -, hx, -⟩ := h.session_origin hset
          exact ⟨x, hx⟩
        | warm row hid =>
          obtain ⟨x, hx, -⟩ := h.saw i row ⟨.byId sid, [row], hsub (by simp), by simp⟩
          exact ⟨x, hid ▸ hx⟩
    have hc : c ∈ s.world.minted := h.presented i _ c hk ⟨token, by simp [Call.tokens], hv⟩
    obtain ⟨sid', -, hn⟩ := h.names hc
    obtain rfl := hn.eq_of_sid hsid
    exact ⟨c, x, hv, Keyed.mem_of_get hx, by rw [hsid, Keyed.key_of_get hx],
      (h.token_owner hx hc hn).trans huser.symm⟩

/-- Nobody gets in without the password. In every interleaving each session goes back, through
refresh tokens that the calls which opened the sessions were given, to a login with the password
that its user had; tokens of a session are handed out only to the login that opened it, or to those
who present the refresh token of the session's predecessor; there is only one pair of them; and the
gate lets in only the user of a session that its token is for. -/
theorem no_entry_without_password (hr : Reachable cfg C s) :
    (∀ x ∈ s.world.db.sessions.rows, Earned cfg s.script s.world x) ∧
    (∀ i k o p, s.script i = some k → s.answer i = some (.ok o) → o.pair? = some p →
      ∃ x ∈ s.world.db.sessions.rows, TokensOf cfg x p ∧
        (x.previousSessionId = none ∧ OpenedBy s.world i x ∧
            SignedInAs cfg s.script s.world i x.userId ∨
          ∃ parent, x.previousSessionId = some parent ∧ k.Refreshes cfg parent x.userId)) ∧
    (∀ i i' o o' p p' x, s.answer i = some (.ok o) → s.answer i' = some (.ok o') →
      o.pair? = some p → o'.pair? = some p' → TokensOf cfg x p → TokensOf cfg x p' → p = p') ∧
    ∀ i token z, s.script i = some (.getCurrentUser token) → s.answer i = some (.ok (.user z)) →
      ∃ c x, cfg.jose.verify token = some c ∧ x ∈ s.world.db.sessions.rows ∧ c.sid = some x.id ∧
        x.userId = z.id := by
  have h := hr.provenance
  have hscript : ∀ {i r}, s.answer i = some r → ∃ k, s.script i = some k := by
    intro i r hi
    unfold Sys.answer at hi
    split at hi
    · rename_i k r' hc
      exact ⟨k, by simp [Sys.script, hc]⟩
    · cases hi
  refine ⟨fun x => hr.earned, fun i k o p hk hi hp => ?_, ?_, fun i token z => hr.let_in⟩
  · obtain ⟨x, hx, hsigned, horigin⟩ := hr.handed hk hi hp
    exact ⟨x, hx, h.signedFor_tokens hx hsigned, horigin⟩
  · intro i i' o o' p p' x hi hi' hp hp' ht ht'
    obtain ⟨k, hk⟩ := hscript hi
    obtain ⟨k', hk'⟩ := hscript hi'
    obtain ⟨y, hy, hsigned, -⟩ := hr.handed hk hi hp
    obtain ⟨y', hy', hsigned', -⟩ := hr.handed hk' hi' hp'
    have hid := ((h.signedFor_tokens hy hsigned).session ht).trans
      (ht'.session (h.signedFor_tokens hy' hsigned'))
    obtain rfl := s.world.db.sessions.eq_of_key hy hy' hid
    exact h.signedFor_unique hsigned hsigned'

end Runs

/-- Alice's session `s2` goes back to her password. Her login got the tokens of `s1`, and who
presented them those of `s2`. -/
theorem no_entry_without_password_alice : ∃ s : State (TimedStore Key Json),
    sampleApp.execs refreshOnce signedIn = some s ∧
    Earned sampleConfig s.script s.world (aliceSuccessor 3) ∧
    (∃ o p, s.answer 0 = some (.ok o) ∧ o.pair? = some p ∧ ∃ x ∈ s.world.db.sessions.rows,
      TokensOf sampleConfig x p ∧ x.previousSessionId = none ∧ OpenedBy s.world 0 x) ∧
    ∃ o p, s.answer 1 = some (.ok o) ∧ o.pair? = some p ∧
      ∃ x ∈ s.world.db.sessions.rows, TokensOf sampleConfig x p := by
  have hs : sampleApp.execs refreshOnce signedIn =
      some (sampleApp.afterwards refreshOnce signedIn) :=
    sampleApp.execs_afterwards (by decide +kernel)
  obtain ⟨hearned, hhanded, -⟩ := no_entry_without_password (signedIn_reachable.execs hs)
  have h₀ : (sampleApp.afterwards refreshOnce signedIn).answer 0 = some (.ok (.login
      { userInfo := ⟨"alice", "alice@example.org", "Alice", "alice", "user"⟩
        tokenPair := { accessToken := accessToken "s1" 901, refreshToken := refreshTokenOf "s1" }
        })) := by
    decide +kernel
  have h₁ : (sampleApp.afterwards refreshOnce signedIn).answer 1 = some (.ok (.pair
      { accessToken := accessToken "s2" 903, refreshToken := refreshTokenOf "s2" })) := by
    decide +kernel
  obtain ⟨x, hx, ht, -⟩ := hhanded 1 (.refreshToken (refreshTokenOf "s1") none) _ _
    (by decide +kernel) h₁ rfl
  obtain ⟨y, hy, hty, ⟨hroot, hopened, -⟩ | ⟨_, -, href⟩⟩ := hhanded 0
    (.authenticate "alice@example.org" "secret" none none) _ _ (by decide +kernel) h₀ rfl
  · exact ⟨_, hs, hearned _ (by decide +kernel), ⟨_, _, h₀, rfl, y, hy, hty, hroot, hopened⟩,
      _, _, h₁, rfl, x, hx, ht⟩
  · cases href.1

end AsyncPulse
