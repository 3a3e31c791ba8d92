import AsyncPulse.Administration
import AsyncPulse.Continuity
set_option autoImplicit false

namespace AsyncPulse
open Effect Registry

inductive LogsIn (cfg : Config) (e pw : String) : Except Exc LoginResponse → BookEvent → Prop where
  | failed (y : Exc) : LogsIn cfg e pw (.error y) .idle
  | nameless (x : UserModel) (s : String) : x.email = e →
      cfg.checkpw pw x.hashedPassword = .ok true → x.name = none →
      LogsIn cfg e pw (.error .validationError) (.signIn x.id x s)
  | opened (x : UserModel) (s : String) (resp : LoginResponse) (lifetime t t' : Time)
      (a b : Claims) : x.email = e → cfg.checkpw pw x.hashedPassword = .ok true →
      resp.userInfo.userId = x.id → resp.tokenPair =
        { accessToken := cfg.jose.encode a, refreshToken := cfg.jose.encode b } →
      Minted cfg x.id s lifetime t t' a b → LogsIn cfg e pw (.ok resp) (.signIn x.id x s)

inductive TradesIn (cfg : Config) (token : Token) : Except Exc TokenPair → BookEvent → Prop where
  | failed (y : Exc) : y ≠ tokenReuse → TradesIn cfg token (.error y) .idle
  | replayed (c : Claims) (s : String) (p : TokenPair) : cfg.jose.verify token = some c →
      c.jti = some s → TradesIn cfg token (.ok p) (.gone s)
  | reused (c : Claims) (t : Time) : cfg.jose.verify token = some c →
      TradesIn cfg token (.error tokenReuse) (.signOutAll c.sub t)
  | renewed (c : Claims) (s s' : String) (lifetime t t' : Time) (a b : Claims) :
      cfg.jose.verify token = some c → c.type = .refresh → c.jti = some s →
      Minted cfg c.sub s' lifetime t t' a b →
      TradesIn cfg token
        (.ok { accessToken := cfg.jose.encode a, refreshToken := cfg.jose.encode b }) (.renew s s')

inductive LogsOut (s : String) : Except Exc Unit → BookEvent → Prop where
  | gone : LogsOut s (.ok ()) (.gone s)
  | ended (t : Time) : LogsOut s (.ok ()) (.signOut s t)

/-- The answer is `f` of one that tells of the event. -/
def Through {α : Type} (f : α → Out) (tells : Except Exc α → BookEvent → Prop)
    (r : Except Exc Out) (e : BookEvent) : Prop :=
  ∃ r', r = r'.map f ∧ tells r' e

/-- What the answer to a call tells of the accounts and sessions. -/
def Call.Tells (cfg : Config) : Call → Except Exc Out → BookEvent → Prop
  | .createUser p, r, e => Through .user (Enrols cfg p) r e
  | .getUser _, _, e | .listUsers _ _, _, e | .getCurrentUser _, _, e => e = .idle
  | .updateUser u p, r, e | .updateUserRoute _ u p, r, e => Through .user (Updates u p) r e
  | .setPassword u pw, r, e => Through .user (SetsPassword cfg u pw) r e
  | .changeStatus u st, r, e => Through .user (SetsStatus u st) r e
  | .deleteUser u, r, e | .deleteUserRoute _ u, r, e => Through (fun _ => .done) (Deletes u) r e
  | .authenticate m pw _ _, r, e => Through .login (LogsIn cfg m pw) r e
  | .refreshToken token _, r, e => Through .pair (TradesIn cfg token) r e
  | .refreshRoute body cookie _, r, e =>
    match chosenToken body cookie with
    | none => (∃ y, r = .error y) ∧ e = .idle
    | some token => Through .pair (TradesIn cfg token) r e
  | .logout s, r, e => Through (fun _ => .done) (LogsOut s) r e
  | .logoutRoute token, r, e => r = .ok .done ∧ (e = .idle ∨ ∃ c s,
      cfg.jose.verify token = some c ∧ c.sid = some s ∧ LogsOut s (.ok ()) e)
  | .logoutAll u, r, e => r = .ok .done ∧ ∃ t, e = .signOutAll u t
  | .logoutAllRoute token, r, e => (∃ y, r = .error y) ∧ e = .idle ∨ r = .ok .done ∧
      ∃ c t, cfg.jose.verify token = some c ∧ e = .signOutAll c.sub t

variable {cfg : Config} {d : Database} {t₀ : Time} {h : List Act} {α β : Type}

theorem comes_authenticate {e pw : String} {dev ip : Option String} :
    Alone cfg d t₀ (authenticate cfg e pw dev ip) (Comes cfg d (LogsIn cfg e pw)) [] := by
  refine Trace.wp_mono _ (Trace.wp_and _ alone_authenticate alone_signsIn) fun r l hr => ?_
  obtain ⟨hrun, hsigns⟩ := hr
  cases hrun with
  | denied => exact ⟨.idle, .failed _, did_idle rfl⟩
  | @refused y x now t t₁ t₂ t₃ rank evs u a b =>
    refine ⟨.idle, .failed _, did_idle (ledger_uncommitted ?_)⟩
    simp [loginTrail, evictionTrail, openingTrail]
  | @opened r x now t t₁ t₂ t₃ rank evs u a b hx hans hevs hle hfit =>
    have hu : d.sessions.get u = none := by
      by_contra hu
      exact hfit (.inr (.inr hu))
    generalize hl : loginTrail d e x rank evs u now t t₁ t₂ t₃ a b ++
      committedTrail cfg (loginRow cfg x dev ip u t t₃) = l at hsigns
    have hledger : (ledger l).1 =
        evs.map eviction ++ [.insertSession (loginRow cfg x dev ip u t t₃)] := by
      have hclosed : (ledger (l ++ [Act.closed])).1 =
          evs.map eviction ++ [.insertSession (loginRow cfg x dev ip u t t₃)] := by
        rw [← hl, loginTrail]
        exact ledger_login (by simp [Act.still]) evs u t t₁ t₂ t₃ a b _
      rwa [ledger_closed] at hclosed
    have hclock : ∀ τ ∈ [now, t, t₃], .clock τ ∈ l := by
      simp [← hl, loginTrail, openingTrail]
    have hended : ∀ y ∈ evs, .clock y.2 ∈ l := by
      intro y hy
      rw [← hl, loginTrail]
      simp only [List.mem_append, List.mem_flatMap]
      exact .inl (.inl (.inr ⟨y, hy, by simp [evictionTrail]⟩))
    have hdid : Did cfg d l (.signIn x.id x u) :=
      did_signIn hledger (hclock now (by simp)) (hclock t (by simp)) (hclock t₃ (by simp)) hended
        hle hevs hx hu
    obtain ⟨-, resp, rfl⟩ | ⟨hname, rfl⟩ := hans
    · obtain ⟨y, a', b', hs⟩ := hsigns resp rfl
      obtain ⟨τ, τ₁, τ₂, -, -, -, hminted⟩ := hs.tokens
      have hy : y = loginRow cfg x dev ip u t t₃ := by
        have hwrote := hs.inserted
        rw [← hl] at hwrote
        simpa [loginTrail, evictionTrail, openingTrail, committedTrail, eviction] using hwrote
      have hid : y.id = u := by rw [hy, loginRow]
      have huser : y.userId = x.id := by rw [hy, loginRow]
      rw [hid, huser] at hminted
      exact ⟨_, .opened x u resp _ _ _ a' b' hx.email hx.password (hs.user.trans huser) hs.pair
        hminted, hdid⟩
    · exact ⟨_, .nameless x u hx.email hx.password hname, hdid⟩

theorem Write.Refusal.ne_tokenReuse {v : Write} {y : Exc} (hr : v.Refusal d y) :
    y ≠ tokenReuse := by
  obtain ⟨rfl, -⟩ | ⟨rfl, -⟩ := hr <;> simp [tokenReuse, Exc.invalidToken]

theorem comes_refreshToken {token : Token} {ip : Option String}
    (hown : ∀ c row, cfg.jose.verify token = some c → c.type = .refresh → c.jti = some row.id →
      d.sessions.get row.id = some row → row.userId = c.sub) :
    Alone cfg d t₀ (refreshToken cfg token ip) (Comes cfg d (TradesIn cfg token)) [] := by
  refine Trace.wp_mono _ alone_refreshToken fun r l hrun => ?_
  cases hrun with
  | declined hd =>
    exact ⟨.idle, .failed _ hd.ne_tokenReuse, did_idle (by rw [ledger_of_still hd.still])⟩
  | @replayed c row t t' t₁ v hn hrev _ =>
    have hgone : Did cfg d [.clock t, .readSessions (.byId row.id) [row], .clock t',
        .cacheGot (.grace row.id) v] (.gone row.id) := by
      refine did_gone rfl fun x hx => ?_
      obtain rfl := Option.some.inj (hx.symm.trans hn.found)
      rw [hrev]
      exact Option.some_ne_none t₁
    cases hv : replay v with
    | error y => exact ⟨.idle, .failed y fun he => replay_ne v (he ▸ hv), did_idle rfl⟩
    | ok p => exact ⟨_, .replayed c row.id p hn.verified hn.jti, hgone⟩
  | @reused c row t t' t₁ t₂ t₃ rank rank' hn _ _ =>
    have hledger : (ledger ([.clock t, .readSessions (.byId row.id) [row], .clock t'] ++
        logoutAllTrail c.sub t₂ ((SessionQuery.activeOf c.sub t₂).eval rank d.sessions)
          ((SessionQuery.unrevokedOf c.sub).eval rank' d.sessions) t₃)).1 =
        shutdown ((SessionQuery.unrevokedOf c.sub).eval rank' d.sessions) t₃ := by
      rw [ledger_logoutAllTrail, ledger_of_still (by simp [Act.still]), List.nil_append,
        List.nil_append]
    exact ⟨_, .reused c t₃ hn.verified,
      did_signOutAll hledger (by simp [logoutAllTrail, massTrail])⟩
  | @refused c row x t t' t₁ t₂ t₃ t₄ t₅ s a b y hx hy =>
    refine ⟨.idle, .failed y hy.ne_tokenReuse, did_idle (ledger_uncommitted ?_)⟩
    simp [renewing, evictionTrail]
  | @renewed c row x t t' t₁ t₂ t₃ t₄ t₅ s a b hx hfit hm _ =>
    have hs : d.sessions.get s = none := by
      by_contra hs
      exact hfit (.inr (.inr hs))
    refine ⟨_, .renewed c row.id s _ _ _ a b hx.verified hx.type hx.jti hm, ?_⟩
    refine did_renew (ledger_renewed c row x t t' t₁ t₂ t₃ t₄ t₅ row.id _ a b _) ?_ ?_ ?_ hx
      (hown c row hx.verified hx.type hx.jti hx.found) hs
    · simp [renewing, evictionTrail]
    · simp [renewing, evictionTrail]
    · simp [rotationTrail]

theorem comes_logout {s : String} :
    Alone cfg d t₀ (logout s) (Comes cfg d (LogsOut s)) [] := by
  unfold logout
  apply alone_getSessionById
  · intro hnone
    have hx : d.sessions.get s = none := hnone
    refine ⟨_, .gone, did_gone rfl fun r hr => ?_⟩
    rw [hx] at hr
    cases hr
  intro x hx
  have hx' : d.sessions.get s = some x := hx
  obtain rfl : x.id = s := Keyed.key_of_get hx'
  unfold UserSession.revoke
  cases hrev : x.revokedAt with
  | some t₁ =>
    simp only [show x.toEntity.revokedAt = some t₁ from hrev, pure_bind]
    apply alone_updateSession_same
    · rw [seen_still (by simp [Act.still])]
      exact hx
    apply alone_commit
    apply alone_suppressDelete
    rw [← bind_pure (Prog.suppress _)]
    apply alone_suppressDelete
    refine ⟨_, .gone, did_gone rfl fun r hr => ?_⟩
    obtain rfl := Option.some.inj (hr.symm.trans hx')
    rw [hrev]
    exact Option.some_ne_none t₁
  | none =>
    simp only [show x.toEntity.revokedAt = none from hrev]
    rw [bind_assoc]
    apply alone_now
    intro t' _
    rw [pure_bind]
    apply alone_updateSession (a := x) rfl
    · rw [seen_still (by simp [Act.still])]
      exact hx
    · intro he
      have hrevoked := congrArg SessionModel.revokedAt he
      rw [hrev] at hrevoked
      cases hrevoked
    apply alone_commit
    apply alone_suppressDelete
    rw [← bind_pure (Prog.suppress _)]
    apply alone_suppressDelete
    exact ⟨_, .ended t', did_signOut rfl (by simp) hx' hrev⟩

theorem comes_logoutAll {u : String} :
    Alone cfg d t₀ (logoutAll u) (fun r l => r = .ok () ∧
      ∃ t rows, .readSessions (.unrevokedOf u) rows ∈ l ∧ Did cfg d l (.signOutAll u t)) [] := by
  rw [← bind_pure (logoutAll u)]
  apply alone_logoutAll
  intro t rank rank' t'
  have hledger : (ledger ([] ++ logoutAllTrail u t
      ((SessionQuery.activeOf u t).eval rank (seen d []).sessions)
      ((SessionQuery.unrevokedOf u).eval rank' (seen d []).sessions) t')).1 =
        shutdown ((SessionQuery.unrevokedOf u).eval rank' d.sessions) t' := by
    rw [ledger_logoutAllTrail]
    rfl
  exact ⟨rfl, t', (SessionQuery.unrevokedOf u).eval rank' d.sessions,
    by simp [logoutAllTrail, massTrail],
      did_signOutAll hledger (by simp [logoutAllTrail, massTrail])⟩

/-- The call comes to an event that its answer tells of. It revokes all sessions only of users
whose it may. -/
def Serves (cfg : Config) (d : Database) (k : Call) (r : Except Exc Out) (l : List Act) : Prop :=
  ∃ e, ((∀ u rows, .readSessions (.unrevokedOf u) rows ∈ l → k.RevokesAll cfg u) →
    k.Tells cfg r e) ∧ Did cfg d l e

variable {k : Call}

theorem serves_looks {p : M Out} (hp : Only Eff.Looks p) (hk : ∀ r, k.Tells cfg r .idle) :
    Alone cfg d t₀ p (Serves cfg d k) [] :=
  Trace.wp_mono _ (alone_looks hp) fun r _ hl =>
    ⟨.idle, fun _ => hk r, did_idle (by rw [ledger_of_still hl])⟩

theorem serves_through {f : α → Out} {p : M α} {tells : Except Exc α → BookEvent → Prop}
    (hp : Alone cfg d t₀ p (Comes cfg d tells) []) (hk : k.Tells cfg = Through f tells) :
    Alone cfg d t₀ (f <$> p) (Serves cfg d k) [] := by
  refine (Trace.wp_map _ _ _ _ _).mpr (Trace.wp_mono _ hp fun r l hr => ?_)
  obtain ⟨e, htells, hdid⟩ := hr
  exact ⟨e, fun _ => hk ▸ ⟨r, rfl, htells⟩, hdid⟩

theorem comes_gated {token : Token} {f : User → M α} {tells : Except Exc α → BookEvent → Prop}
    (hf : ∀ x, Alone cfg d t₀ (f x) (Comes cfg d tells) []) (herr : ∀ y, tells (.error y) .idle) :
    Alone cfg d t₀ (getCurrentUser cfg token >>= f) (Comes cfg d tells) [] := by
  apply alone_after (only_getCurrentUser token) hf
  · intro r l l' hl hr
    obtain ⟨e, htells, hdid⟩ := hr
    exact ⟨e, htells, hdid.shift hl⟩
  · intro y l hl
    exact ⟨.idle, herr y, did_idle (by rw [ledger_of_still hl])⟩

theorem serves_logoutRoute {token : Token} :
    Alone cfg d t₀ (logoutRoute cfg token)
      (fun r => Serves cfg d (.logoutRoute token) (r.map fun _ => Out.done)) [] := by
  have hidle : ∀ l, (∀ a ∈ l, a.still = true) →
      Serves cfg d (.logoutRoute token) (.ok .done) l := fun l hl =>
    ⟨.idle, fun _ => ⟨rfl, .inl rfl⟩, did_idle (by rw [ledger_of_still hl])⟩
  unfold logoutRoute
  apply (Trace.wp_suppress _ _ _ _).mpr
  cases hv : cfg.jose.verify token with
  | none =>
    unfold decodeToken
    rw [hv]
    exact hidle [] (by simp)
  | some c =>
    apply alone_decodeToken hv
    · exact fun t _ => hidle _ (by simp [Act.still])
    intro t
    have hstill : ∀ a ∈ [Act.clock t], a.still = true := by simp [Act.still]
    cases hs : c.sid.filter (· ≠ "") with
    | none => exact hidle _ hstill
    | some s =>
      refine Trace.wp_mono _ (alone_shift hstill comes_logout) fun r h' hr => ?_
      obtain ⟨l', rfl, e, htells, hdid⟩ := hr
      have hsid : c.sid = some s := (Option.filter_eq_some_iff.mp hs).1
      have hok : LogsOut s (.ok ()) e := by
        cases htells with
        | gone => exact .gone
        | ended t' => exact .ended t'
      exact ⟨e, fun _ => ⟨rfl, .inr ⟨c, s, hv, hsid, hok⟩⟩, hdid.shift hstill⟩

theorem serves_body (hi : Indexed d.users)
    (hown : ∀ s u row, k.Refreshes cfg s u → d.sessions.get s = some row → row.userId = u) :
    Alone cfg d t₀ (k.body cfg) (Serves cfg d k) [] := by
  cases k with
  | createUser p => exact serves_through comes_createUser rfl
  | getUser u => exact serves_looks (Only.map (only_getUser u)) fun _ => rfl
  | listUsers offset limit =>
    refine serves_looks (Only.bind ?_ fun _ => Only.pure) fun _ => rfl
    exact (Only.perform trivial).bind fun _ => (Only.perform trivial).bind fun _ => Only.pure
  | updateUser u p => exact serves_through (comes_updateUser hi) rfl
  | setPassword u pw => exact serves_through (comes_setPassword hi) rfl
  | changeStatus u st => exact serves_through (comes_changeStatus hi) rfl
  | deleteUser u => exact serves_through (comes_deleteUser hi) rfl
  | authenticate e pw dev ip => exact serves_through comes_authenticate rfl
  | refreshToken token ip =>
    refine serves_through (comes_refreshToken fun c row hv ht hj hrow => ?_) rfl
    exact hown row.id c.sub row ⟨rfl, c, ⟨token, by simp [Call.tokens], hv⟩, ht, hj, rfl⟩ hrow
  | logout s => exact serves_through comes_logout rfl
  | logoutAll u =>
    refine (Trace.wp_map _ _ _ _ _).mpr (Trace.wp_mono _ comes_logoutAll fun r l hr => ?_)
    obtain ⟨rfl, t, rows, -, hdid⟩ := hr
    exact ⟨_, fun _ => ⟨rfl, t, rfl⟩, hdid⟩
  | getCurrentUser token => exact serves_looks (Only.map (only_getCurrentUser token)) fun _ => rfl
  | refreshRoute body cookie ip =>
    change Alone cfg d t₀ (Out.pair <$> refreshRoute cfg body cookie ip) _ _
    unfold refreshRoute
    cases hc : chosenToken body cookie with
    | none =>
      refine ⟨.idle, fun _ => ?_, did_idle rfl⟩
      simp only [Call.Tells, hc]
      exact ⟨⟨_, rfl⟩, trivial⟩
    | some token =>
      refine serves_through (comes_refreshToken fun c row hv ht hj hrow => ?_) ?_
      · exact hown row.id c.sub row ⟨rfl, c, ⟨token, by simp [Call.tokens, hc], hv⟩, ht, hj, rfl⟩
          hrow
      · funext r e
        simp only [Call.Tells, hc]
  | logoutRoute token => exact (Trace.wp_map _ _ _ _ _).mpr serves_logoutRoute
  | logoutAllRoute token =>
    refine (Trace.wp_map _ _ _ _ _).mpr ?_
    apply alone_after (only_getCurrentUser token) (R := fun r l => r = .ok () ∧ ∃ u t rows,
      .readSessions (.unrevokedOf u) rows ∈ l ∧ Did cfg d l (.signOutAll u t))
    · exact fun x => Trace.wp_mono _ comes_logoutAll fun r l hr => ⟨hr.1, x.id, hr.2⟩
    · rintro r l l' hl ⟨rfl, u, t, rows, hrows, hdid⟩
      refine ⟨_, fun hmass => .inr ⟨rfl, ?_⟩, hdid.shift hl⟩
      obtain ⟨c, hc, rfl⟩ := hmass u rows (List.mem_append_right _ hrows)
      obtain ⟨token', htoken, hv⟩ := hc
      obtain rfl : token' = token := by simpa [Call.tokens] using htoken
      exact ⟨c, t, hv, rfl⟩
    · intro y l hl
      exact ⟨.idle, fun _ => .inl ⟨⟨y, rfl⟩, rfl⟩, did_idle (by rw [ledger_of_still hl])⟩
  | updateUserRoute token u p =>
    refine serves_through (comes_gated (fun x => ?_) fun y => .failed y) rfl
    exact alone_raiseIf (fun _ => ⟨.idle, .failed _, did_idle rfl⟩) fun _ => comes_updateUser hi
  | deleteUserRoute token u =>
    refine serves_through (comes_gated (fun x => ?_) fun y => .failed y) rfl
    exact alone_raiseIf (fun _ => ⟨.idle, .failed _, did_idle rfl⟩) fun _ => comes_deleteUser hi

theorem serves_prog (hi : Indexed d.users)
    (hown : ∀ s u row, k.Refreshes cfg s u → d.sessions.get s = some row → row.userId = u) :
    Alone cfg d t₀ (k.prog cfg) (Serves cfg d k) [] := by
  refine (Trace.wp_ensure _ _ _ _ _).mpr (Trace.wp_mono _ (serves_body hi hown) fun r l hr => ?_)
  obtain ⟨e, htells, hdid⟩ := hr
  intro x hx
  obtain rfl : x = .ok () := hx
  exact ⟨trivial, e, fun hmass => htells fun u rows hm => hmass u rows (List.mem_append_left _ hm),
    hdid.closed⟩

variable {γ χ : Type} {C : MayCache Key Json γ χ} {gap : World γ → World γ → Prop}
  {m : Nat → Option Call} {n : Nat} {r : Except Exc Out} {w w' : World γ}

theorem Between.serves (h : Between cfg C m n w) (hi : Indexed w.db.users)
    (hc : (app cfg C).Completed gap n k r w w') :
    ∃ e, k.Tells cfg r e ∧ Step (policy cfg) (w.db.book w.clock) e (w'.db.book w'.clock) := by
  have hown : ∀ s u row, k.Refreshes cfg s u → w.db.sessions.get s = some row →
      row.userId = u := by
    intro s u row hk hrow
    obtain ⟨start, -, hturn⟩ := h.completed hc
    obtain ⟨row', hrow', hcore, -⟩ := hturn.grows.sessions s row hrow
    rw [← SessionModel.core_userId hcore]
    exact hturn.after.provenance.refreshed_owner (Function.update_self ..) hk hrow'
  obtain ⟨start, -, hturn, e, htells, hdid⟩ := h.does hc fun _ => serves_prog hi hown
  refine ⟨e, htells fun u rows hm => ?_, ?_⟩
  · obtain ⟨l₁, l₂, -, -, -, -, hmass⟩ := hturn.lawful.of_mem hm
    exact (hmass u rfl).1
  · have hstep := hdid w.clock w'.clock hturn.clock_le fun τ hτ => by
      obtain ⟨h₁, h₂⟩ := hturn.alone.played.clock τ hτ
      exact ⟨Int.le_trans hturn.started h₁, h₂⟩
    have hdb : w'.db = w.db.applyAll (ledger (w'.hist n)).1 := hturn.alone.played.db
    rwa [← hdb] at hstep

theorem Init.sound (hw : Init C w) (hi : Indexed w.db.users) :
    Sound (policy cfg) (w.db.book w.clock) := by
  have hnone : ∀ s, (w.db.book w.clock).session s = none := by
    intro s
    refine book_session_none.mpr (Keyed.get_eq_none.mpr fun r hr => ?_)
    rw [hw.noSession] at hr
    cases hr
  have hno : ∀ {s e}, (w.db.book w.clock).session s = some e → False := by
    intro s e he
    rw [hnone s] at he
    cases he
  refine ⟨fun s e he => (hno he).elim, fun s e p he => (hno he).elim, fun u t _ => ?_,
    fun s e r he => (hno he).elim, fun s s' e e' r he => (hno he).elim, fun u u' x x' hx hx' hc => ?_⟩
  · have hempty : {s | (w.db.book w.clock).Active u t s} = ∅ := by
      ext s
      exact ⟨fun ⟨e, he, _⟩ => hno he, fun hs => hs.elim⟩
    rw [hempty, Set.encard_empty]
    exact zero_le
  · have hsame : x = x' := by
      cases hc with
      | inl he => exact hi.email _ (Keyed.mem_of_get hx) _ (Keyed.mem_of_get hx') he
      | inr he => exact hi.username _ (Keyed.mem_of_get hx) _ (Keyed.mem_of_get hx') he
    rw [← Keyed.key_of_get hx, ← Keyed.key_of_get hx', hsame]

/-- Every run of calls one after another is a run of the book, whose events the answers tell. -/
theorem service_refines_registry {w₀ : World γ} (hw₀ : Init C w₀) (hi : Indexed w₀.db.users)
    {log : List (Call × Except Exc Out)} (hs : (app cfg C).Seq gap 0 w₀ log n w) :
    ∃ es, Run (policy cfg) (w₀.db.book w₀.clock) es (w.db.book w.clock) ∧
      List.Forall₂ (fun call e => Call.Tells cfg call.1 call.2 e) log es ∧
      Sound (policy cfg) (w.db.book w.clock) := by
  have hrun : ∃ es, Run (policy cfg) (w₀.db.book w₀.clock) es (w.db.book w.clock) ∧
      List.Forall₂ (fun call e => Call.Tells cfg call.1 call.2 e) log es := by
    induction hs with
    | nil => exact ⟨[], .nil, .nil⟩
    | snoc hs hc ih =>
      obtain ⟨es, hes, htell⟩ := ih hw₀ hi
      obtain ⟨⟨m, hbetween⟩, hi₁⟩ := hi.seq hw₀ hs
      obtain ⟨e, he, hstep⟩ := hbetween.serves hi₁ hc
      exact ⟨es ++ [e], hes.snoc hstep, List.rel_append htell (.cons he .nil)⟩
  obtain ⟨es, hes, htell⟩ := hrun
  exact ⟨es, hes, htell, hes.sound (policy_clash_symm cfg) (hw₀.sound hi)⟩

def aliceOut : List (Choice Unit × Call × List (Choice Unit)) :=
  aliceSignsIn ++ [request 2 "s2" (.refreshToken (refreshTokenOf "s1") none),
    request 3 "" (.changeStatus "alice" .suspended)]

theorem service_refines_registry_alice : ∃ log w es, rehearsal aliceOut = some (log, w) ∧
    (∀ call ∈ log, call.2.isOk = true) ∧
    Run (policy sampleConfig) (sampleWorld.db.book sampleWorld.clock) es (w.db.book w.clock) ∧
    List.Forall₂ (fun call e => Call.Tells sampleConfig call.1 call.2 e) log es ∧
    Sound (policy sampleConfig) (w.db.book w.clock) := by
  have hcheck : (rehearsal aliceOut).any (fun y => y.1.all fun call => call.2.isOk) = true := by
    decide +kernel
  obtain ⟨⟨log, w⟩, h, hok⟩ := (Option.any_eq_true _ _).mp hcheck
  obtain ⟨es, hes, htell, hsound⟩ :=
    service_refines_registry sampleWorld_init sampleWorld_indexed (Service.replay_seq h)
  exact ⟨log, w, es, h, List.all_eq_true.mp hok, hes, htell, hsound⟩

end AsyncPulse
