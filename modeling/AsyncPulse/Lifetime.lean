import AsyncPulse.EffectRaising
import AsyncPulse.Deadlock
import AsyncPulse.Lineage
import AsyncPulse.WriteOrder
set_option autoImplicit false

namespace AsyncPulse
open Effect

variable {γ χ : Type} {cfg : Config} {C : MayCache Key Json γ χ}

def Eff.Unopening : {β : Type} → Eff β → Prop
  | _, .write (.insertSession _) => False
  | _, _ => True

def Unopened (h : List Act) : Prop := ∀ r, .wrote (.insertSession r) ∉ h

def FoundAlive (cfg : Config) (k : Call) (s : String) (t : Time) (h : List Act) : Prop :=
  ∃ c row t₀ l, k.Presents cfg c ∧ c.jti = some s ∧ row.id = s ∧
    h = .clock t₀ :: .readSessions (.byId s) [row] :: .clock t :: l ∧ t ≤ row.expiresAt

def Timely (cfg : Config) (k : Call) (h : List Act) : Prop :=
  k.isRefresh = true → Unopened h ∨ ∃ s t, FoundAlive cfg k s t h

section

variable {α β : Type} {k : Call} {h : List Act} {Q : Except Exc α → List Act → Prop}

theorem Unopened.timely (hh : Unopened h) : Timely cfg k h := fun _ => .inl hh

theorem FoundAlive.append {s : String} {t : Time} (hf : FoundAlive cfg k s t h)
    (l : List Act) : FoundAlive cfg k s t (h ++ l) := by
  obtain ⟨c, row, t₀, rest, hc, hj, hid, rfl, hle⟩ := hf
  exact ⟨c, row, t₀, rest ++ l, hc, hj, hid, rfl, hle⟩

theorem unopened_snoc {e : Eff β} (he : e.Unopening) (hh : Unopened h) (r : Except Exc β) :
    Unopened (h ++ [e.act r]) := by
  intro x hx
  rcases List.mem_append.mp hx with hx | hx
  · exact hh x hx
  · cases e with
    | write v => cases v <;> cases r <;> simp [Eff.act] at hx; exact he
    | _ => cases r <;> simp [Eff.act] at hx

theorem only_any (p : M α) : Only (fun _ => True) p := by
  induction p with
  | ret r => exact Only.ret
  | op e k ih => exact ⟨trivial, fun r _ => ih r⟩

abbrev Timed (cfg : Config) (k : Call) (p : M α) (Q : Except Exc α → List Act → Prop)
    (h : List Act) : Prop :=
  (records cfg).wp (Timely cfg k) p Q h

theorem timely_found {s : String} {t : Time} (p : M α) (hf : FoundAlive cfg k s t h) :
    Timed cfg k p (fun _ => Timely cfg k) h :=
  Trace.wp_mono _ ((only_any p).wp (I := FoundAlive cfg k s t)
    (fun _ hi _ => .inr ⟨s, t, hi⟩) (fun _ _ _ _ hi => hi.append _) hf)
    fun _ _ hi _ => .inr ⟨s, t, hi⟩

theorem timely_unopening {p : M α} (hp : Only Eff.Unopening p) (hh : Unopened h) :
    Timed cfg k p (fun _ => Timely cfg k) h :=
  Trace.wp_mono _ (hp.wp (I := Unopened) (fun _ => Unopened.timely)
    (fun _ _ r he hi => unopened_snoc he hi r) hh) fun _ _ => Unopened.timely

theorem unopening_logoutAll (u : String) : Only Eff.Unopening (logoutAll u) := by
  have hactive : Only Eff.Unopening (getActiveSessionsForUser u) :=
    (Only.perform trivial).bind fun _ => (Only.perform trivial).bind fun _ => Only.pure
  have hrevoke : Only Eff.Unopening (revokeAllSessions u) :=
    (Only.perform trivial).bind fun _ => (Only.perform trivial).bind fun _ =>
      Only.forM fun _ => Only.perform trivial
  refine hactive.bind fun _ => hrevoke.bind fun _ => (Only.perform trivial).bind fun _ => ?_
  exact Only.forM fun s => (Only.suppress (Only.perform trivial)).bind fun _ =>
    Only.suppress (Only.perform trivial)

theorem unopening_replayOrBreach (s u : String) (t : Time) :
    Only Eff.Unopening (replayOrBreach s u t) := by
  refine (Only.perform trivial).bind fun now => ?_
  split
  · refine Only.bind ((Only.perform trivial).tryCatch fun _ => Only.pure) fun cached => ?_
    split
    · exact Only.ret
    · exact Only.throw
  · exact (unopening_logoutAll u).bind fun _ => Only.throw

theorem timely_raiseIf {c : Prop} [Decidable c] {e : Exc} {f : Unit → M α}
    (hbad : c → Q (.error e) h) (hok : ¬ c → Timed cfg k (f ()) Q h) :
    Timed cfg k (Prog.raiseIf c e >>= f) Q h :=
  (Trace.wp_bind _ _ _ _ _).mpr ((Trace.wp_raiseIf _ _ _ _ _).mpr ⟨hbad, hok⟩)

theorem timely_decodeToken {token : Token} {Q : Except Exc Claims → List Act → Prop}
    (hbad : ∀ e h, Unopened h → Q (.error e) h)
    (hok : ∀ c t, cfg.jose.verify token = some c → Q (.ok c) [.clock t]) :
    Timed cfg k (decodeToken cfg token) Q [] := by
  unfold decodeToken
  cases hv : cfg.jose.verify token with
  | none =>
    have hnil : Unopened [] := by simp [Unopened]
    exact hbad _ _ hnil
  | some c =>
    rintro r ⟨t, rfl, -⟩
    have hclock : Unopened [.clock t] := by simp [Unopened]
    exact ⟨hclock.timely, timely_raiseIf (fun _ => hbad _ _ hclock) fun _ => hok c t hv⟩

theorem timely_getSessionById {s : String} (hh : Unopened h) {f : Option UserSession → M α}
    (hnone : ∀ h', Unopened h' → Timed cfg k (f none) (fun _ => Timely cfg k) h')
    (hsome : ∀ row : SessionModel, row.id = s → Timed cfg k (f (some row.toEntity))
      (fun _ => Timely cfg k) (h ++ [.readSessions (.byId s) [row]])) :
    Timed cfg k (getSessionById s >>= f) (fun _ => Timely cfg k) h := by
  rintro r ⟨rows, rfl, hrows⟩
  have hread : Unopened (h ++ [.readSessions (.byId s) rows]) := by simpa [Unopened] using hh
  refine ⟨hread.timely, ?_⟩
  rcases rows with _ | ⟨row, _ | ⟨row', rest⟩⟩
  · exact hnone _ hread
  · exact hsome row (by simpa [SessionQuery.selects] using hrows.selects row (by simp))
  · exact hread.timely

theorem timely_refreshToken {request : Token} {ip : Option String} (hreq : request ∈ k.tokens) :
    Timed cfg k (refreshToken cfg request ip) (fun _ => Timely cfg k) [] := by
  refine (Trace.wp_bind _ _ _ _ _).mpr ((Trace.wp_tryCatch _ _ _ _ _).mpr ?_)
  refine timely_decodeToken (fun _ _ hh => hh.timely) fun c t₀ hv => ?_
  have h₀ : Unopened [.clock t₀] := by simp [Unopened]
  refine timely_raiseIf (fun _ => h₀.timely) fun _ => ?_
  refine timely_raiseIf (fun _ => h₀.timely) fun hj => ?_
  obtain ⟨s, hs⟩ : ∃ s, c.jti = some s := by
    cases hc : c.jti with
    | none => simp [hc] at hj
    | some s => exact ⟨s, rfl⟩
  simp only [hs, Option.getD_some]
  refine timely_getSessionById h₀ (fun _ hh => hh.timely) fun row hid => ?_
  have h₁ : Unopened ([.clock t₀] ++ [.readSessions (.byId s) [row]]) := by simp [Unopened]
  dsimp only
  split
  · exact timely_unopening (unopening_replayOrBreach s c.sub _) h₁
  · -- The rotation reads the clock before anything else.
    rintro r ⟨t, rfl, -⟩
    have h₂ : Unopened ([.clock t₀] ++ [.readSessions (.byId s) [row]] ++ [.clock t]) := by
      simp [Unopened]
    refine ⟨h₂.timely, timely_raiseIf (fun _ => h₂.timely) fun halive => ?_⟩
    refine timely_found _ ⟨c, row, t₀, [], ⟨request, hreq, hv⟩, hs, hid, rfl, ?_⟩
    simpa [SessionModel.toEntity] using halive

theorem timely_refreshRoute {b co : Option Token} {ip : Option String}
    (hreq : (chosenToken b co).toList ⊆ k.tokens) :
    Timed cfg k (refreshRoute cfg b co ip) (fun _ => Timely cfg k) [] := by
  unfold refreshRoute
  cases hc : chosenToken b co with
  | none =>
    have hnil : Unopened [] := by simp [Unopened]
    exact hnil.timely
  | some token => exact timely_refreshToken (hreq (by simp [hc]))

theorem timely_closing {p : M α} {f : α → Out} (hp : Timed cfg k p (fun _ => Timely cfg k) []) :
    Timed cfg k ((f <$> p).ensure .close) (fun _ _ => True) [] := by
  refine (Trace.wp_ensure _ _ _ _ _).mpr ((Trace.wp_map _ _ _ _ _).mpr (Trace.wp_mono _ hp ?_))
  rintro - h hh r rfl
  have hclose : Timely cfg k (h ++ [Eff.close.act (.ok ())]) := fun hk => by
    rcases hh hk with hu | ⟨s, t, hf⟩
    · exact .inl (unopened_snoc (e := .close) trivial hu _)
    · exact .inr ⟨s, t, hf.append _⟩
  exact ⟨hclose, trivial⟩

theorem timely_prog (k : Call) : Timed cfg k (k.prog cfg) (fun _ _ => True) [] := by
  cases k
  case refreshToken t ip =>
    have hreq : t ∈ (Call.refreshToken t ip).tokens := by simp [Call.tokens]
    exact timely_closing (timely_refreshToken hreq)
  case refreshRoute b co ip =>
    have hreq : (chosenToken b co).toList ⊆ (Call.refreshRoute b co ip).tokens := by
      simp [Call.tokens]
    exact timely_closing (timely_refreshRoute hreq)
  all_goals exact Trace.wp_of_forall _ (fun _ hk => by cases hk) (fun _ _ => trivial) _ _

end

theorem Reachable.timely {s : State γ} (hr : Reachable cfg C s) {i : Nat} {k : Call}
    (hk : s.script i = some k) (hrefresh : k.isRefresh = true) {r : SessionModel}
    (hw : .wrote (.insertSession r) ∈ s.world.hist i) :
    ∃ s' t, FoundAlive cfg k s' t (s.world.hist i) := by
  have hkeeps : Timely cfg k (s.world.hist i) :=
    (hr.programs (fun _ _ => .inl (by simp [Unopened])) timely_prog hk).1
  exact (hkeeps hrefresh).resolve_left fun hu => hu r hw

inductive LookedUp (s : String) : List Act → Prop where
  | row (x : SessionModel) : LookedUp s [.readSessions (.byId s) [x]]
  | projection (v : SessionValidation) (l : List Act) : SessionLookup s (some v) l → LookedUp s l

/-- By the reading `t` of the clock the call judges whether session `s`, which it has just
looked up, has come to its end. -/
def JudgesAt (s : String) (t : Time) (h : List Act) : Prop :=
  ∃ t₀ l l', LookedUp s l ∧ h = .clock t₀ :: l ++ .clock t :: l'

/-- However often it is rotated, a login keeps its user, its device and its end. A call that
passes the gate with it, or rotates it, has judged it by a reading of the clock that is no later
than that end; it has not started after it. -/
theorem login_lifetime {s₀ s : State γ} {ls : List (Label Call (Choice χ))} {y x : SessionModel}
    (hr : Reachable cfg C s₀) (hs : (app cfg C).execs ls s₀ = some s)
    (hlogin : y.previousSessionId = none) (hx : Descends s.world.db y x) :
    (x.userId = y.userId ∧ x.deviceInfo = y.deviceInfo ∧ x.expiresAt = y.expiresAt) ∧
    (∃ i r t, .wrote (.insertSession r) ∈ s.world.hist i ∧ r.id = y.id ∧
      .clock t ∈ s.world.hist i ∧ y.expiresAt = t + days cfg.refreshTokenExpireDays) ∧
    (∀ p, x.previousSessionId = some p →
      ∃ z, s.world.db.sessions.get p = some z ∧ z.revokedAt ≠ none) ∧
    (∀ i token c o, s.script i = some (.getCurrentUser token) →
      cfg.jose.verify token = some c → c.sid = some x.id → s.answer i = some (.ok o) →
        ∃ t, JudgesAt x.id t (s.world.hist i) ∧ t ≤ y.expiresAt ∧
          (s₀.script i = none → s₀.world.clock ≤ t)) ∧
    ∀ i r, .wrote (.insertSession r) ∈ s.world.hist i → r.previousSessionId = some x.id →
      ∃ t, JudgesAt x.id t (s.world.hist i) ∧ t ≤ y.expiresAt ∧
        (s₀.script i = none → s₀.world.clock ≤ t) := by
  have hr' := hr.execs hs
  have h := hr'.provenance
  have hd := h.descendant hx
  have hget := Keyed.get_of_mem hx.mem
  refine ⟨hd, ?_, fun p hp => ?_, fun i token c o hk hv hsid hans => ?_, fun i r hw hp => ?_⟩
  · obtain ⟨i, k, r, h₁, hw, -, hcore, -, hsub, hop⟩ := h.inserted hx.root
    cases hop.origin with
    | login _ _ _ _ t _ _ _ _ ht hexp _ _ =>
      exact ⟨i, r, t, hw, (SessionModel.core_id hcore).symm, hsub ht,
        (SessionModel.core_expiresAt hcore).trans hexp⟩
    | rotation row _ _ hprev _ _ _ _ _ _ _ _ _ =>
      rw [← SessionModel.core_previous hcore, hlogin] at hprev
      cases hprev
  · obtain ⟨z, hz, hzr, -⟩ := h.parent hx.mem hp
    exact ⟨z, hz, hzr⟩
  · obtain ⟨h₀, he, -, -, r', hr₀, hdone⟩ := hr'.finished hk hans
    obtain ⟨u, rfl, -⟩ := map_eq_ok hr₀.symm
    cases hdone with
    | ran c' sid' _ l hv' _ hs' _ _ hrun =>
      rw [hv] at hv'
      cases hv'
      rw [hsid] at hs'
      cases hs'
      cases hrun with
      | passed t t' l l' v u _ hlook hexp _ _ _ _ =>
        have hsub : ∀ a ∈ .clock t :: l ++ .clock t' :: l', a ∈ s.world.hist i := fun a ha =>
          he ▸ List.mem_append_left _ ha
        rw [h.lookup_expiresAt hlook (fun a ha => hsub a (by simp [ha])) hget, hd.2.2] at hexp
        exact ⟨t', ⟨t, l, l' ++ [.closed], .projection v l hlook, by simp [he]⟩, hexp,
          fun hi => hr.later hs hi (hsub _ (by simp))⟩
  · obtain ⟨k, h₁, h₂, hk, -, -, -, hop⟩ := h.wrote hw
    cases hop.origin with
    | login _ _ _ _ _ _ _ _ hn _ _ _ _ =>
      rw [hn] at hp
      cases hp
    | rotation row _ _ hprev hrefresh _ _ _ _ _ _ _ _ =>
      obtain ⟨hrk, c, hc, -, hjti, -⟩ := hrefresh
      obtain ⟨sid, t, c', row', t₀, l, hc', hjti', hid, he, hle⟩ := hr'.timely hk hrk hw
      -- The one token of the call names both the judged session and the parent.
      have hsid : sid = x.id := by
        rw [Call.presents_unique hc' hc, hjti] at hjti'
        exact (Option.some.inj hjti').symm.trans (Option.some.inj (hprev.symm.trans hp))
      rw [hsid] at hid he
      have hread : .readSessions (.byId x.id) [row'] ∈ s.world.hist i := he ▸ by simp
      obtain ⟨z, hz, hzc, -⟩ := h.saw i row' ⟨_, _, hread, by simp⟩
      rw [hid, hget] at hz
      cases hz
      rw [← SessionModel.core_expiresAt hzc, hd.2.2] at hle
      exact ⟨t, ⟨t₀, _, l, .row row', he⟩, hle, fun hi => hr.later hs hi (he ▸ by simp)⟩

/-- Session `s1` is rotated shortly before its end. At the very last instant of its successor the
gate and a second refresh find that one alive, and the clock moves on. -/
def lateCalls : List (Label Call (Choice Unit)) :=
  .call 1 (.refreshToken (refreshTokenOf "s1") none) :: effects 1 20 604790 "s2" ++
    .call 2 (.getCurrentUser (accessToken "s2" 605690)) :: effects 2 5 604801 "" ++
    .call 3 (.refreshToken (refreshTokenOf "s2") none) :: effects 3 4 604801 "" ++
    effects 3 11 604803 "s3"

def lateSuccessor : SessionModel :=
  { aliceSession with id := "s3", createdAt := seconds 604803, previousSessionId := some "s2" }

theorem login_lifetime_refreshed : ∃ s,
    sampleApp.execs (lateCalls ++ effects 2 4 604803 "" ++ effects 3 5 604803 "") signedIn =
      some s ∧
    (aliceSuccessor 604790).expiresAt = aliceSession.expiresAt ∧
    (∃ t, JudgesAt "s2" t (s.world.hist 2) ∧ t ≤ aliceSession.expiresAt ∧ seconds 1 ≤ t) ∧
    ∃ t, JudgesAt "s2" t (s.world.hist 3) ∧ t ≤ aliceSession.expiresAt ∧ seconds 1 ≤ t := by
  have hs : ∃ s, sampleApp.execs
      (lateCalls ++ effects 2 4 604803 "" ++ effects 3 5 604803 "") signedIn = some s ∧
      { aliceSession with revokedAt := some (seconds 604790) } ∈ s.world.db.sessions.rows ∧
      { aliceSuccessor 604790 with revokedAt := some (seconds 604803) } ∈
        s.world.db.sessions.rows ∧
      s.script 2 = some (.getCurrentUser (accessToken "s2" 605690)) ∧
      s.answer 2 = some (.ok (.user alice.toEntity)) ∧
      .wrote (.insertSession lateSuccessor) ∈ s.world.hist 3 :=
    ⟨_, Service.execs_afterwards _ (by decide +kernel), by decide +kernel, by decide +kernel,
      by decide +kernel, by decide +kernel, by decide +kernel⟩
  obtain ⟨s, hs, hy, hx, hk, hans, hw⟩ := hs
  obtain ⟨⟨-, -, hexp⟩, -, -, hgate, hins⟩ := login_lifetime signedIn_reachable hs
    (y := { aliceSession with revokedAt := some (seconds 604790) })
    (x := { aliceSuccessor 604790 with revokedAt := some (seconds 604803) })
    rfl (.step (.refl hy) hx rfl)
  obtain ⟨t, hj, hle, hstart⟩ := hgate 2 _ _ _ hk rfl rfl hans
  obtain ⟨t', hj', hle', hstart'⟩ := hins 3 _ hw rfl
  have hclock : signedIn.world.clock = seconds 1 := by decide +kernel
  have h2 : signedIn.script 2 = none := by decide +kernel
  have h3 : signedIn.script 3 = none := by decide +kernel
  exact ⟨s, hs, hexp, ⟨t, hj, hle, hclock ▸ hstart h2⟩, t', hj', hle', hclock ▸ hstart' h3⟩

/-- After the end of `s2` the gate accepts its access token, and its successor is inserted. -/
theorem late_rotation : ∃ s₁ s₂ s₃ s₄, Reachable sampleConfig TimedStore.reliable signedIn ∧
    sampleApp.execs lateCalls signedIn = some s₁ ∧
    (s₁.world.db.sessions.get "s2" = some (aliceSuccessor 604790) ∧
      (aliceSuccessor 604790).expiresAt < s₁.world.clock) ∧
    sampleApp.execs (effects 2 4 604803 "") s₁ = some s₂ ∧
    (s₁.answer 2 = none ∧ s₂.script 2 = some (.getCurrentUser (accessToken "s2" 605690)) ∧
      s₂.answer 2 = some (.ok (.user alice.toEntity))) ∧
    sampleApp.execs (effects 3 1 604803 "") s₂ = some s₃ ∧
    s₃.world.hist 3 = s₂.world.hist 3 ++ [.wrote (.insertSession lateSuccessor)] ∧
    sampleApp.execs (effects 3 4 604803 "") s₃ = some s₄ ∧
    lateSuccessor ∈ s₄.world.db.sessions.rows := by
  refine ⟨_, _, _, _, signedIn_reachable, Service.execs_afterwards _ (by decide +kernel),
    by decide +kernel, Service.execs_afterwards _ (by decide +kernel), by decide +kernel,
    Service.execs_afterwards _ (by decide +kernel), by decide +kernel,
    Service.execs_afterwards _ (by decide +kernel), by decide +kernel⟩

end AsyncPulse
