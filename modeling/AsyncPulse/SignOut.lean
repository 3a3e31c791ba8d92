import AsyncPulse.Eviction
import AsyncPulse.FailingLogout
set_option autoImplicit false

namespace AsyncPulse
open Effect

variable {γ χ : Type} {cfg : Config} {C : MayCache Key Json γ χ}

/-! ### `POST /auth/logout` -/

inductive LogoutRun (d : Database) (c : Claims) (s : String) : List Act → Prop where
  | late (t : Time) : c.exp < wholeSeconds t → LogoutRun d c s [.clock t]
  | unknown (t : Time) : d.sessions.get s = none →
      LogoutRun d c s [.clock t, .readSessions (.byId s) []]
  | again (t : Time) (x : SessionModel) : d.sessions.get s = some x → x.revokedAt ≠ none →
      LogoutRun d c s [.clock t, .readSessions (.byId s) [x], .readSessions (.byId s) [x],
        .committed, .cacheDeleted (.session s), .cacheDeleted (.grace s)]
  | ended (t t' : Time) (x : SessionModel) : d.sessions.get s = some x → x.revokedAt = none →
      LogoutRun d c s [.clock t, .readSessions (.byId s) [x], .clock t',
        .readSessions (.byId s) [x], .wrote (eviction (x, t')), .committed,
        .cacheDeleted (.session s), .cacheDeleted (.grace s)]

section

variable {α β : Type} {d : Database} {t₀ : Time} {h : List Act} {Q : Except Exc β → List Act → Prop}

theorem alone_getSessionById {s : String} {f : Option UserSession → M β}
    (hnone : (seen d h).sessions.get s = none →
      Alone cfg d t₀ (f none) Q (h ++ [Act.readSessions (.byId s) []]))
    (hsome : ∀ x, (seen d h).sessions.get s = some x →
      Alone cfg d t₀ (f (some x.toEntity)) Q (h ++ [Act.readSessions (.byId s) [x]])) :
    Alone cfg d t₀ (getSessionById s >>= f) Q h := by
  unfold getSessionById
  rw [bind_assoc]
  apply alone_selectSessions
  intro rank
  cases hx : (seen d h).sessions.get s with
  | none =>
    have hnil : (SessionQuery.byId s).eval rank (seen d h).sessions = [] := by
      apply List.eq_nil_iff_forall_not_mem.mpr
      intro x hm
      rw [SessionQuery.mem_byId, hx] at hm
      cases hm
    rw [hnil]
    exact hnone hx
  | some x =>
    rw [SessionQuery.eval_byId hx]
    exact hsome x hx

theorem alone_updateSession_same {x : SessionModel} (hx : (seen d h).sessions.get x.id = some x)
    {f : Unit → M β} (hf : Alone cfg d t₀ (f ()) Q (h ++ [Act.readSessions (.byId x.id) [x]])) :
    Alone cfg d t₀ (updateSession x.toEntity >>= f) Q h := by
  unfold updateSession
  rw [bind_assoc]
  apply alone_selectSessions
  intro rank
  rw [show x.toEntity.id = x.id from rfl, SessionQuery.eval_byId hx]
  simp only [SessionModel.toModel_toEntity, if_true]
  exact hf

theorem alone_decodeToken {token : Token} {c : Claims} (hv : cfg.jose.verify token = some c)
    {f : Claims → M β}
    (hlate : ∀ t, c.exp < wholeSeconds t → Q (.error .jwtError) (h ++ [Act.clock t]))
    (hok : ∀ t, Alone cfg d t₀ (f c) Q (h ++ [Act.clock t])) :
    Alone cfg d t₀ (decodeToken cfg token >>= f) Q h := by
  unfold decodeToken
  rw [hv]
  simp only
  rw [bind_assoc]
  apply alone_now
  intro t _
  rw [bind_assoc]
  apply alone_raiseIf
  · exact hlate t
  · intro _
    rw [pure_bind]
    exact hok t

end

theorem alone_logoutRoute {d : Database} {t₀ : Time} {token : Token} {c : Claims} {s : String}
    (hv : cfg.jose.verify token = some c) (hs : c.sid = some s) (hne : s ≠ "") :
    Alone cfg d t₀ (logoutRoute cfg token) (fun _ l => LogoutRun d c s l) [] := by
  unfold logoutRoute
  apply (Trace.wp_suppress _ _ _ _).mpr
  apply alone_decodeToken hv
  · intro t ht
    exact .late t ht
  intro t
  have hsid : c.sid.filter (· ≠ "") = some s := by simp [hs, hne]
  rw [hsid]
  simp only
  unfold logout
  apply alone_getSessionById
  · intro hx
    exact .unknown t hx
  intro x hx
  have hx' : d.sessions.get s = some x := hx
  obtain rfl : x.id = s := Keyed.key_of_get hx'
  simp only
  unfold UserSession.revoke
  cases hrev : x.revokedAt with
  | some t₁ =>
    simp only [show x.toEntity.revokedAt = some t₁ from hrev, pure_bind]
    apply alone_updateSession_same
    · rw [seen_still (by simp [Act.still])]
      exact hx
    apply alone_commit
    apply alone_suppressDelete
    rw [← bind_pure (Prog.suppress _)]
    apply alone_suppressDelete
    exact .again t x hx' (by simp [hrev])
  | none =>
    simp only [show x.toEntity.revokedAt = none from hrev]
    rw [bind_assoc]
    apply alone_now
    intro t' _
    rw [pure_bind]
    apply alone_updateSession (a := x) rfl
    · rw [seen_still (by simp [Act.still])]
      exact hx
    · intro he
      have hrevoked := congrArg SessionModel.revokedAt he
      rw [hrev] at hrevoked
      cases hrevoked
    apply alone_commit
    apply alone_suppressDelete
    rw [← bind_pure (Prog.suppress _)]
    apply alone_suppressDelete
    exact .ended t t' x hx' hrev

namespace LogoutRun

variable {d : Database} {c : Claims} {s : String} {l : List Act}

/-- Unless the token was late, the row of the session is committed and its entry deleted. -/
theorem carried (h : LogoutRun d c s l) {t : Time} {l' : List Act} (hl : l = .clock t :: l')
    (ht : wholeSeconds t ≤ c.exp) :
    d.sessions.get s = none ∨ .committed ∈ l ∧ .cacheDeleted (.session s) ∈ l := by
  cases h with
  | late t₁ hlate =>
    cases hl
    exact absurd ht (Int.not_le.mpr hlate)
  | unknown t₁ hnone => exact .inl hnone
  | again t₁ y hy hrev => exact .inr (by simp)
  | ended t₁ t₂ y hy hlive => exact .inr (by simp)

end LogoutRun

/-- Session `s` is over, and the cache has no entry that says otherwise. -/
structure Buried (C : MayCache Key Json γ χ) (s : String) (w : World γ) : Prop where
  done : Over w s
  entry : C.Exact → ∀ v, C.holds w.cache (.session s) v →
    ∃ p : SessionValidation, v = p.toDict ∧ p.isRevoked = true

theorem Turn.buried {m : Nat → Option Call} {n : Nat} {k : Call} {r : Except Exc Out}
    {start : Time} {w w' : World γ} (h : Turn cfg C m n k r start w w') {s : String}
    (hb : Buried C s w) : Buried C s w' := by
  refine ⟨h.stays_over hb.done, fun hex v hv => ?_⟩
  obtain ⟨hold, -⟩ | ⟨ttl, l₁, l₂, hl, -⟩ := h.alone.played.holds _ v hv
  · exact hb.entry hex v hold
  · have hlaw := h.lawful
    rw [hl] at hlaw
    obtain ⟨y, hid, rfl, ⟨hw, -⟩ | ⟨hwarm, ⟨rows, hr, hyr⟩, -⟩⟩ := hlaw.of_split
    · obtain ⟨j, hj⟩ := hb.done.drawn
      exact absurd hid (h.inserts_new (hl ▸ List.mem_append_left _ hw) hj)
    · -- The gate has read the row as it was.
      obtain ⟨rank, rfl⟩ := h.read hl hr hwarm.unwritten
      have hrev := hb.done.row y (SessionQuery.mem_byId.mp hyr)
      exact ⟨y.projection, rfl, Option.isSome_iff_ne_none.mpr hrev⟩

/-- Session `s` is dead from `w` on, where `n` calls have been made. -/
def Dead (cfg : Config) (C : MayCache Key Json γ χ) (gap : World γ → World γ → Prop) (n : Nat)
    (w : World γ) (s : String) : Prop :=
  ∀ log m w₁, (app cfg C).Seq gap n w log m w₁ →
    (∀ x, w₁.db.sessions.get s = some x → x.revokedAt ≠ none) ∧
    ∀ k r w₂ c, (app cfg C).Completed gap m k r w₁ w₂ → k.isRefresh = true →
      k.Presents cfg c → c.jti = some s → ∀ y, .wrote (.insertSession y) ∉ w₂.hist m

/-- From `w` on the cache does not serve session `s` as active. -/
def Unserved (cfg : Config) (C : MayCache Key Json γ χ) (gap : World γ → World γ → Prop) (n : Nat)
    (w : World γ) (s : String) : Prop :=
  ∀ log m w₁, (app cfg C).Seq gap n w log m w₁ → C.Exact → ∀ v, C.holds w₁.cache (.session s) v →
    ∃ p : SessionValidation, v = p.toDict ∧ p.isRevoked = true

variable {m : Nat → Option Call} {n : Nat} {gap : World γ → World γ → Prop} {w : World γ}
  {s : String}

theorem Over.dead (hbetween : Between cfg C m n w) (ho : Over w s) : Dead cfg C gap n w s := by
  intro log n' w₁ hseq
  obtain ⟨m', hb₁, hover⟩ := hbetween.seq (fun _ _ _ _ _ _ _ _ ht hi => ht.stays_over hi) ho hseq
  refine ⟨hover.row, fun k r w₂ c hcall hk hc hj y => ?_⟩
  obtain ⟨start, -, ht⟩ := hb₁.completed hcall
  have hid : ∀ s', c.jti = some s' → s' = s := by
    intro s' hs'
    rw [hj] at hs'
    exact (Option.some.inj hs').symm
  exact ht.inserts_nothing hk hc hid hover y

theorem Buried.unserved (hbetween : Between cfg C m n w) (hb : Buried C s w) :
    Unserved cfg C gap n w s := by
  intro log n' w₁ hseq hex
  obtain ⟨m', -, hburied⟩ := hbetween.seq (fun _ _ _ _ _ _ _ _ ht hi => ht.buried hi) hb hseq
  exact hburied.entry hex

theorem Between.logs_out {token : Token} {c : Claims} {start : Time} {w' : World γ}
    {cs : List (Choice χ)} {r : Except Exc Out} (hb : Between cfg C m n w)
    (hv : cfg.jose.verify token = some c) (hs : c.sid = some s) (hne : s ≠ "")
    (hcall : (semantics cfg C).run n cs (Call.prog cfg (.logoutRoute token)) (w.setClock start) =
      some (r, w')) {t : Time} {l' : List Act} (hhist : w'.hist n = .clock t :: l')
    (ht : wholeSeconds t ≤ c.exp) : w.db.sessions.get s = none ∨
      .committed ∈ w'.hist n ∧ .cacheDeleted (.session s) ∈ w'.hist n := by
  have hidle := hb.provenance.idle n (hb.unmade _ (Nat.le_refl _))
  have hvacant : Vacant (w.setClock start) n := ⟨hb.pending _, hb.locks⟩
  have hroute : Alone cfg w.db start (logoutRoute cfg token)
      (fun _ l => LogoutRun w.db c s l) [] := alone_logoutRoute hv hs hne
  obtain ⟨l, hplayed, -, l₀, -, rfl, hdone⟩ :=
    hvacant.run (alone_prog (k := .logoutRoute token) rfl hroute) hcall
  have hl : l₀ ++ [.closed] = .clock t :: l' := by
    have hall := hplayed.hist
    rw [World.setClock_hist, hidle, List.nil_append, hhist] at hall
    exact hall.symm
  have hl₀ : ∃ l₁, l₀ = .clock t :: l₁ := by
    cases l₀ with
    | nil => cases hl
    | cons a l₁ => exact ⟨l₁, by rw [(List.cons.inj hl).1]⟩
  obtain ⟨l₁, hl₀⟩ := hl₀
  rw [hhist, ← hl]
  exact (hdone.carried hl₀ ht).imp_right fun h =>
    ⟨List.mem_append_left _ h.1, List.mem_append_left _ h.2⟩

/-- The route answers 204 whatever goes wrong. The session of the token is dead if its revocation
was committed, or there was none to revoke, and the cache does not serve it if its entry was
deleted as well; both are so if the token is not late and no call that the route makes fails. -/
theorem logout_answer {log : List (Call × Except Exc Out)} {gap : World γ → World γ → Prop}
    {w w' : World γ} {start : Time} {token : Token} {c : Claims} {s : String}
    {cs : List (Fault Exc × Choice χ)} {r : Except Exc Out} (hrun : Sequential cfg C gap log w)
    (hstart : w.clock ≤ start) (hv : cfg.jose.verify token = some c) (hm : c ∈ w.minted)
    (hs : c.sid = some s)
    (hcall : (semantics cfg C).faulty.run log.length cs (Call.prog cfg (.logoutRoute token))
      (w.setClock start) = some (r, w')) :
    r = .ok .done ∧
    (w.db.sessions.get s = none ∨ .committed ∈ w'.hist log.length →
      (∀ x, w.db.sessions.get s = some x →
        ∃ y, w'.db.sessions.get s = some y ∧ y.revokedAt ≠ none) ∧
      Dead cfg C gap (log.length + 1) w' s ∧
      (w.db.sessions.get s = none ∨ .cacheDeleted (.session s) ∈ w'.hist log.length →
        Unserved cfg C gap (log.length + 1) w' s)) ∧
    ((∀ f ∈ cs, f.1 = .none) →
      (∃ t l, w'.hist log.length = .clock t :: l ∧ wholeSeconds t ≤ c.exp) →
        w.db.sessions.get s = none ∨ .committed ∈ w'.hist log.length ∧
          .cacheDeleted (.session s) ∈ w'.hist log.length) := by
  have hb := hrun.between
  obtain ⟨s', hne, hnames, hdrawn⟩ := hb.provenance.minted_drawn hm
  obtain rfl := hnames.eq_of_sid hs
  refine ⟨Sem.run_suppress hcall, fun hdone => ?_, fun hcs hdecoded => ?_⟩
  · have haccepts : (app cfg C).accepts (.logoutRoute token) w = true := by
      simp [app, Call.tokens, presentable, hv, hm]
    obtain ⟨hstruck, htrail⟩ := hb.struck hstart haccepts (failing_prog hv hs hne) hcall
    have hover := hstruck.isOver htrail hdrawn hdone
    have hafter := hstruck.done htrail hdone
    refine ⟨fun x hx => ?_, hover.dead hafter, fun hdel => Buried.unserved hafter ⟨hover, ?_⟩⟩
    · obtain ⟨y, hy, -⟩ := hstruck.alone.grows.sessions s x hx
      exact ⟨y, hy, hover.row y hy⟩
    · intro hex v hv'
      exact absurd hv' (hstruck.emptied (hrun.coherent hex).2 hex htrail hdel v)
  · obtain ⟨t, l', hhist, ht⟩ := hdecoded
    rw [Sem.faulty_run hcs] at hcall
    exact hb.logs_out hv hs hne hcall hhist ht

abbrev faultySample (i : Nat) (cs : List (Fault Exc × Choice Unit)) (k : Call)
    (w : World (TimedStore Key Json)) : Option (Except Exc Out × World (TimedStore Key Json)) :=
  (semantics sampleConfig TimedStore.reliable).faulty.run i cs (Call.prog sampleConfig k) w

/-- The COMMIT of the route takes effect, and its reply is lost. -/
def replyLost : List (Fault Exc × Choice Unit) :=
  List.replicate 5 (.none, moment 10 "") ++ (.after .operationalError, moment 10 "") ::
    List.replicate 5 (.none, moment 10 "")

/-- Alice signs in, and signs out in time. Her session is dead even if the reply to the COMMIT is
lost, and the cache does not serve it if nothing fails. -/
theorem logout_answer_alice : ∃ (log : List (Call × Except Exc Out))
    (w : World (TimedStore Key Json)), rehearsal aliceSignsIn = some (log, w) ∧
    (∃ r w', faultySample 1 replyLost (.logoutRoute (.signed aliceClaims))
        (w.setClock (seconds 10)) = some (r, w') ∧ r = .ok .done ∧
      (w'.db.sessions.get "s1").isSome = true ∧
      Dead sampleConfig TimedStore.reliable Later 2 w' "s1") ∧
    ∃ r w', faultySample 1 (List.replicate 40 (.none, moment 10 ""))
        (.logoutRoute (.signed aliceClaims)) (w.setClock (seconds 10)) = some (r, w') ∧
      Unserved sampleConfig TimedStore.reliable Later 2 w' "s1" := by
  have hcheck : (rehearsal aliceSignsIn).any (fun y =>
      y.1.length = 1 && y.2.clock ≤ seconds 10 && aliceClaims ∈ y.2.minted &&
      (y.2.db.sessions.get "s1").isSome &&
      (faultySample 1 replyLost (.logoutRoute (.signed aliceClaims))
        (y.2.setClock (seconds 10))).any (fun z => .committed ∈ z.2.hist 1) &&
      (faultySample 1 (List.replicate 40 (.none, moment 10 ""))
        (.logoutRoute (.signed aliceClaims)) (y.2.setClock (seconds 10))).any fun z =>
          (z.2.hist 1).head? = some (.clock (seconds 10))) = true := by
    decide +kernel
  obtain ⟨⟨log, w⟩, h₀, hcheck⟩ := (Option.any_eq_true _ _).mp hcheck
  simp only [Bool.and_eq_true, decide_eq_true_eq] at hcheck
  obtain ⟨⟨⟨⟨⟨hlen, hclock⟩, hm⟩, hrow⟩, hlost⟩, hcall⟩ := hcheck
  obtain ⟨⟨r, w'⟩, hlost, hcommitted⟩ := (Option.any_eq_true _ _).mp hlost
  obtain ⟨⟨r₁, w₁⟩, hcall, hhead⟩ := (Option.any_eq_true _ _).mp hcall
  obtain ⟨l, hl⟩ := List.head?_eq_some_iff.mp (of_decide_eq_true hhead)
  have hrun := (sequential_of_rehearsal h₀).1
  have hv : sampleConfig.jose.verify (.signed aliceClaims) = some aliceClaims := rfl
  rw [← hlen] at hlost hcall hcommitted hl
  obtain ⟨hr, hdead, -⟩ := logout_answer (s := "s1") hrun hclock hv hm rfl hlost
  obtain ⟨-, hdead₁, hdone⟩ := logout_answer (s := "s1") hrun hclock hv hm rfl hcall
  obtain ⟨hended, hdead, -⟩ := hdead (.inr (of_decide_eq_true hcommitted))
  have hdone := hdone (fun f hf => congrArg Prod.fst (List.eq_of_mem_replicate hf))
    ⟨seconds 10, l, hl, by decide⟩
  have hunserved := (hdead₁ (hdone.imp_right And.left)).2.2 (hdone.imp_right And.right)
  obtain ⟨x, hx⟩ := Option.isSome_iff_exists.mp hrow
  obtain ⟨y, hy, -⟩ := hended x hx
  rw [hlen] at hlost hcall hdead hunserved
  exact ⟨log, w, h₀, ⟨r, w', hlost, hr, Option.isSome_iff_exists.mpr ⟨y, hy⟩, hdead⟩,
    r₁, w₁, hcall, hunserved⟩

/-- Call 1 presents Alice's access token to the route at `start`. It answers 204, her session is as
it was, and a refresh by call 2 opens another one. -/
def leavesSession (start : Time) (cs : List (Fault Exc × Choice Unit))
    (w : World (TimedStore Key Json)) : Bool :=
  (faultySample 1 cs (.logoutRoute (.signed aliceClaims)) (w.setClock start)).any fun y =>
    y.1.toOption = some .done && y.2.db.sessions.get "s1" = some aliceSession &&
      (sampleApp.run 2 (List.replicate 40 (moment 1001 "s2"))
        (sampleApp.prog (.refreshToken (refreshTokenOf "s1") none)) y.2).any fun z =>
          z.1.isOk && (z.2.db.sessions.get "s2").any fun x =>
            x.previousSessionId = some "s1" && x.revokedAt = none

/-- It answers 204 and the session is revoked, but the gate goes on accepting the token. -/
def leavesEntry (start : Time) (cs : List (Fault Exc × Choice Unit))
    (w : World (TimedStore Key Json)) : Bool :=
  (faultySample 1 cs (.logoutRoute (.signed aliceClaims)) (w.setClock start)).any fun y =>
    y.1.toOption = some .done && (y.2.db.sessions.get "s1").any (fun x => x.revokedAt.isSome) &&
      (sampleApp.run 2 (List.replicate 40 (moment 3 ""))
        (sampleApp.prog (.getCurrentUser (.signed aliceClaims))) y.2).any fun z => z.1.isOk

/-- Her token is 99 seconds late, or the SELECT of her session fails. If the deletes fail that
follow the COMMIT, her session is served from the cache. -/
theorem logout_leaves_session : ∃ (log : List (Call × Except Exc Out))
    (w : World (TimedStore Key Json)), rehearsal aliceSignsIn = some (log, w) ∧
    aliceClaims ∈ w.minted ∧
    leavesSession (seconds 1000) (List.replicate 40 (.none, moment 1000 "")) w = true ∧
    leavesSession (seconds 2) ((.none, moment 2 "") ::
      List.replicate 40 (.before .operationalError, moment 2 "")) w = true ∧
    leavesEntry (seconds 2) (List.replicate 6 (.none, moment 2 "") ++
      List.replicate 40 (.before .operationalError, moment 2 "")) w = true := by
  have hcheck : (rehearsal aliceSignsIn).any (fun y => aliceClaims ∈ y.2.minted &&
      leavesSession (seconds 1000) (List.replicate 40 (.none, moment 1000 "")) y.2 &&
      leavesSession (seconds 2) ((.none, moment 2 "") ::
        List.replicate 40 (.before .operationalError, moment 2 "")) y.2 &&
      leavesEntry (seconds 2) (List.replicate 6 (.none, moment 2 "") ++
        List.replicate 40 (.before .operationalError, moment 2 "")) y.2) = true := by
    decide +kernel
  obtain ⟨⟨log, w⟩, h₀, hcheck⟩ := (Option.any_eq_true _ _).mp hcheck
  simp only [Bool.and_eq_true, decide_eq_true_eq] at hcheck
  obtain ⟨⟨⟨hm, hlate⟩, hfailed⟩, hentry⟩ := hcheck
  exact ⟨log, w, h₀, hm, hlate, hfailed, hentry⟩

end AsyncPulse
