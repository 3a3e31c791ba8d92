import AsyncPulse.Expiry
set_option autoImplicit false

namespace AsyncPulse
open Effect

def stampedAt : List Act → Option Time
  | .drew _ :: .clock _ :: .signed _ :: .clock t :: _ => some t
  | _ :: h => stampedAt h
  | [] => none

theorem stampedAt_drew {l l' : List Act} {u : String} {t₁ t : Time} {c : Claims} (hl : Bare l) :
    stampedAt (l ++ .drew u :: .clock t₁ :: .signed c :: .clock t :: l') = some t := by
  induction l with
  | nil => rfl
  | cons a l ih =>
    rw [List.cons_append, stampedAt]
    · exact ih fun b hb => hl b (List.mem_cons_of_mem _ hb)
    · intro u' t' c' t'' rest ha _
      exact hl a (by simp) (by rw [ha]; rfl)

/-- The token that is dated at `t'` stays within the lifetime that was measured at `t`: its second
is that of the measurement, or the next one when the measurement comes later within its second
than the end of the lifetime does. A session that is over when it is measured is not extended when
the token is dated in the second in which it ends. -/
def InStep (expiresAt t t' : Time) : Prop :=
  if t ≤ expiresAt then
    wholeSeconds t' ≤ wholeSeconds t + if expiresAt % seconds 1 < t % seconds 1 then 1 else 0
  else wholeSeconds t' ≤ wholeSeconds expiresAt

instance (expiresAt t t' : Time) : Decidable (InStep expiresAt t t') := by
  unfold InStep
  infer_instance

theorem wholeSeconds_add_seconds (t n : Int) :
    wholeSeconds (t + seconds n) = wholeSeconds t + n := by
  change (t + n * 1000000) / 1000000 = t / 1000000 + n
  omega

theorem seconds_le_iff {n t : Int} : seconds n ≤ t ↔ n ≤ wholeSeconds t := by
  change n * 1000000 ≤ t ↔ n ≤ t / 1000000
  omega

theorem remainingSeconds_of_le {expiresAt t : Int} (h : t ≤ expiresAt) :
    remainingSeconds expiresAt t = wholeSeconds (expiresAt - t) := by
  have hnonneg : 0 ≤ expiresAt - t := Int.sub_nonneg_of_le h
  unfold remainingSeconds wholeSeconds
  rw [Int.tdiv_eq_ediv_of_nonneg hnonneg]
  omega

theorem remainingSeconds_of_lt {expiresAt t : Int} (h : expiresAt < t) :
    remainingSeconds expiresAt t = 0 := by
  have hneg := Int.tdiv_nonneg (Int.sub_nonneg_of_le (Int.le_of_lt h))
    (by decide : (0 : Int) ≤ 1000000)
  rw [← Int.neg_sub, Int.neg_tdiv] at hneg
  unfold remainingSeconds
  omega

/-- Truncating the remaining time and the sum costs at most what `InStep` allows. -/
theorem capped_iff (expiresAt t t' : Int) :
    seconds (wholeSeconds (t' + seconds (remainingSeconds expiresAt t))) ≤ expiresAt ↔
      InStep expiresAt t t' := by
  rw [seconds_le_iff, wholeSeconds_add_seconds]
  unfold InStep
  by_cases h : t ≤ expiresAt
  · rw [remainingSeconds_of_le h, if_pos h]
    change t' / 1000000 + (expiresAt - t) / 1000000 ≤ expiresAt / 1000000 ↔
      t' / 1000000 ≤ t / 1000000 +
        if expiresAt % (1 * 1000000) < t % (1 * 1000000) then 1 else 0
    split <;> omega
  · rw [remainingSeconds_of_lt (Int.not_le.mp h), if_neg h, Int.add_zero]

variable {γ χ : Type} {cfg : Config} {C : MayCache Key Json γ χ}

/-- The readings that call `i` has taken for its rotation are in step with the lifetime of the
session which its token names. -/
def DatedInStep (cfg : Config) (s : State γ) (i : Nat) (token : Token) : Prop :=
  ∀ c sid row t t', cfg.jose.verify token = some c → c.jti = some sid →
    s.world.db.sessions.get sid = some row → measuredAt (s.world.hist i) = some t →
      stampedAt (s.world.hist i) = some t' → InStep row.expiresAt t t'

/-- The refresh token that a refresh hands out does not outlive the session that it has opened just
when the clock stays in step. -/
theorem refresh_capped_iff {s : State γ} (hr : Reachable cfg C s) {i : Nat} {token : Token}
    {ip : Option String} {p : TokenPair} (hk : s.script i = some (.refreshToken token ip))
    (ho : s.answer i = some (.ok (.pair p))) :
    (∀ y c, .wrote (.insertSession y) ∈ s.world.hist i →
      cfg.jose.verify p.refreshToken = some c → seconds c.exp ≤ y.expiresAt) ↔
    DatedInStep cfg s i token := by
  obtain ⟨h, hh, p', hpair, hd⟩ := hr.dated hk ho
  cases hpair
  obtain hbare | ⟨c, row, hv, hj, hread, l, old, y, a, b, t, t₁, t₂, t₃, hl, hy, hb, hp, rfl⟩ := hd
  · -- A replay opens no session, and measures nothing.
    have hbare' : Bare (s.world.hist i) := by
      rw [hh]
      simp [hbare, Act.dates]
    constructor
    · intro _ c sid row t t' _ _ _ ht
      rw [measuredAt_bare hbare'] at ht
      cases ht
    · intro _ y c hy
      have hdrew := hr.provenance.drawn_of_inserted hy
      exact absurd ((hr.provenance.drawn _ _).mp hdrew) fun hm => hbare' _ hm rfl
  · have hmeasured : measuredAt (s.world.hist i) = some t := by
      rw [hh, List.append_assoc]
      exact measuredAt_drew hl
    have hstamped : stampedAt (s.world.hist i) = some t₂ := by
      have hsplit : l ++ rotationTrail old y a b t t₁ t₂ t₃ p ++ [.closed] =
          (l ++ [.clock t]) ++ .drew y.id :: .clock t₁ :: .signed a :: .clock t₂ ::
            ((rotationTrail old y a b t t₁ t₂ t₃ p).drop 5 ++ [.closed]) := by
        simp [rotationTrail]
      rw [hh, hsplit]
      exact stampedAt_drew (by simp [hl, Act.dates])
    have hy' : .wrote (.insertSession y) ∈ s.world.hist i := by
      rw [hh]
      simp [rotationTrail]
    have hlaw := hr.provenance.lawful i _ hk
    have hverify : ∀ c', cfg.jose.verify p.refreshToken = some c' ↔ c' = b := by
      intro c'
      rw [hp, cfg.jose.verify_encode, Option.some.injEq, eq_comm]
    obtain ⟨z, hz, hcore, -⟩ := hr.provenance.saw i row
      ⟨.byId row.id, [row], by rw [hh]; exact List.mem_append_left _ hread, by simp⟩
    have hexp : z.expiresAt = row.expiresAt := SessionModel.core_expiresAt hcore
    constructor
    · intro hall c' sid row' t' t'' hv' hj' hrow ht ht'
      rw [hv] at hv'
      cases hv'
      rw [hj] at hj'
      cases hj'
      rw [hz] at hrow
      cases hrow
      rw [hmeasured] at ht
      cases ht
      rw [hstamped] at ht'
      cases ht'
      have hle := hall y b hy' ((hverify b).mpr rfl)
      rw [hb, hy] at hle
      rw [hexp]
      exact (capped_iff _ _ _).mp hle
    · intro hstep x c' hx hc'
      obtain rfl := hlaw.insert_unique hx hy'
      obtain rfl := (hverify c').mp hc'
      have hin := hstep c row.id z t t₂ hv hj hz hmeasured hstamped
      rw [hb, hy]
      rw [hexp] at hin
      exact (capped_iff _ _ _).mpr hin

def microsecond (t : Time) (u : String) : Choice Unit :=
  { time := t, uuid := u, salt := "", rank := fun _ => 0, abort := false, cache := () }

def signInLate : List (Label Call (Choice Unit)) :=
  .call 0 (.authenticate "alice@example.org" "secret" none none) ::
    List.replicate 14 (.step 0 (microsecond 1999999 "s1"))

def signedInLate : State (TimedStore Key Json) := sampleApp.afterwards signInLate sampleState

theorem signedInLate_reachable : Reachable sampleConfig TimedStore.reliable signedInLate :=
  ⟨sampleWorld, signInLate, sampleWorld_init, Service.execs_afterwards _ (by decide +kernel)⟩

/-- Alice has signed in one microsecond before a full second, and refreshes a second later. The next
second begins once the remaining time has been measured. -/
def refreshAcross (t : Time) : List (Label Call (Choice Unit)) :=
  .call 1 (.refreshToken (refreshTokenOf "s1") none) ::
    List.replicate 9 (.step 1 (microsecond 2999999 "s2")) ++
    List.replicate 11 (.step 1 (microsecond t "s2"))

def acrossPair : TokenPair where
  accessToken := accessToken "s2" 903
  refreshToken := .signed
    { sub := "alice", exp := 604802, type := .refresh, sid := none, jti := some "s2" }

def acrossRow : SessionModel :=
  { aliceSession with
    id := "s2", createdAt := 3000000, expiresAt := 604801999999, previousSessionId := some "s1" }

theorem refresh_capped_across :
    (∀ y c, .wrote (.insertSession y) ∈
        (sampleApp.afterwards (refreshAcross 3000000) signedInLate).world.hist 1 →
      sampleConfig.jose.verify acrossPair.refreshToken = some c → seconds c.exp ≤ y.expiresAt) ↔
    DatedInStep sampleConfig (sampleApp.afterwards (refreshAcross 3000000) signedInLate) 1
      (refreshTokenOf "s1") :=
  have hcall : (sampleApp.afterwards (refreshAcross 3000000) signedInLate).script 1 =
      some (.refreshToken (refreshTokenOf "s1") none) := by decide +kernel
  refresh_capped_iff (signedInLate_reachable.execs (Service.execs_afterwards _ (by decide +kernel)))
    hcall (by decide +kernel)

/-- The new token expires one microsecond after the session that it is for. -/
theorem token_outlives_session : ∃ s, Reachable sampleConfig TimedStore.reliable signedInLate ∧
    sampleApp.execs (refreshAcross 3000000) signedInLate = some s ∧
    s.script 1 = some (.refreshToken (refreshTokenOf "s1") none) ∧
    s.answer 1 = some (.ok (.pair acrossPair)) ∧
    .wrote (.insertSession acrossRow) ∈ s.world.hist 1 ∧
    (sampleConfig.jose.verify acrossPair.refreshToken).map (fun c => seconds c.exp) =
      some (acrossRow.expiresAt + 1) :=
  ⟨_, signedInLate_reachable, Service.execs_afterwards _ (by decide +kernel), by decide +kernel,
    by decide +kernel, by decide +kernel, by decide +kernel⟩

end AsyncPulse
