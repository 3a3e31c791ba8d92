import AsyncPulse.Isolation
import AsyncPulse.Review
import AsyncPulse.WriteOrder
import Mathlib.Data.List.Pairwise
import Mathlib.Logic.Relation
set_option autoImplicit false

/-- What passes on along the steps of a path that go on passes on along the path. -/
theorem Relation.TransGen.carry {α β : Type} {r : α → α → Prop} {L : α → β → Prop}
    (hstep : ∀ a b c, r a b → r b c → ∀ x, L a x → L b x) {a b : α} (h : TransGen r a b)
    (hb : ∃ c, r b c) {x : β} (ha : L a x) : L b x := by
  induction h with
  | single hab =>
    obtain ⟨c, hc⟩ := hb
    exact hstep _ _ c hab hc x ha
  | tail _ hbc ih =>
    obtain ⟨d, hd⟩ := hb
    exact hstep _ _ d hbc hd x (ih ⟨_, hbc⟩)

namespace AsyncPulse
open Effect Relation

variable {γ χ : Type} {cfg : Config} {C : MayCache Key Json γ χ}

def nextWrite (s : State γ) (i : Nat) : Option Write :=
  match s.calls i with
  | some (_, .op (.write v) _) => some v
  | _ => none

theorem nextWrite_eq_some {s : State γ} {i : Nat} {v : Write} :
    nextWrite s i = some v ↔ ∃ k f, s.calls i = some (k, .op (.write v) f) := by
  unfold nextWrite
  constructor
  · intro h
    split at h
    · rename_i k v' f hc
      cases h
      exact ⟨k, f, hc⟩
    · cases h
  · rintro ⟨k, f, hc⟩
    rw [hc]

/-- Call `i` cannot go on before call `j` has given up a lock. -/
def WaitsFor (s : State γ) (i j : Nat) : Prop :=
  j ≠ i ∧ ∃ v ∈ nextWrite s i, ∃ l ∈ v.locks, s.world.locks l = some j

instance (s : State γ) (i j : Nat) : Decidable (WaitsFor s i j) :=
  inferInstanceAs (Decidable (_ ∧ _))

def lockReview (γ : Type) : Review γ where
  world := HoldLocks
  answers _ _ _ := True
  keeps _ := Ordered
  ends _ _ _ := True

theorem lockReview_sound (cfg : Config) (C : MayCache Key Json γ χ) :
    (lockReview γ).Sound cfg C where
  begin _ := List.Pairwise.nil
  prog k := by
    have hprog : ((lockReview γ).trace cfg).wp Ordered (k.prog cfg) (fun _ => Ordered) [] :=
      Trace.wp_of_valid (T := records cfg) (S := (lockReview γ).trace cfg) (fun _ _ => rfl)
        (fun _ _ _ hv => hv.1) (inOrder_prog k)
    exact Trace.wp_mono _ hprog fun _ _ _ => trivial
  answer _ _ _ _ _ _ _ _ _ _ := trivial
  step _ _ _ _ _ _ _ _ _ hR _ he _ := (hR.step he).congr rfl rfl
  tick _ _ hR _ := hR.congr rfl rfl

theorem session_mem_locks {s : String} {v : Write} (h : Lock.session s ∈ v.locks) :
    (∃ r, v = .insertSession r ∧ r.id = s) ∨ ∃ l n, v = .updateSession l n ∧ l.id = s := by
  cases v with
  | insertUser r => simp [Write.locks] at h
  | updateUser l n =>
    simp only [Write.locks, List.mem_append, List.mem_singleton, reduceCtorEq, false_or] at h
    rcases h with h | h <;> split at h <;> simp at h
  | insertSession r => exact .inl ⟨r, rfl, by simpa [Write.locks, eq_comm] using h⟩
  | updateSession l n => exact .inr ⟨l, n, rfl, by simpa [Write.locks, eq_comm] using h⟩

section Waiting

variable {s : State γ} {i j : Nat} {v : Write}

theorem attempted (h : ((lockReview γ).contract cfg C).Holds s) (hv : nextWrite s i = some v) :
    ∃ k, s.script i = some k ∧ (Act.wrote v).Lawful cfg k (s.world.hist i) ∧
      Ordered (s.world.hist i ++ [.wrote v]) := by
  obtain ⟨k, f, hc⟩ := nextWrite_eq_some.mp hv
  have hk := ((h.calls i k _ hc) (.ok ()) ⟨.inl rfl, trivial⟩).1
  exact ⟨k, by simp [Sys.script, hc], (Lawful.snoc_iff.mp hk.1).2, hk.2⟩

theorem insert_not_awaited (h : ((lockReview γ).contract cfg C).Holds s) {r : SessionModel}
    (hv : nextWrite s i = some (.insertSession r)) (hj : j ≠ i) :
    s.world.locks (.session r.id) ≠ some j := by
  intro hl
  have hprov : Provenance cfg C s.script s.world := h.inv.1
  obtain ⟨k, -, hlaw, -⟩ := attempted h hv
  have hdrew := (hprov.drawn r.id i).mpr hlaw.2.2.drew
  obtain ⟨v', hv', hmem⟩ := hprov.locks _ _ hl
  obtain ⟨-, hv'⟩ := hprov.of_pending hv'
  rcases session_mem_locks hmem with ⟨r', rfl, hid⟩ | ⟨l, n, rfl, hid⟩
  · have hdrawn := hprov.drawn_of_inserted hv'
    rw [hid, hdrew] at hdrawn
    exact hj (Option.some.inj hdrawn).symm
  · obtain ⟨⟨x, hx, -⟩, -⟩ := hprov.sound hv'
    obtain ⟨j', r', hr', hcom, hid', -⟩ := hprov.row _ x hx
    have hdrawn := hprov.drawn_of_inserted hr'
    rw [hid', hid, hdrew] at hdrawn
    exact hlaw.1.1 (Option.some.inj hdrawn ▸ hcom)

/-- A call that waits while it holds a lock is about to revoke a session. -/
theorem waiting_revokes (h : ((lockReview γ).contract cfg C).Holds s) {l : Lock} {p : Nat}
    (hl : s.world.locks l = some i) (hw : WaitsFor s i p) : ∃ row new,
      nextWrite s i = some (.updateSession row new) ∧ s.world.locks (.session row.id) = some p := by
  have hprov : Provenance cfg C s.script s.world := h.inv.1
  obtain ⟨hp, v, hv, l', hl', hlp⟩ := hw
  obtain ⟨k, -, -, hord⟩ := attempted h hv
  obtain ⟨v₀, hv₀, -⟩ := hprov.locks l i hl
  obtain ⟨-, hv₀⟩ := hprov.of_pending hv₀
  have hfirst := ((ordered_snoc.mp hord).2 _ hv₀).1
  cases v with
  | insertUser r => exact absurd ⟨rfl, rfl⟩ hfirst
  | updateUser row new => exact absurd ⟨rfl, rfl⟩ hfirst
  | insertSession r =>
    have he : l' = .session r.id := by simpa [Write.locks] using hl'
    exact absurd (he ▸ hlp) (insert_not_awaited h hv hp)
  | updateSession row new =>
    have he : l' = .session row.id := by simpa [Write.locks] using hl'
    exact ⟨row, new, hv, he ▸ hlp⟩

def Call.IsFor (cfg : Config) (k : Call) (s : String) : Prop :=
  match k with
  | .refreshToken _ _ | .refreshRoute _ _ _ => ∃ u, k.Refreshes cfg s u
  | .logout s' => s' = s
  | .logoutRoute t => ∃ c, cfg.jose.verify t = some c ∧ c.sid = some s
  | _ => False

/-- The call revokes sessions of `u` as a whole, or those over the device limit. -/
def Sweeps (cfg : Config) (k : Call) (u : String) (h : List Act) : Prop :=
  (k.RevokesAll cfg u ∧ ∃ rows, .readSessions (.unrevokedOf u) rows ∈ h) ∨
    (∃ e p d ip, k = .authenticate e p d ip) ∧
      ∃ t rows, .readSessions (.activeOf u t) rows ∈ h ∧ 5 ≤ rows.length

theorem Call.presents_unique {k : Call} {c c' : Claims} (hc : k.Presents cfg c)
    (hc' : k.Presents cfg c') : c = c' := by
  obtain ⟨t, ht, hv⟩ := hc
  obtain ⟨t', ht', hv'⟩ := hc'
  have hone : ∀ (o : Option Token), t ∈ o.toList → t' ∈ o.toList → t = t' := by
    intro o h h'
    rw [Option.mem_toList] at h h'
    exact Option.some.inj (h.symm.trans h')
  have htt : t = t' := by
    cases k
    case refreshRoute b co ip => exact hone _ ht ht'
    all_goals simp_all [Call.tokens]
  rw [htt, hv'] at hv
  exact (Option.some.inj hv).symm

theorem Call.IsFor.unique {k : Call} {s s' : String} (hs : k.IsFor cfg s)
    (hs' : k.IsFor cfg s') : s = s' := by
  cases k
  case refreshToken | refreshRoute =>
    obtain ⟨u, -, c, hp, -, hj, -⟩ := hs
    obtain ⟨u', -, c', hp', -, hj', -⟩ := hs'
    rw [Call.presents_unique hp hp', hj'] at hj
    exact (Option.some.inj hj).symm
  case logout => exact hs.symm.trans hs'
  case logoutRoute t =>
    obtain ⟨c, hv, hc⟩ := hs
    obtain ⟨c', hv', hc'⟩ := hs'
    rw [hv, Option.some.injEq] at hv'
    rw [hv', hc'] at hc
    exact (Option.some.inj hc).symm
  all_goals exact hs.elim

theorem Call.RevokesAll.unique {k : Call} {u u' : String} (hu : k.RevokesAll cfg u)
    (hu' : k.RevokesAll cfg u') : u = u' := by
  cases k
  case changeStatus => exact hu.1.symm.trans hu'.1
  case refreshToken | refreshRoute | logoutAllRoute =>
    obtain ⟨c, hp, hc⟩ := hu
    obtain ⟨c', hp', hc'⟩ := hu'
    rw [← hc, ← hc', Call.presents_unique hp hp']
  case logoutAll | deleteUser | deleteUserRoute => exact hu.symm.trans hu'
  all_goals exact hu.elim

theorem Call.Ends.sweeps {k : Call} {h : List Act} {l : SessionModel} (he : k.Ends cfg h l)
    (hl : Lawful cfg k h) : Sweeps cfg k l.userId h ∨ k.IsFor cfg l.id := by
  cases he with
  | rotation u hu =>
    refine .inr ?_
    have hk := hu.1
    cases k <;> simp only [Call.isRefresh, reduceCtorEq] at hk
    all_goals exact ⟨u, hu⟩
  | eviction e p d ip t rows hk hr hn _ => exact .inl (.inr ⟨⟨e, p, d, ip, hk⟩, t, rows, hr, hn⟩)
  | logout hk =>
    rw [hk]
    exact .inr rfl
  | logoutRoute t c hk hv hs =>
    rw [hk]
    exact .inr ⟨c, hv, hs⟩
  | mass rows hr _ =>
    obtain ⟨h₁, h₂, -, hlaw⟩ := hl.of_mem hr
    exact .inl (.inl ⟨(hlaw.2.2.2 _ rfl).1, rows, hr⟩)

theorem Ordered.active_unique {h : List Act} (ho : Ordered h) {a b : Act} (ha : a ∈ h) (hb : b ∈ h)
    (har : a.readsActive = true) (hbr : b.readsActive = true) : a = b := by
  by_contra hne
  have hsym : Std.Symm fun b a : Act => ¬ (b.readsActive = true ∧ a.readsActive = true) :=
    ⟨fun _ _ hba hab => hba hab.symm⟩
  exact (ho.imp fun hp => hp.2).forall ha hb hne ⟨har, hbr⟩

theorem Sweeps.unique {k : Call} {u u' : String} {h : List Act} (hu : Sweeps cfg k u h)
    (hu' : Sweeps cfg k u' h) (ho : Ordered h) : u = u' := by
  rcases hu with ⟨hu, -⟩ | ⟨⟨e, p, d, ip, rfl⟩, t, rows, hr, -⟩
  · rcases hu' with ⟨hu', -⟩ | ⟨⟨e, p, d, ip, rfl⟩, -⟩
    · exact hu.unique hu'
    · exact hu.elim
  · rcases hu' with ⟨hu', -⟩ | ⟨-, t', rows', hr', -⟩
    · exact hu'.elim
    · have he := ho.active_unique hr hr' rfl rfl
      simp only [Act.readSessions.injEq, SessionQuery.activeOf.injEq] at he
      exact he.1.1

/-- Only a refresh can be about one session and sweep as well. -/
theorem Sweeps.refreshes {k : Call} {u t : String} {h : List Act} (hu : Sweeps cfg k u h)
    (ht : k.IsFor cfg t) : k.Refreshes cfg t u := by
  rcases hu with ⟨hu, -⟩ | ⟨⟨e, p, d, ip, rfl⟩, -⟩
  · cases k
    case refreshToken | refreshRoute =>
      obtain ⟨u', hr, c, hp, hty, hj, -⟩ := ht
      obtain ⟨c', hp', hc'⟩ := hu
      exact ⟨hr, c, hp, hty, hj, Call.presents_unique hp hp' ▸ hc'⟩
    case logout | logoutRoute => exact hu.elim
    all_goals exact ht.elim
  · exact ht.elim

/-- A call that is waited for and waits itself: it has revoked the row that the other one wants,
and both rows are of one user, whose sessions it sweeps. -/
theorem waiting_sweeps (h : ((lockReview γ).contract cfg C).Holds s) {l' n' : SessionModel} {p : Nat}
    (hv : .wrote (.updateSession l' n') ∈ s.world.hist i)
    (hheld : s.world.locks (.session l'.id) = some i) (hw : WaitsFor s i p) : ∃ k row new,
      s.script i = some k ∧ nextWrite s i = some (.updateSession row new) ∧
        row.userId = l'.userId ∧ Sweeps cfg k l'.userId (s.world.hist i) := by
  have hprov : Provenance cfg C s.script s.world := h.inv.1
  obtain ⟨row, new, hnext, hlock⟩ := waiting_revokes h hheld hw
  obtain ⟨k, hk, hlaw, hord⟩ := attempted h hnext
  have hlawful := hprov.lawful i k hk
  have hordered := (ordered_snoc.mp hord).1
  have hne : row.id ≠ l'.id := by
    intro he
    rw [he, hheld] at hlock
    exact hw.1 (Option.some.inj hlock).symm
  obtain ⟨k', h₁, h₂, hk', hh, hlaw'⟩ := hprov.wrote hv
  rw [hk] at hk'
  cases hk'
  have hends' : k.Ends cfg (s.world.hist i) l' := hh ▸ hlaw'.2.2.reason.mono (.wrote _ :: h₂)
  rcases hlaw.2.2.reason.sweeps hlawful with hsw | htarget
  · rcases hends'.sweeps hlawful with hsw' | htarget'
    · exact ⟨k, row, new, hk, hnext, hsw.unique hsw' hordered, hsw'⟩
    · -- A refresh that sweeps does so for the owner of the row that its token names.
      obtain ⟨⟨x, hx, hxc⟩, -⟩ := hprov.sound hv
      have hown := hprov.refreshed_owner hk (hsw.refreshes htarget') hx
      have hu : row.userId = l'.userId := hown.symm.trans (SessionModel.core_userId hxc)
      exact ⟨k, row, new, hk, hnext, hu, hu ▸ hsw⟩
  · rcases hends'.sweeps hlawful with hsw' | htarget'
    · obtain ⟨x, hx, hxc, -⟩ := hprov.saw i row hlaw.2.2.saw
      have hown := hprov.refreshed_owner hk (hsw'.refreshes htarget) hx
      exact ⟨k, row, new, hk, hnext, (SessionModel.core_userId hxc).symm.trans hown, hsw'⟩
    · exact absurd (htarget.unique htarget') hne

/-- The call is about to revoke one more session of `u`, in the course of a sweep. -/
def Sweeping (cfg : Config) (u : String) (s : State γ) (i : Nat) : Prop :=
  ∃ k row new, s.script i = some k ∧ nextWrite s i = some (.updateSession row new) ∧
    row.userId = u ∧ Sweeps cfg k u (s.world.hist i)

/-- A call that waits for a call that waits as well: if it is about to revoke a session of `u`, the
other one sweeps the sessions of `u`. -/
theorem waiting_step (h : ((lockReview γ).contract cfg C).Holds s) {a b c : Nat}
    (hab : WaitsFor s a b) (hbc : WaitsFor s b c) {x n : SessionModel}
    (hx : nextWrite s a = some (.updateSession x n)) : Sweeping cfg x.userId s b := by
  have hprov : Provenance cfg C s.script s.world := h.inv.1
  obtain ⟨-, v, hv, l, hl, hlock⟩ := hab
  obtain rfl := Option.some.inj (hx.symm.trans hv)
  have hl : l = .session x.id := by simpa [Write.locks] using hl
  subst hl
  obtain ⟨k, -, hlaw, -⟩ := attempted h hx
  obtain ⟨y, hy, hyc, -⟩ := hprov.saw a x hlaw.2.2.saw
  obtain ⟨v', hv', hmem⟩ := hprov.locks _ _ hlock
  obtain ⟨ho, hwrote⟩ := hprov.of_pending hv'
  rcases session_mem_locks hmem with ⟨r, rfl, hid⟩ | ⟨l', n', rfl, hid⟩
  · have hnone := hprov.unused ho hwrote
    rw [hid, hy] at hnone
    cases hnone
  · obtain ⟨⟨z, hz, hzc⟩, -⟩ := hprov.sound hwrote
    rw [hid, hy] at hz
    cases hz
    have hu : l'.userId = x.userId := SessionModel.core_userId (hzc.symm.trans hyc)
    rw [← hu]
    exact waiting_sweeps h hwrote (hid ▸ hlock) hbc

end Waiting

/-- Calls that wait for each other in a ring are all sweeping the sessions of one and the same
user, by a mass revocation or by the eviction of a login. No other call, and no other statement,
is ever part of a deadlock. -/
theorem deadlock_within_user {s : State γ} (hr : Reachable cfg C s) {i : Nat}
    (hi : TransGen (WaitsFor s) i i) : ∃ u, ∀ j, TransGen (WaitsFor s) i j →
      TransGen (WaitsFor s) j i → Sweeping cfg u s j := by
  have h : ((lockReview γ).contract cfg C).Holds s :=
    (lockReview_sound cfg C).reachable (fun _ => .init) hr
  -- The call that the ring starts from is waited for, and waits to revoke some row.
  obtain ⟨c, hic, -⟩ := TransGen.head'_iff.mp hi
  obtain ⟨b, -, -, -, -, l, -, hl⟩ := TransGen.tail'_iff.mp hi
  obtain ⟨x, n, hx, -⟩ := waiting_revokes h hl hic
  refine ⟨x.userId, fun j hij hji => ?_⟩
  obtain ⟨p, hip, hpj⟩ := TransGen.tail'_iff.mp hij
  obtain ⟨d, hjd, -⟩ := TransGen.head'_iff.mp hji
  have hp : ∃ y n, nextWrite s p = some (.updateSession y n) ∧ y.userId = x.userId := by
    rcases reflTransGen_iff_eq_or_transGen.mp hip with rfl | hip
    · exact ⟨x, n, hx, rfl⟩
    · refine hip.carry (L := fun a (u : String) => ∃ y n,
        nextWrite s a = some (.updateSession y n) ∧ y.userId = u) ?_ ⟨j, hpj⟩ ⟨x, n, hx, rfl⟩
      rintro a b c hab hbc u ⟨y, n, hy, rfl⟩
      obtain ⟨-, row, new, -, hrow, hu, -⟩ := waiting_step h hab hbc hy
      exact ⟨row, new, hrow, hu⟩
  obtain ⟨y, n', hy, hu⟩ := hp
  rw [← hu]
  exact waiting_step h hpj hjd hy

def sixLogins : List (Label Call (Choice Unit)) :=
  (["f", "a", "b", "c", "d", "e"].zipIdx.flatMap fun p =>
    .call p.2 (.authenticate "alice@example.org" "secret" none none) ::
      effects p.2 11 (p.2 + 1) p.1) ++ (List.range 6).flatMap fun i => effects i 3 7 ""

def keyOrdered (t : Int) : Choice Unit :=
  { moment t "" with rank := ["a", "b", "c", "d", "e", "f"].idxOf }

/-- The next login evicts the two oldest sessions, `f` and then `a`, while a logout everywhere
revokes the six from `a` to `f`. -/
def crossing : List (Label Call (Choice Unit)) :=
  sixLogins ++ .call 6 (.authenticate "alice@example.org" "secret" none none) ::
    effects 6 9 8 "g" ++ .call 7 (.logoutAll "alice") :: List.replicate 9 (.step 7 (keyOrdered 8))

theorem deadlock_within_user_crossing : ∃ s : State (TimedStore Key Json),
    sampleApp.execs crossing sampleState = some s ∧ TransGen (WaitsFor s) 6 6 ∧
      ∃ u, Sweeping sampleConfig u s 6 ∧ Sweeping sampleConfig u s 7 := by
  have hs : sampleApp.execs crossing sampleState =
      some (sampleApp.afterwards crossing sampleState) :=
    sampleApp.execs_afterwards (by decide +kernel)
  have h67 : WaitsFor (sampleApp.afterwards crossing sampleState) 6 7 := by decide +kernel
  have h76 : WaitsFor (sampleApp.afterwards crossing sampleState) 7 6 := by decide +kernel
  have hring := TransGen.tail (.single h67) h76
  obtain ⟨u, hu⟩ := deadlock_within_user (sampleState_reachable.execs hs) hring
  exact ⟨_, hs, hring, u, hu 6 hring hring, hu 7 (.single h67) (.single h76)⟩

end AsyncPulse
