import AsyncPulse.Deadlock
import AsyncPulse.EffectProgress
set_option autoImplicit false

namespace AsyncPulse
open Effect Relation

variable {γ χ : Type} {cfg : Config} {C : MayCache Key Json γ χ} {s s' : State γ} {n i : Nat}

theorem Provenance.finite_drawn {m : Nat → Option Call} {w : World γ} (h : Provenance cfg C m w)
    (hn : ∀ i, n ≤ i → m i = none) : {u | w.drawn u ≠ none}.Finite := by
  refine ((Set.finite_lt_nat n).biUnion fun i _ =>
    (w.hist i).finite_toSet.preimage (f := Act.drew) ?_).subset fun u hu => ?_
  · exact fun u _ v _ huv => Act.drew.inj huv
  · obtain ⟨i, hi⟩ := Option.ne_none_iff_exists'.mp hu
    have hmem := (h.drawn u i).mp hi
    obtain ⟨k, hk, -⟩ := h.lawful_of_mem hmem
    have hlt : i < n := by
      by_contra hge
      rw [hn i (Nat.le_of_not_lt hge)] at hk
      cases hk
    exact Set.mem_biUnion hlt hmem

theorem World.exists_freshId {w : World γ} (hdrawn : {u | w.drawn u ≠ none}.Finite) :
    ∃ u, w.freshId u = true := by
  have husers : {u | ∃ r ∈ w.db.users.rows, r.id = u}.Finite :=
    w.db.users.rows.finite_toSet.image UserModel.id
  obtain ⟨u, hu⟩ := ((hdrawn.union husers).union (Set.finite_singleton "")).exists_notMem
  have hd : w.drawn u = none := by_contra fun hd => hu (.inl (.inl hd))
  have hget : w.db.users.get u = none :=
    Keyed.get_eq_none.mpr fun r hr hid => hu (.inl (.inr ⟨r, hr, hid⟩))
  have hne : u ≠ "" := fun hne => hu (.inr hne)
  exact ⟨u, by simp [World.freshId, hne, hd, hget]⟩

theorem handle_goes_on {β : Type} {c : Choice χ} {w : World γ} {e : Eff β} (ht : w.clock ≤ c.time)
    (hid : w.freshId c.uuid = true)
    (hw : ∀ v r, e.act r = .wrote v → w.blocked i v = false ∨ c.abort = true) :
    ∃ x, handle cfg C i c w e = some x := by
  cases e
  case now => exact ⟨_, if_pos ht⟩
  case uuid4 => exact ⟨_, if_pos hid⟩
  case write v =>
    have hv := hw v (.ok ()) rfl
    simp only [handle]
    split
    · rename_i hb
      have habort : c.abort = true := hv.resolve_left (by simp [hb])
      exact ⟨_, if_pos habort⟩
    · split
      · exact ⟨_, rfl⟩
      · split <;> exact ⟨_, rfl⟩
  all_goals exact ⟨_, rfl⟩

theorem Reachable.holder_unfinished (hr : Reachable cfg C s) {l : Lock} {j : Nat}
    (hl : s.world.locks l = some j) : s.Unfinished j := by
  obtain ⟨v, hv, -⟩ := hr.provenance.locks l j hl
  obtain ⟨ho, hw⟩ := hr.provenance.of_pending hv
  obtain ⟨k, hk, -⟩ := hr.provenance.lawful_of_mem hw
  refine ⟨by rw [hk]; rfl, ?_⟩
  cases ha : s.answer j with
  | none => rfl
  | some r =>
    obtain ⟨h₀, hh, -⟩ := hr.finished hk ha
    exact absurd (by rw [hh]; simp) ho.2

theorem Reachable.goes_on [Nonempty χ] (hr : Reachable cfg C s) (hn : s.Within n)
    (hu : s.Unfinished i) (abort : Bool)
    (hw : ∀ v, nextWrite s i = some v → s.world.blocked i v = false ∨ abort = true) :
    ∃ (c : Choice χ) (s' : State γ), c.abort = abort ∧
      (app cfg C).exec (.step i c) s = some s' := by
  obtain ⟨k, β, e, f, hc⟩ := Sys.unfinished_iff.mp hu
  obtain ⟨u, hid⟩ := World.exists_freshId (hr.provenance.finite_drawn fun i hi => by
    rw [Sys.script, hn i hi]
    rfl)
  let c : Choice χ := { time := s.world.clock, uuid := u, salt := "", rank := fun _ => 0,
                        abort := abort, cache := Classical.arbitrary χ }
  have hgo : ∃ x, handle cfg C i c s.world e = some x := by
    refine handle_goes_on (Int.le_refl _) hid fun v r ha => ?_
    cases e <;> cases r <;> simp only [Eff.act, reduceCtorEq, Act.wrote.injEq] at ha
    exact hw v (nextWrite_eq_some.mpr ⟨k, f, ha ▸ hc⟩)
  obtain ⟨x, hx⟩ := hgo
  have he : (app cfg C).step i c s.world e = some (x.1, x.2.log i (e.act x.1)) := by
    simp only [app, semantics, hx, Option.map_some]
  exact ⟨c, _, rfl, Service.exec_step hc he⟩

theorem waits_of_blocked {v : Write} (hv : nextWrite s i = some v)
    (hb : s.world.blocked i v = true) : ∃ j, WaitsFor s i j := by
  obtain ⟨l, hl, hheld⟩ := List.any_eq_true.mp hb
  simp only [Bool.and_eq_true, ne_eq, decide_eq_true_eq] at hheld
  obtain ⟨j, hj⟩ := Option.ne_none_iff_exists'.mp hheld.1
  exact ⟨j, fun he => hheld.2 (he ▸ hj), v, hv, l, hl, hj⟩

theorem Reachable.goes_on_or_waits [Nonempty χ] (hr : Reachable cfg C s) (hn : s.Within n)
    (hu : s.Unfinished i) : (∃ (c : Choice χ) (s' : State γ), c.abort = false ∧
        (app cfg C).exec (.step i c) s = some s') ∨ ∃ j, s.Unfinished j ∧ WaitsFor s i j := by
  by_cases hb : ∃ v, nextWrite s i = some v ∧ s.world.blocked i v = true
  · obtain ⟨v, hv, hb⟩ := hb
    obtain ⟨j, hw⟩ := waits_of_blocked hv hb
    obtain ⟨-, v, -, l, -, hl⟩ := id hw
    exact .inr ⟨j, hr.holder_unfinished hl, hw⟩
  · refine .inl (hr.goes_on hn hu false fun v hv => .inl ?_)
    exact Bool.eq_false_iff.mpr fun ht => hb ⟨v, hv, ht⟩

/-- Two neighbours of a ring both sweep the sessions of one user. -/
theorem Reachable.ring_sweeps (hr : Reachable cfg C s) (hi : TransGen (WaitsFor s) i i) :
    ∃ u j, WaitsFor s i j ∧ TransGen (WaitsFor s) j i ∧ Sweeping cfg u s i ∧
      Sweeping cfg u s j := by
  have h : ((lockReview γ).contract cfg C).Holds s :=
    (lockReview_sound cfg C).reachable (fun _ => .init) hr
  obtain ⟨p, hip, hpi⟩ := TransGen.tail'_iff.mp hi
  obtain ⟨c, hic, hci⟩ := TransGen.head'_iff.mp hi
  have hip := (reflTransGen_iff_eq_or_transGen.mp hip).resolve_left fun he => hpi.1 he.symm
  have hci := (reflTransGen_iff_eq_or_transGen.mp hci).resolve_left fun he => hic.1 he.symm
  obtain ⟨q, -, -, -, -, l, -, hl⟩ := TransGen.tail'_iff.mp hip
  obtain ⟨d, hcd, -⟩ := TransGen.head'_iff.mp hci
  obtain ⟨x, n, hx, -⟩ := waiting_revokes h hl hpi
  have hsweep := waiting_step h hpi hic hx
  obtain ⟨-, row, new, -, hrow, hu, -⟩ := id hsweep
  exact ⟨x.userId, c, hic, hci, hsweep, hu ▸ waiting_step h hic hcd hrow⟩

theorem Reachable.advances (hr : Reachable cfg C s) {allow : State γ → Nat → Choice χ → Prop}
    (hs : (app cfg C).Advances allow s s') : Reachable cfg C s' := by
  obtain ⟨ds, i, c, s₁, hds, -, hc⟩ := hs
  exact (hr.execs hds).exec hc

/-- Two calls wait for each other in a ring, and sweep the sessions of one and the same user. -/
def Entangled (cfg : Config) (s : State γ) : Prop :=
  ∃ i u j, WaitsFor s i j ∧ TransGen (WaitsFor s) j i ∧ Sweeping cfg u s i ∧ Sweeping cfg u s j

/-- The database aborts nothing but a statement in a deadlock of sweeps. -/
def Breaks (cfg : Config) (s : State γ) (i : Nat) (c : Choice χ) : Prop :=
  c.abort = true → TransGen (WaitsFor s) i i ∧ ∃ u, Sweeping cfg u s i

theorem Reachable.moves [Nonempty χ] (hr : Reachable cfg C s) (hn : s.Within n) :
    s.Settled ∨ (∃ s', (app cfg C).Advances (fun _ _ c => c.abort = false) s s') ∨
      ∃ i, s.Unfinished i ∧ TransGen (WaitsFor s) i i :=
  Service.progress hn fun _ hi => hr.goes_on_or_waits hn hi

/-- Every call is answered, in whatever order the calls go on. If the database never aborts a
statement, only a deadlock of two sweeps of the sessions of one user can prevent it. If it aborts
statements of such deadlocks, and no others, then nothing can. -/
theorem every_call_answered [Nonempty χ] (hr : Reachable cfg C s) :
    Eventually ((app cfg C).Advances fun _ _ c => c.abort = false)
      (fun s' => s'.Settled ∨ Entangled cfg s') s ∧
    Eventually ((app cfg C).Advances (Breaks cfg)) Sys.Settled s := by
  obtain ⟨w, ls, hw, hs⟩ := id hr
  obtain ⟨n, hn⟩ := Service.execs_within (n := 0) (fun _ _ => rfl) hs
  have hkeep : ∀ (allow : State γ → Nat → Choice χ → Prop) s s',
      Reachable cfg C s ∧ s.Within n → (app cfg C).Advances allow s s' →
        Reachable cfg C s' ∧ s'.Within n :=
    fun _ s s' h hs => ⟨h.1.advances hs, hs.within h.2⟩
  constructor
  · refine .of_acc (Service.acc_advances hn) (hkeep _) (fun s h => ?_) ⟨hr, hn⟩
    rcases h.1.moves h.2 with hall | hgo | ⟨i, -, hi⟩
    · exact .inl (.inl hall)
    · exact .inr hgo
    · exact .inl (.inr ⟨i, h.1.ring_sweeps hi⟩)
  · refine .of_acc (Service.acc_advances hn) (hkeep _) (fun s h => ?_) ⟨hr, hn⟩
    rcases h.1.moves h.2 with hall | ⟨s', ds, i, c, s₁, hds, hc, hs⟩ | ⟨i, hu, hi⟩
    · exact .inl hall
    · have hbreak : Breaks cfg s₁ i c := fun ht => by rw [hc] at ht; cases ht
      exact .inr ⟨s', ds, i, c, s₁, hds, hbreak, hs⟩
    · obtain ⟨u, -, -, -, hsweep, -⟩ := h.1.ring_sweeps hi
      obtain ⟨c, s', -, hs⟩ := h.1.goes_on h.2 hu true fun _ _ => .inr rfl
      exact .inr ⟨s', [], i, c, s, rfl, fun _ => ⟨hi, u, hsweep⟩, hs⟩

/-- A login and a request to log Alice out everywhere stand in a deadlock. -/
theorem every_call_answered_crossing : ∃ s : State (TimedStore Key Json),
    sampleApp.execs crossing sampleState = some s ∧ TransGen (WaitsFor s) 6 6 ∧
      Eventually (sampleApp.Advances fun _ _ c => c.abort = false)
        (fun s' => s'.Settled ∨ Entangled sampleConfig s') s ∧
      Eventually (sampleApp.Advances (Breaks sampleConfig)) Sys.Settled s := by
  have hs : sampleApp.execs crossing sampleState =
      some (sampleApp.afterwards crossing sampleState) :=
    sampleApp.execs_afterwards (by decide +kernel)
  have h67 : WaitsFor (sampleApp.afterwards crossing sampleState) 6 7 := by decide +kernel
  have h76 : WaitsFor (sampleApp.afterwards crossing sampleState) 7 6 := by decide +kernel
  exact ⟨_, hs, .tail (.single h67) h76, every_call_answered (sampleState_reachable.execs hs)⟩

end AsyncPulse
