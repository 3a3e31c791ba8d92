import AsyncPulse.Lineage
import AsyncPulse.Solo
set_option autoImplicit false

namespace AsyncPulse
open Effect

variable {γ χ : Type} {cfg : Config} {C : MayCache Key Json γ χ}

/-- Call `i` runs alone from `w₀` and has come to `w`. The tables have only grown, and the
sessions that were revoked before are as they were. -/
structure Solitary (C : MayCache Key Json γ χ) (i : Nat) (w₀ w : World γ) : Prop where
  played : Played C i w₀ w (w.hist i)
  grows : w₀.db.Grows w.db
  frozen : ∀ s x, w₀.db.sessions.get s = some x → x.revokedAt ≠ none →
    w.db.sessions.get s = some x ∧ (w.view i).sessions.get s = some x
  saw : ∀ r, Saw (w.hist i) r → ∃ x, w₀.db.sessions.get r.id = some x ∧ x.core = r.core ∧
    (x.revokedAt ≠ none → r = x)

theorem Vacant.solitary {i : Nat} {w : World γ} (h : Vacant w i) (hh : w.hist i = []) :
    Solitary C i w w where
  played := hh ▸ h.played
  grows := .refl _
  frozen s x hx _ := by
    refine ⟨hx, ?_⟩
    rw [World.view, h.pending]
    exact hx
  saw r hr := by
    obtain ⟨q, rows, hm, -⟩ := hr
    rw [hh] at hm
    cases hm

namespace Solitary

variable {m : Nat → Option Call} {i : Nat} {k : Call} {a : Act} {w₀ w w' : World γ}

theorem not_again (h : Solitary C i w₀ w) {l n : SessionModel} (hr : Revokes cfg k (w.hist i) l n)
    {x : SessionModel} (hx : w₀.db.sessions.get l.id = some x) : x.revokedAt = none := by
  by_contra hrev
  have hsame : ∀ y, Saw (w.hist i) y → y.id = l.id → y = x := by
    intro y hy hid
    obtain ⟨x', hx', -, he⟩ := h.saw y hy
    rw [hid, hx] at hx'
    cases hx'
    exact he hrev
  obtain ⟨t, ht, ⟨-, y, hy, hid, hn⟩ | ⟨y, hy, hid, hyt⟩⟩ := hr.time
  · rw [hsame y hy hid] at hn
    exact hrev hn
  · apply hr.changed
    rw [ht, hsame l hr.saw rfl, ← hsame y hy hid, hyt]

theorem apply_frozen (h : Solitary C i w₀ w) {v : Write} (hv : v.Lawful cfg k (w.hist i))
    {s : String} {x : SessionModel} (hx : w₀.db.sessions.get s = some x) (hrev : x.revokedAt ≠ none) :
    ((w.view i).apply v).sessions.get s = some x := by
  have hview := (h.frozen s x hx hrev).2
  cases v with
  | insertUser r => exact hview
  | updateUser l n => exact hview
  | insertSession r => exact Keyed.get_insert_of_get hview r
  | updateSession l n =>
    have hne : s ≠ l.id := by
      rintro rfl
      exact hrev (h.not_again hv hx)
    rw [Database.apply, Keyed.get_modify, if_neg hne, hview]

theorem moved (h : Solitary C i w₀ w) (hp : Provenance cfg C m w) (hmv : Moved C i a w w')
    (hl : Lawful cfg k (w.hist i ++ [a])) : Solitary C i w₀ w' := by
  have hlaw := (Lawful.snoc_iff.mp hl).2
  have hplay : Played C i w₀ w' (w'.hist i) := by
    rw [hmv.hist, Function.update_self]
    exact h.played.moved hmv
  refine ⟨hplay, h.grows.trans (hp.moved_grows hmv), fun s x hx hrev => ?_, fun r hr => ?_⟩
  · obtain ⟨hdb, hview⟩ := h.frozen s x hx hrev
    have hdb' : w'.db.sessions.get s = some x := by
      rw [hmv.db]
      split
      · exact hview
      · exact hdb
    refine ⟨hdb', ?_⟩
    rw [World.view, hmv.pending, Function.update_self]
    cases a with
    | wrote v =>
      rw [hmv.db, if_neg (by simp), Act.pending, Database.applyAll_append]
      exact h.apply_frozen hlaw.2.2 hx hrev
    | committed => exact hdb'
    | closed => exact hdb'
    | _ =>
      rw [hmv.db, if_neg (by simp)]
      exact hview
  · obtain hr | ⟨-, q, rows, rfl, hr⟩ := hmv.saw.mp hr
    · exact h.saw r hr
    · obtain ⟨rank, rfl⟩ := hmv.read q rows rfl
      have hg := Keyed.get_of_mem (SessionQuery.mem_eval.mp hr).1
      obtain ⟨x, hx, hcore, -⟩ := hp.view_row hlaw.2.1 hg
      rw [h.played.db, ledger_uncommitted hlaw.1.1] at hx
      refine ⟨x, hx, hcore, fun hrev => ?_⟩
      rw [(h.frozen r.id x hx hrev).2] at hg
      exact (Option.some.inj hg).symm

end Solitary

/-- After `n` calls nobody is at work. -/
structure Between (cfg : Config) (C : MayCache Key Json γ χ) (m : Nat → Option Call) (n : Nat)
    (w : World γ) : Prop where
  provenance : Provenance cfg C m w
  unmade : ∀ j, n ≤ j → m j = none
  pending : ∀ j, w.pending j = []
  locks : ∀ l, w.locks l = none

theorem Init.between {w : World γ} (h : Init C w) : Between cfg C (fun _ => none) 0 w :=
  ⟨.init h, fun _ _ => rfl, h.pending, h.locks⟩

/-- Call `n` is the only one from `w` to `w'`. The clock had moved on to `start` before. -/
structure Turn (cfg : Config) (C : MayCache Key Json γ χ) (m : Nat → Option Call) (n : Nat)
    (k : Call) (r : Except Exc Out) (start : Time) (w w' : World γ) : Prop where
  before : Between cfg C m n w
  after : Between cfg C (Function.update m n (some k)) (n + 1) w'
  started : w.clock ≤ start
  alone : Solitary C n (w.setClock start) w'
  others : ∀ j, j ≠ n → w'.hist j = w.hist j
  finished : k.Finished cfg r (w'.hist n)

variable {m : Nat → Option Call} {n : Nat} {k : Call} {r : Except Exc Out} {w w' : World γ}
  {gap : World γ → World γ → Prop}

theorem Between.next (h : Between cfg C m n w) {w₁ : World γ}
    (hprov : Provenance cfg C (Function.update m n (some k)) w')
    (hothers : ∀ j, j ≠ n → w'.hist j = w.hist j) (halone : Solitary C n w₁ w')
    (hpend : w'.pending n = []) : Between cfg C (Function.update m n (some k)) (n + 1) w' := by
  refine ⟨hprov, fun j hj => ?_, fun j => ?_, fun l => ?_⟩
  · rw [Function.update_of_ne (by omega)]
    exact h.unmade j (by omega)
  · by_cases hj : j = n
    · rw [hj, hpend]
    · have hpj := h.provenance.pending j
      rw [h.pending j] at hpj
      rw [hprov.pending j, hothers j hj, ← hpj]
  · cases hl : w'.locks l with
    | none => rfl
    | some j =>
      obtain ⟨v, hv, -⟩ := hprov.locks l j hl
      rw [halone.played.locks l j hl, hpend] at hv
      cases hv

theorem Between.completed (h : Between cfg C m n w)
    (hc : (app cfg C).Completed gap n k r w w') :
    ∃ start, gap w (w.setClock start) ∧ Turn cfg C m n k r start w w' := by
  obtain ⟨c, w₁, cs, ht, hgap, ha, hr⟩ := hc
  obtain ⟨hclock, rfl⟩ := app_tick ht
  have hnone := h.unmade n (Nat.le_refl n)
  have hnil : w.hist n = [] := h.provenance.idle n hnone
  have hprov := (h.provenance.tick hclock).call hnone ha
  have hprog : (audit cfg C).wp (Lawful cfg k) ((app cfg C).prog k) (k.Finished cfg)
      ((w.setClock c.time).hist n) := by
    rw [World.setClock_hist, hnil]
    exact (audit_kept.prog k).2
  have hvacant : Vacant (w.setClock c.time) n := ⟨h.pending n, h.locks⟩
  obtain ⟨hprov', hfin, hothers, halone⟩ := audit_kept.run
    (J := Solitary C n (w.setClock c.time))
    (fun e c s r s' hinv hs he hl => hs.moved hinv (semantics_step he).1 hl)
    (by simp) hprov (hvacant.solitary hnil) hprog hr
  have hpend : w'.pending n = [] := by
    obtain ⟨l, hl, -⟩ := hfin
    change w'.hist n = l ++ [Act.closed] at hl
    rw [halone.played.pending, hl, ledger_closed]
  exact ⟨c.time, hgap, h, h.next hprov' hothers halone hpend, hclock, halone, hothers, hfin⟩

def Write.onSessions : Write → Bool
  | .insertSession _ | .updateSession _ _ => true
  | _ => false

theorem Database.applyAll_sessions {d : Database} {ws : List Write}
    (hws : ∀ v ∈ ws, v.onSessions = false) : (d.applyAll ws).sessions = d.sessions := by
  induction ws generalizing d with
  | nil => rfl
  | cons v ws ih =>
    rw [Database.applyAll_cons, ih fun v hv => hws v (by simp [hv])]
    have hv := hws v (by simp)
    cases v with
    | insertSession _ => cases hv
    | updateSession _ _ => cases hv
    | _ => rfl

theorem mem_ledger {h : List Act} {v : Write} (hv : v ∈ (ledger h).1 ++ (ledger h).2) :
    .wrote v ∈ h := by
  induction h using List.reverseRecOn with
  | nil => simp at hv
  | append_singleton h a ih =>
    rw [ledger_snoc] at hv
    by_cases ha : ∃ x, a = .wrote x
    · obtain ⟨x, rfl⟩ := ha
      simp only [reduceCtorEq, if_false, Act.pending, List.mem_append, List.mem_singleton] at hv
      obtain hv | hv | rfl := hv
      · exact List.mem_append_left _ (ih (by simp [hv]))
      · exact List.mem_append_left _ (ih (by simp [hv]))
      · simp
    · refine List.mem_append_left _ (ih ?_)
      cases a <;> simp_all [Act.pending]

theorem mem_ledger_committed {h : List Act} {v : Write} (hv : v ∈ (ledger h).1) :
    .wrote v ∈ h ∧ .committed ∈ h := by
  refine ⟨mem_ledger (List.mem_append_left _ hv), ?_⟩
  by_contra hc
  rw [ledger_uncommitted hc] at hv
  cases hv

theorem seen_sessions {d : Database} {h : List Act}
    (hh : ∀ v, .wrote v ∈ h → v.onSessions = false) : (seen d h).sessions = d.sessions :=
  Database.applyAll_sessions fun v hv => hh v (mem_ledger hv)

theorem seen_unwritten {d : Database} {h : List Act} (hh : ∀ v, .wrote v ∉ h) : seen d h = d := by
  have hnil : (ledger h).1 ++ (ledger h).2 = [] :=
    List.eq_nil_iff_forall_not_mem.mpr fun v hv => hh v (mem_ledger hv)
  rw [seen, hnil]
  rfl

namespace Turn

variable {start : Time} (h : Turn cfg C m n k r start w w')
include h

theorem lawful : Lawful cfg k (w'.hist n) := h.after.provenance.lawful n k (by simp)

theorem grows : w.db.Grows w'.db := h.alone.grows

theorem clock_le : w.clock ≤ w'.clock := Int.le_trans h.started h.alone.played.started

theorem old {j : Nat} {a : Act} (ha : a ∈ w.hist j) : a ∈ w'.hist j := by
  have hne : j ≠ n := by
    rintro rfl
    rw [h.before.provenance.idle j (h.before.unmade j (Nat.le_refl j))] at ha
    cases ha
  rw [h.others j hne]
  exact ha

theorem drawn {u : String} {j : Nat} (hd : w.drawn u = some j) : w'.drawn u = some j :=
  (h.after.provenance.drawn u j).mpr (h.old ((h.before.provenance.drawn u j).mp hd))

theorem undrawn {u : String} (hd : .drew u ∈ w'.hist n) : w.drawn u = none := by
  cases hu : w.drawn u with
  | none => rfl
  | some j =>
    have hj := h.drawn hu
    rw [(h.after.provenance.drawn u n).mpr hd] at hj
    cases hj
    have hm := (h.before.provenance.drawn u n).mp hu
    rw [h.before.provenance.idle n (h.before.unmade n (Nat.le_refl n))] at hm
    cases hm

theorem undrawn_of_inserted {y : SessionModel} (hy : .wrote (.insertSession y) ∈ w'.hist n) :
    w.drawn y.id = none :=
  h.undrawn ((h.after.provenance.drawn _ _).mp (h.after.provenance.drawn_of_inserted hy))

theorem inserts_new {y : SessionModel} (hy : .wrote (.insertSession y) ∈ w'.hist n) {s : String}
    {j : Nat} (hs : w.drawn s = some j) : y.id ≠ s := by
  intro hid
  rw [← hid, h.undrawn_of_inserted hy] at hs
  cases hs

theorem inserted {s : String} {x : SessionModel} (hs : w.db.sessions.get s = none)
    (hx : w'.db.sessions.get s = some x) :
    ∃ y, .wrote (.insertSession y) ∈ w'.hist n ∧ .committed ∈ w'.hist n ∧ y.id = s ∧
      x.core = y.core := by
  obtain ⟨i, y, hw, hc, hid, hcore⟩ := h.after.provenance.row s x hx
  by_cases hi : i = n
  · exact ⟨y, hi ▸ hw, hi ▸ hc, hid, hcore⟩
  · rw [h.others i hi] at hw hc
    obtain ⟨z, hz, -⟩ := h.before.provenance.took i _ hw hc
    rw [hid, hs] at hz
    cases hz

theorem revoked {s : String} {x y : SessionModel} (hx : w.db.sessions.get s = some x)
    (hlive : x.revokedAt = none) (hy : w'.db.sessions.get s = some y) {t : Time}
    (ht : y.revokedAt = some t) :
    ∃ a b, .wrote (.updateSession a b) ∈ w'.hist n ∧ .committed ∈ w'.hist n ∧ a.id = s ∧
      b.revokedAt = some t := by
  obtain ⟨i, a, b, hw, hc, hid, hbt⟩ := h.after.provenance.revoked s y t hy ht
  by_cases hi : i = n
  · exact ⟨a, b, hi ▸ hw, hi ▸ hc, hid, hbt⟩
  · rw [h.others i hi] at hw hc
    obtain ⟨z, hz, hrev⟩ := h.before.provenance.took i _ hw hc
    rw [hid, hx] at hz
    cases hz
    exact absurd hlive hrev

theorem frozen {s : String} {x : SessionModel} (hx : w.db.sessions.get s = some x)
    (hrev : x.revokedAt ≠ none) : w'.db.sessions.get s = some x :=
  (h.alone.frozen s x hx hrev).1

/-- Whatever the call reads of a session that was revoked before, it reads the row as it was. -/
theorem saw_frozen {s : String} {x y : SessionModel} (hx : w.db.sessions.get s = some x)
    (hrev : x.revokedAt ≠ none) (hy : Saw (w'.hist n) y) (hid : y.id = s) : y = x := by
  obtain ⟨z, hz, -, hsame⟩ := h.alone.saw y hy
  rw [hid, World.setClock_db, hx] at hz
  cases hz
  exact hsame hrev

theorem read {l₁ l₂ : List Act} {q : SessionQuery} {rows : List SessionModel}
    (hl : w'.hist n = l₁ ++ l₂) (hr : .readSessions q rows ∈ l₁) (hw : ∀ v, .wrote v ∉ l₁) :
    ∃ rank, rows = q.eval rank w.db.sessions := by
  obtain ⟨l₃, l₄, rfl⟩ := List.append_of_mem hr
  obtain ⟨rank, hrows⟩ := h.alone.played.read l₃ (l₄ ++ l₂) q rows (by rw [hl]; simp)
  rw [seen_unwritten fun v hv => hw v (List.mem_append_left _ hv)] at hrows
  exact ⟨rank, hrows⟩

theorem readUsers {l₁ l₂ : List Act} {q : UserQuery} {rows : List UserModel}
    (hl : w'.hist n = l₁ ++ l₂) (hr : .readUsers q rows ∈ l₁) (hw : ∀ v, .wrote v ∉ l₁) :
    ∃ rank, rows = q.eval rank w.db.users := by
  obtain ⟨l₃, l₄, rfl⟩ := List.append_of_mem hr
  obtain ⟨rank, hrows⟩ := h.alone.played.readUsers l₃ (l₄ ++ l₂) q rows (by rw [hl]; simp)
  rw [seen_unwritten fun v hv => hw v (List.mem_append_left _ hv)] at hrows
  exact ⟨rank, hrows⟩

theorem found {u : String} {rows : List SessionModel}
    (hm : .readSessions (.unrevokedOf u) rows ∈ w'.hist n) {x : SessionModel}
    (hx : x ∈ w.db.sessions.rows) (hu : x.userId = u) (hlive : x.revokedAt = none) : x ∈ rows := by
  obtain ⟨l₁, l₂, hl, -, hi, -, hmass⟩ := h.lawful.of_mem hm
  obtain ⟨rank, rfl⟩ := h.alone.played.read l₁ l₂ _ _ hl
  have hsess : ∀ v, .wrote v ∈ l₁ → v.onSessions = false := by
    intro v hv
    cases v with
    | insertSession y => exact absurd hv (hi y)
    | updateSession a b => exact absurd hv ((hmass u rfl).2 a b)
    | _ => rfl
  rw [SessionQuery.mem_eval, seen_sessions hsess]
  exact ⟨hx, by simp [SessionQuery.selects, hu, hlive]⟩

theorem found_active {u : String} {t : Time} {rows active : List SessionModel}
    (hm : .readSessions (.unrevokedOf u) rows ∈ w'.hist n)
    (hact : .readSessions (.activeOf u t) active ∈ w'.hist n) {x : SessionModel}
    (hx : x ∈ w.db.sessions.rows) (hu : x.userId = u) (hlive : x.revokedAt = none) :
    x ∈ active ∨ x.expiresAt ≤ t := by
  obtain ⟨l₁, l₂, hl, -, -, hfirst, -⟩ := h.lawful.of_mem hact
  obtain ⟨rank, rfl⟩ := h.alone.played.read l₁ l₂ _ _ hl
  -- The active sessions are read first, before anything is written.
  have hlater : .readSessions (.unrevokedOf u) rows ∈ l₂ := by
    rw [hl] at hm
    simpa [(hfirst u t rfl).2 u rows] using hm
  obtain ⟨l₃, l₄, rfl⟩ := List.append_of_mem hlater
  have hlaw := h.lawful
  rw [hl, ← List.cons_append, ← List.append_assoc] at hlaw
  obtain ⟨-, hi, -, hmass⟩ := hlaw.of_split
  have hsess : ∀ v, .wrote v ∈ l₁ → v.onSessions = false := by
    intro v hv
    cases v with
    | insertSession y => exact absurd (List.mem_append_left _ hv) (hi y)
    | updateSession a b => exact absurd (List.mem_append_left _ hv) ((hmass u rfl).2 a b)
    | _ => rfl
  by_cases ht : t < x.expiresAt
  · refine .inl ?_
    rw [SessionQuery.mem_eval, seen_sessions hsess]
    exact ⟨hx, by simp [SessionQuery.selects, hu, hlive, ht]⟩
  · exact .inr (Int.not_lt.mp ht)

/-- The entry of a session that the call revokes is deleted, unless the session has expired. -/
theorem purged {a b : SessionModel} (hw : .wrote (.updateSession a b) ∈ w'.hist n)
    (hc : .committed ∈ w'.hist n) {x : SessionModel} (hx : w.db.sessions.get a.id = some x) :
    .cacheDeleted (.session a.id) ∈ w'.hist n ∨ x.expiresAt ≤ w'.clock := by
  obtain ⟨l, hl, htidy, -⟩ := h.finished
  have hmem : ∀ c, c ≠ .closed → (c ∈ w'.hist n ↔ c ∈ l) := by
    intro c hne
    rw [hl]
    simp [hne]
  rw [hmem _ (by simp)] at hw hc
  rw [hmem _ (by simp)]
  obtain hdel | ⟨t, active, rows, hact, hm, ha, hnot⟩ := htidy.sessions hc a b hw
  · exact .inl hdel
  · rw [← hmem _ (by simp)] at hact hm
    obtain ⟨y, hy, hcore, hsame⟩ := h.alone.saw a ⟨_, rows, hm, ha⟩
    rw [World.setClock_db, hx] at hy
    cases hy
    obtain ⟨l₁, l₂, hl', -⟩ := h.lawful.of_mem hm
    obtain ⟨rank, rfl⟩ := h.alone.played.read l₁ l₂ _ _ hl'
    have hlive : x.revokedAt = none := by
      by_contra hrev
      have hsel := (SessionQuery.mem_eval.mp ha).2
      rw [hsame hrev] at hsel
      simp [SessionQuery.selects, hrev] at hsel
    have hu : x.userId = a.userId := SessionModel.core_userId hcore
    obtain hin | hexp := h.found_active hm hact (Keyed.mem_of_get hx) hu hlive
    · exact absurd (Keyed.key_of_get hx) (hnot x hin)
    · obtain ⟨l₃, l₄, hl₃, -, -, hclock, -⟩ := h.lawful.of_mem hact
      have ht : .clock t ∈ w'.hist n := by
        rw [hl₃]
        exact List.mem_append_left _ (hclock a.userId t rfl).1
      exact .inr (Int.le_trans hexp (h.alone.played.clock t ht).2)

end Turn

def Later (w₀ w₁ : World γ) : Prop := w₀.clock < w₁.clock

instance : DecidableRel (@Later γ) := fun w₀ w₁ =>
  inferInstanceAs (Decidable (w₀.clock < w₁.clock))

def script (log : List (Call × Except Exc Out)) (j : Nat) : Option Call := (log[j]?).map Prod.fst

theorem script_snoc (log : List (Call × Except Exc Out)) (k : Call) (r : Except Exc Out) :
    script (log ++ [(k, r)]) = Function.update (script log) log.length (some k) := by
  funext j
  unfold script
  by_cases hj : j = log.length
  · subst hj
    simp
  · rw [Function.update_of_ne hj, List.getElem?_append]
    split
    · rfl
    · have h₁ : log[j]? = none := List.getElem?_eq_none (by omega)
      have h₂ : [(k, r)][j - log.length]? = none := by
        apply List.getElem?_eq_none
        rw [List.length_singleton]
        omega
      rw [h₁, h₂]

def Sequential (cfg : Config) (C : MayCache Key Json γ χ) (gap : World γ → World γ → Prop)
    (log : List (Call × Except Exc Out)) (w : World γ) : Prop :=
  ∃ w₀, Init C w₀ ∧ (app cfg C).Seq gap 0 w₀ log log.length w

/-- What every call preserves holds at the end of a run. -/
theorem Between.seq {I : World γ → Prop}
    (hturn : ∀ m n k r start w w', gap w (w.setClock start) → Turn cfg C m n k r start w w' →
      I w → I w')
    {n' : Nat} {log : List (Call × Except Exc Out)} (h : Between cfg C m n w) (hI : I w)
    (hs : (app cfg C).Seq gap n w log n' w') : ∃ m', Between cfg C m' n' w' ∧ I w' := by
  apply hs.invariant (P := fun n w => ∃ m, Between cfg C m n w ∧ I w) ?_ ⟨m, h, hI⟩
  intro n k r s s' hs hc
  obtain ⟨m, hb, hI⟩ := hs
  obtain ⟨start, hgap, ht⟩ := hb.completed hc
  exact ⟨_, ht.after, hturn m n k r start s s' hgap ht hI⟩

namespace Sequential

variable {log log' : List (Call × Except Exc Out)}

theorem invariant {I : World γ → Prop} (hinit : ∀ w, Init C w → I w)
    (hturn : ∀ m n k r start w w', gap w (w.setClock start) → Turn cfg C m n k r start w w' →
      I w → I w')
    (h : Sequential cfg C gap log w) : Between cfg C (script log) log.length w ∧ I w := by
  obtain ⟨w₀, hw₀, hs⟩ := h
  suffices H : ∀ {m w₀ log w}, (app cfg C).Seq gap 0 w₀ log m w → Init C w₀ →
      m = log.length ∧ Between cfg C (script log) m w ∧ I w from (H hs hw₀).2
  intro m w₀ log w hs hw₀
  induction hs with
  | nil w => exact ⟨rfl, hw₀.between, hinit w hw₀⟩
  | @snoc m w₀ w₁ w₂ log k r _ hc ih =>
    obtain ⟨rfl, hb, hI⟩ := ih hw₀
    obtain ⟨start, hgap, ht⟩ := hb.completed hc
    rw [script_snoc, List.length_append]
    exact ⟨rfl, ht.after, hturn _ _ k r start w₁ w₂ hgap ht hI⟩

theorem between (h : Sequential cfg C gap log w) :
    Between cfg C (script log) log.length w :=
  (h.invariant (I := fun _ => True) (fun _ _ => trivial)
    (fun _ _ _ _ _ _ _ _ _ _ => trivial)).1

theorem append {n : Nat} (h : Sequential cfg C gap log w)
    (hs : (app cfg C).Seq gap log.length w log' n w') : Sequential cfg C gap (log ++ log') w' := by
  obtain ⟨w₀, hw₀, h₀⟩ := h
  refine ⟨w₀, hw₀, ?_⟩
  have hn : n = log.length + log'.length := hs.length
  rw [List.length_append, ← hn]
  exact h₀.append hs

theorem completed (h : Sequential cfg C gap log w)
    (hc : (app cfg C).Completed gap log.length k r w w') :
    Sequential cfg C gap (log ++ [(k, r)]) w' :=
  h.append (.snoc (.nil _ _) hc)

end Sequential

theorem sequential_of_replay {w₀ : World γ} (hinit : Init C w₀)
    {calls : List (Choice χ × Call × List (Choice χ))} {log : List (Call × Except Exc Out)}
    (h : (app cfg C).replay Later calls 0 w₀ = some (log, w)) :
    Sequential cfg C Later log w ∧ calls.length = log.length := by
  have hseq := Service.replay_seq h
  have hlen : calls.length = log.length := by
    have := hseq.length
    omega
  rw [Nat.zero_add, hlen] at hseq
  exact ⟨⟨w₀, hinit, hseq⟩, hlen⟩

theorem replayed {w₀ : World γ} (hinit : Init C w₀)
    (calls : List (Choice χ × Call × List (Choice χ))) (c : Choice χ) (k : Call)
    (cs : List (Choice χ)) (P : Except Exc Out → World γ → Bool)
    (h : ((app cfg C).replay Later (calls ++ [(c, k, cs)]) 0 w₀).any
      (fun y => y.1.getLast?.any fun z => P z.2 y.2) = true) :
    ∃ log w r w', (app cfg C).replay Later calls 0 w₀ = some (log, w) ∧
      Sequential cfg C Later log w ∧
      (app cfg C).Completed (fun w₁ w₂ => Later w₁ w₂ ∧ w₂.clock = c.time) log.length k r w w' ∧
      P r w' = true := by
  obtain ⟨⟨log, w'⟩, hr, hP⟩ := (Option.any_eq_true _ _).mp h
  obtain ⟨log₀, w, r, h₀, rfl, hc⟩ := Service.replay_snoc hr
  obtain ⟨hrun, hlen⟩ := sequential_of_replay hinit h₀
  rw [Nat.zero_add, hlen] at hc
  refine ⟨log₀, w, r, w', h₀, hrun, hc.mono fun w₁ w₂ hg => ⟨hg.1, ?_⟩, by simpa using hP⟩
  rw [(app_tick hg.2).2]
  rfl

def request (t : Int) (u : String) (k : Call) : Choice Unit × Call × List (Choice Unit) :=
  (moment t u, k, List.replicate 40 (moment t u))

def rehearsal (calls : List (Choice Unit × Call × List (Choice Unit))) :
    Option (List (Call × Except Exc Out) × World (TimedStore Key Json)) :=
  sampleApp.replay Later calls 0 sampleWorld

theorem sequential_of_rehearsal {calls : List (Choice Unit × Call × List (Choice Unit))}
    {log : List (Call × Except Exc Out)} {w : World (TimedStore Key Json)}
    (h : rehearsal calls = some (log, w)) :
    Sequential sampleConfig TimedStore.reliable Later log w ∧ calls.length = log.length :=
  sequential_of_replay sampleWorld_init h

theorem rehearsed (calls : List (Choice Unit × Call × List (Choice Unit))) (t : Int) (u : String)
    (k : Call) (P : Except Exc Out → World (TimedStore Key Json) → Bool)
    (h : (rehearsal (calls ++ [request t u k])).any
      (fun y => y.1.getLast?.any fun z => P z.2 y.2) = true) :
    ∃ log₀ w₀ r w, rehearsal calls = some (log₀, w₀) ∧
      Sequential sampleConfig TimedStore.reliable Later log₀ w₀ ∧
      sampleApp.Completed (fun w₁ w₂ => Later w₁ w₂ ∧ w₂.clock = seconds t) log₀.length k r w₀ w ∧
      P r w = true :=
  replayed sampleWorld_init calls (moment t u) k _ P h

end AsyncPulse
