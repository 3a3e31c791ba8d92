import AsyncPulse.Audit
set_option autoImplicit false

namespace AsyncPulse
open Effect

/-- The statements that a record has committed, and those that are still pending. -/
def ledger (h : List Act) : List Write × List Write :=
  h.foldl (fun l a => (if a = .committed then l.1 ++ l.2 else l.1, a.pending l.2)) ([], [])

@[simp] theorem ledger_nil : ledger [] = ([], []) := rfl

theorem ledger_snoc (h : List Act) (a : Act) : ledger (h ++ [a]) =
    (if a = .committed then (ledger h).1 ++ (ledger h).2 else (ledger h).1,
      a.pending (ledger h).2) := by
  simp [ledger]

def seen (d : Database) (h : List Act) : Database := d.applyAll ((ledger h).1 ++ (ledger h).2)

@[simp] theorem seen_nil (d : Database) : seen d [] = d := rfl

def Act.still : Act → Bool
  | .wrote _ | .committed | .closed => false
  | _ => true

theorem ledger_still {h l : List Act} (hl : ∀ a ∈ l, a.still = true) :
    ledger (h ++ l) = ledger h := by
  induction l using List.reverseRecOn with
  | nil => rw [List.append_nil]
  | append_singleton l a ih =>
    have ha : a.still = true := hl a (by simp)
    have hl' : ∀ b ∈ l, b.still = true := fun b hb => hl b (by simp [hb])
    rw [← List.append_assoc, ledger_snoc, ih hl']
    cases a <;> first | rfl | cases ha

theorem seen_still {d : Database} {h l : List Act} (hl : ∀ a ∈ l, a.still = true) :
    seen d (h ++ l) = seen d h := by
  rw [seen, ledger_still hl, seen]

theorem ledger_wrote (h : List Act) (v : Write) :
    ledger (h ++ [Act.wrote v]) = ((ledger h).1, (ledger h).2 ++ [v]) := ledger_snoc h _

theorem seen_wrote (d : Database) (h : List Act) (v : Write) :
    seen d (h ++ [Act.wrote v]) = (seen d h).apply v := by
  rw [seen, ledger_wrote, ← List.append_assoc, Database.applyAll_append, seen]
  rfl

theorem ledger_committed (h : List Act) :
    ledger (h ++ [Act.committed]) = ((ledger h).1 ++ (ledger h).2, []) := ledger_snoc h _

theorem ledger_closed (h : List Act) : ledger (h ++ [Act.closed]) = ((ledger h).1, []) :=
  ledger_snoc h _

theorem ledger_uncommitted {h : List Act} (hc : .committed ∉ h) : (ledger h).1 = [] := by
  induction h using List.reverseRecOn with
  | nil => rfl
  | append_singleton h a ih =>
    obtain ⟨hh, ha⟩ : .committed ∉ h ∧ a ≠ .committed := by simpa [eq_comm] using hc
    rw [ledger_snoc, if_neg ha]
    exact ih hh

def Guarded (I : Database → Prop) (d : Database) (h : List Act) : Prop :=
  I (d.applyAll (ledger h).1) ∧ I (seen d h)

theorem Guarded.snoc {I : Database → Prop} {d : Database} {h : List Act} (hg : Guarded I d h)
    {a : Act} (ha : ∀ v, a = .wrote v → I ((seen d h).apply v)) : Guarded I d (h ++ [a]) := by
  have hstill : a.still = true → Guarded I d (h ++ [a]) := by
    intro hs
    have hl : ∀ b ∈ [a], b.still = true := by simp [hs]
    unfold Guarded
    rw [seen_still hl, ledger_still hl]
    exact hg
  cases a with
  | wrote v =>
    unfold Guarded
    rw [seen_wrote, ledger_wrote]
    exact ⟨hg.1, ha v rfl⟩
  | committed =>
    unfold Guarded seen
    rw [ledger_committed, List.append_nil]
    exact ⟨hg.2, hg.2⟩
  | closed =>
    unfold Guarded seen
    rw [ledger_closed, List.append_nil]
    exact ⟨hg.1, hg.1⟩
  | _ => exact hstill rfl

def Write.Refusal (v : Write) (d : Database) (x : Exc) : Prop :=
  x = .integrityError ∧ d.admits v = false ∨
    x = .dataError ∧ d.admits v = true ∧ v.fits = false

/-- What the effects of a call answer that runs alone, from the tables `d` and the time `t₀`. -/
def Given (cfg : Config) (d : Database) (t₀ : Time) (h : List Act) :
    {β : Type} → Eff β → Except Exc β → Prop
  | _, .now, r => ∃ t, r = .ok t ∧ t₀ ≤ t ∧ ∀ t', .clock t' ∈ h → t' ≤ t
  | _, .uuid4, r => ∃ u, r = .ok u ∧ d.users.get u = none
  | _, .encode c, r => r = .ok (cfg.jose.encode c)
  | _, .hashpw pw, r => ∃ salt, r = cfg.hashpw salt pw
  | _, .selectSessions q, r => ∃ rank, r = .ok (q.eval rank (seen d h).sessions)
  | _, .selectUsers q, r => ∃ rank, r = .ok (q.eval rank (seen d h).users)
  | _, .countUsers, r => ∃ n, r = .ok n
  | _, .write v, r =>
    if (seen d h).admits v = true ∧ v.fits = true then r = .ok ()
    else r = .error (if (seen d h).admits v = true then .dataError else .integrityError)
  | _, .commit, r => r = .ok ()
  | _, .close, r => r = .ok ()
  | _, .cacheGet _, r => ∃ v, r = .ok v
  | _, .cacheSet _ _ _, r => r = .ok ()
  | _, .cacheDelete _, r => r = .ok ()

theorem Given.admitted {cfg : Config} {d : Database} {t₀ : Time} {h : List Act} {β : Type}
    {e : Eff β} {r : Except Exc β} (hr : Given cfg d t₀ h e r) {v : Write}
    (hv : e.act r = .wrote v) : (seen d h).admits v = true := by
  cases e with
  | write v' =>
    change if (seen d h).admits v' = true ∧ v'.fits = true then r = .ok ()
      else r = .error (if (seen d h).admits v' = true then .dataError else .integrityError) at hr
    split at hr
    · rename_i ha
      subst hr
      cases hv
      exact ha.1
    · subst hr
      cases hv
  | _ => cases r <;> cases hv

def solo (cfg : Config) (d : Database) (t₀ : Time) : Trace Eff Exc Act where
  event := Eff.act
  valid h e r := Given cfg d t₀ h e r

variable {γ χ α β : Type} {cfg : Config} {C : MayCache Key Json γ χ} {i : Nat} {w w₀ w' : World γ}

theorem World.not_blocked (hl : ∀ x j, w.locks x = some j → j = i) (v : Write) :
    w.blocked i v = false := by
  unfold World.blocked
  rw [List.any_eq_false]
  intro x _ hx
  cases hlx : w.locks x with
  | none => simp [hlx] at hx
  | some j => simp [hlx, hl x j hlx] at hx

theorem Moved.own_locks {a : Act} (hmv : Moved C i a w w')
    (hl : ∀ x j, w.locks x = some j → j = i) {x : Lock} {j : Nat} (hx : w'.locks x = some j) :
    j = i := by
  rw [hmv.locks] at hx
  cases a with
  | wrote v =>
    simp only [Act.lock] at hx
    split at hx
    · exact (Option.some.inj hx).symm
    · exact hl x j hx
  | committed =>
    simp only [Act.lock] at hx
    split at hx
    · cases hx
    · exact hl x j hx
  | closed =>
    simp only [Act.lock] at hx
    split at hx
    · cases hx
    · exact hl x j hx
  | _ => exact hl x j hx

/-- Call `i` starts, and nobody is at work. -/
structure Vacant (w : World γ) (i : Nat) : Prop where
  pending : w.pending i = []
  locks : ∀ l, w.locks l = none

/-- Call `i` has run alone from `w₀` to `w`, and `l` is what it has left on record. -/
structure Played (C : MayCache Key Json γ χ) (i : Nat) (w₀ w : World γ) (l : List Act) : Prop where
  hist : w.hist i = w₀.hist i ++ l
  db : w.db = w₀.db.applyAll (ledger l).1
  pending : w.pending i = (ledger l).2
  locks : ∀ x j, w.locks x = some j → j = i
  started : w₀.clock ≤ w.clock
  clock : ∀ t, .clock t ∈ l → w₀.clock ≤ t ∧ t ≤ w.clock
  ordered : ∀ l₁ l₂ t, l = l₁ ++ .clock t :: l₂ → ∀ t', .clock t' ∈ l₁ → t' ≤ t
  read : ∀ l₁ l₂ q rows, l = l₁ ++ .readSessions q rows :: l₂ →
    ∃ rank, rows = q.eval rank (seen w₀.db l₁).sessions
  readUsers : ∀ l₁ l₂ q rows, l = l₁ ++ .readUsers q rows :: l₂ →
    ∃ rank, rows = q.eval rank (seen w₀.db l₁).users
  refused : ∀ l₁ l₂ v, l = l₁ ++ .refused v :: l₂ →
    (seen w₀.db l₁).admits v = false ∨ v.fits = false
  got : ∀ l₁ l₂ key v, l = l₁ ++ .cacheGot key (some v) :: l₂ →
    C.holds w₀.cache key v ∨ ∃ ttl, .cacheSet key v ttl ∈ l₁
  holds : ∀ key v, C.holds w.cache key v →
    C.holds w₀.cache key v ∧ (C.Exact → .cacheDeleted key ∉ l) ∨
      ∃ ttl l₁ l₂, l = l₁ ++ .cacheSet key v ttl :: l₂ ∧ (C.Exact → .cacheDeleted key ∉ l₂)

theorem Vacant.played (h : Vacant w i) : Played C i w w [] where
  hist := by simp
  db := rfl
  pending := h.pending
  locks x j hx := by
    rw [h.locks x] at hx
    cases hx
  started := Int.le_refl _
  clock t ht := by cases ht
  ordered l₁ l₂ t hl := by simp at hl
  read l₁ l₂ q rows hl := by simp at hl
  readUsers l₁ l₂ q rows hl := by simp at hl
  refused l₁ l₂ v hl := by simp at hl
  got l₁ l₂ key v hl := by simp at hl
  holds key v hv := .inl ⟨hv, fun _ => by simp⟩

namespace Played

variable {l : List Act}

theorem view (h : Played C i w₀ w l) : w.view i = seen w₀.db l := by
  rw [World.view, h.db, h.pending, seen, Database.applyAll_append]

theorem not_blocked (h : Played C i w₀ w l) (v : Write) : w.blocked i v = false :=
  World.not_blocked h.locks v

theorem split_snoc {a b : Act} {l₁ l₂ : List Act} (hl : l ++ [a] = l₁ ++ b :: l₂) :
    l = l₁ ∧ a = b ∨ ∃ l₃, l = l₁ ++ b :: l₃ := by
  induction l₂ using List.reverseRecOn with
  | nil =>
    obtain ⟨h₁, h₂⟩ := List.append_inj' hl rfl
    exact .inl ⟨h₁, (List.cons.inj h₂).1⟩
  | append_singleton l₃ c _ =>
    rw [← List.cons_append, ← List.append_assoc] at hl
    exact .inr ⟨l₃, (List.append_inj' hl rfl).1⟩

theorem moved (h : Played C i w₀ w l) {a : Act} (hmv : Moved C i a w w') :
    Played C i w₀ w' (l ++ [a]) where
  hist := by rw [hmv.hist, Function.update_self, h.hist, List.append_assoc]
  db := by
    rw [hmv.db, ledger_snoc, h.view, h.db, seen]
    split <;> rfl
  pending := by rw [hmv.pending, Function.update_self, ledger_snoc, h.pending]
  locks _ _ hx := hmv.own_locks h.locks hx
  started := Int.le_trans h.started hmv.clock
  clock t ht := by
    cases List.mem_append.mp ht with
    | inl ht => exact ⟨(h.clock t ht).1, Int.le_trans (h.clock t ht).2 hmv.clock⟩
    | inr ht =>
      have hnow := hmv.now t (List.mem_singleton.mp ht).symm
      exact ⟨hnow ▸ Int.le_trans h.started hmv.clock, Int.le_of_eq hnow.symm⟩
  ordered l₁ l₂ t hl t' ht' := by
    obtain ⟨rfl, rfl⟩ | ⟨l₃, hl⟩ := split_snoc hl
    · rw [← hmv.now t rfl]
      exact Int.le_trans (h.clock t' ht').2 hmv.clock
    · exact h.ordered l₁ l₃ t hl t' ht'
  read l₁ l₂ q rows hl := by
    obtain ⟨rfl, rfl⟩ | ⟨l₃, hl⟩ := split_snoc hl
    · exact h.view ▸ hmv.read q rows rfl
    · exact h.read l₁ l₃ q rows hl
  readUsers l₁ l₂ q rows hl := by
    obtain ⟨rfl, rfl⟩ | ⟨l₃, hl⟩ := split_snoc hl
    · exact h.view ▸ hmv.readUsers q rows rfl
    · exact h.readUsers l₁ l₃ q rows hl
  refused l₁ l₂ v hl := by
    obtain ⟨rfl, rfl⟩ | ⟨l₃, hl⟩ := split_snoc hl
    · cases hmv.refused v rfl with
      | inl hb =>
        rw [h.not_blocked v] at hb
        cases hb
      | inr hv => exact h.view ▸ hv
    · exact h.refused l₁ l₃ v hl
  got l₁ l₂ key v hl := by
    obtain ⟨rfl, rfl⟩ | ⟨l₃, hl⟩ := split_snoc hl
    · obtain ⟨hold, -⟩ | ⟨ttl, l₁, l₂, rfl, -⟩ := h.holds key v (hmv.got key v rfl)
      · exact .inl hold
      · exact .inr ⟨ttl, by simp⟩
    · exact h.got l₁ l₃ key v hl
  holds key v hv := by
    obtain ⟨hv, hne⟩ | ⟨ttl, rfl⟩ := hmv.holds key v hv
    · have hsnoc : ∀ l, (C.Exact → .cacheDeleted key ∉ l) →
          C.Exact → .cacheDeleted key ∉ l ++ [a] := by
        intro l hdel hC hm
        cases List.mem_append.mp hm with
        | inl hm => exact hdel hC hm
        | inr hm => exact hne hC (List.mem_singleton.mp hm).symm
      obtain ⟨hold, hdel⟩ | ⟨ttl, l₁, l₂, rfl, hdel⟩ := h.holds key v hv
      · exact .inl ⟨hold, hsnoc l hdel⟩
      · exact .inr ⟨ttl, l₁, l₂ ++ [a], by simp, hsnoc l₂ hdel⟩
    · exact .inr ⟨ttl, l, [], rfl, fun _ => by simp⟩

theorem gone (h : Played C i w₀ w l) (hC : C.Exact) {key : Key} (hdel : .cacheDeleted key ∈ l)
    (hset : ∀ v ttl, .cacheSet key v ttl ∉ l) (v : Json) : ¬ C.holds w.cache key v := by
  intro hv
  obtain ⟨-, hn⟩ | ⟨ttl, l₁, l₂, rfl, -⟩ := h.holds key v hv
  · exact hn hC hdel
  · exact hset v ttl (by simp)

theorem users_none {d : Database} {ws : List Write} {u : String}
    (h : (d.applyAll ws).users.get u = none) : d.users.get u = none := by
  induction ws generalizing d with
  | nil => exact h
  | cons v ws ih =>
    have hv := ih h
    cases v with
    | insertSession r => exact hv
    | updateSession l n => exact hv
    | insertUser r =>
      cases hd : d.users.get u with
      | none => rfl
      | some x =>
        have hx : (d.apply (.insertUser r)).users.get u = some x := Keyed.get_insert_of_get hd r
        rw [hv] at hx
        cases hx
    | updateUser l n =>
      rw [Database.apply, Keyed.get_modify] at hv
      split at hv
      · exact Option.map_eq_none_iff.mp hv
      · exact hv

theorem given (h : Played C i w₀ w l) {c : Choice χ} {e : Eff β} {r : Except Exc β}
    (he : handle cfg C i c w e = some (r, w')) : Given cfg w₀.db w₀.clock l e r := by
  cases e with
  | now =>
    simp only [handle, Option.ite_none_right_eq_some, Option.some.injEq, Prod.mk.injEq] at he
    exact ⟨c.time, he.2.1.symm, Int.le_trans h.started he.1,
      fun t ht => Int.le_trans (h.clock t ht).2 he.1⟩
  | uuid4 =>
    simp only [handle, Option.ite_none_right_eq_some, Option.some.injEq, Prod.mk.injEq] at he
    obtain ⟨-, hfresh⟩ : _ ∧ w.db.users.get c.uuid = none := by
      simpa [World.freshId] using he.1
    rw [h.db] at hfresh
    exact ⟨c.uuid, he.2.1.symm, users_none hfresh⟩
  | hashpw pw =>
    simp only [handle, Option.some.injEq, Prod.mk.injEq] at he
    exact ⟨c.salt, he.1.symm⟩
  | selectSessions q =>
    simp only [handle, Option.some.injEq, Prod.mk.injEq, h.view] at he
    exact ⟨c.rank, he.1.symm⟩
  | selectUsers q =>
    simp only [handle, Option.some.injEq, Prod.mk.injEq, h.view] at he
    exact ⟨c.rank, he.1.symm⟩
  | write v =>
    simp only [handle, h.not_blocked v, h.view, Bool.false_eq_true, if_false] at he
    change if (seen w₀.db l).admits v = true ∧ v.fits = true then r = .ok ()
      else r = .error (if (seen w₀.db l).admits v = true then .dataError else .integrityError)
    cases ha : (seen w₀.db l).admits v with
    | false =>
      simp only [ha, Bool.not_false, if_true, Option.some.injEq, Prod.mk.injEq] at he
      rw [if_neg (by simp), if_neg (by simp)]
      exact he.1.symm
    | true =>
      cases hf : v.fits with
      | false =>
        simp only [ha, hf, Bool.not_true, Bool.not_false, Bool.false_eq_true, if_false, if_true,
          Option.some.injEq, Prod.mk.injEq] at he
        rw [if_neg (by simp), if_pos rfl]
        exact he.1.symm
      | true =>
        simp only [ha, hf, Bool.not_true, Bool.false_eq_true, if_false, Option.some.injEq,
          Prod.mk.injEq] at he
        rw [if_pos ⟨rfl, rfl⟩]
        exact he.1.symm
  | encode cl =>
    simp only [handle, Option.some.injEq, Prod.mk.injEq] at he
    exact he.1.symm
  | commit =>
    simp only [handle, Option.some.injEq, Prod.mk.injEq] at he
    exact he.1.symm
  | close =>
    simp only [handle, Option.some.injEq, Prod.mk.injEq] at he
    exact he.1.symm
  | cacheSet key v ttl =>
    simp only [handle, Option.some.injEq, Prod.mk.injEq] at he
    exact he.1.symm
  | cacheDelete key =>
    simp only [handle, Option.some.injEq, Prod.mk.injEq] at he
    exact he.1.symm
  | countUsers =>
    simp only [handle, Option.some.injEq, Prod.mk.injEq] at he
    exact ⟨_, he.1.symm⟩
  | cacheGet key =>
    simp only [handle, Option.some.injEq, Prod.mk.injEq] at he
    exact ⟨_, he.1.symm⟩

end Played

abbrev Alone (cfg : Config) (d : Database) (t₀ : Time) (p : M α)
    (Q : Except Exc α → List Act → Prop) (h : List Act) : Prop :=
  (solo cfg d t₀).wp (fun _ => True) p Q h

/-- A call that runs alone does what its program says. -/
theorem Vacant.run (hw : Vacant w i) {p : M α} {Q : Except Exc α → List Act → Prop}
    {cs : List (Choice χ)} {r : Except Exc α} (hp : Alone cfg w.db w.clock p Q [])
    (hr : (semantics cfg C).run i cs p w = some (r, w')) : ∃ l, Played C i w w' l ∧ Q r l := by
  have hstep : ∀ {β : Type} (e : Eff β) c w₁ l x w₂, Played C i w w₁ l →
      (semantics cfg C).step i c w₁ e = some (x, w₂) →
      Given cfg w.db w.clock l e x ∧ (True → Played C i w w₂ (l ++ [e.act x])) := by
    intro β e c w₁ l x w₂ h hs
    obtain ⟨hmv, w₃, hh⟩ := semantics_step hs
    exact ⟨h.given hh, fun _ => h.moved hmv⟩
  exact (solo cfg w.db w.clock).wp_run hstep hw.played hp hr

section

variable {d : Database} {t₀ : Time} {h : List Act} {Q : Except Exc β → List Act → Prop}

theorem alone_now {f : Time → M β}
    (hf : ∀ t, (∀ t', .clock t' ∈ h → t' ≤ t) → Alone cfg d t₀ (f t) Q (h ++ [Act.clock t])) :
    Alone cfg d t₀ (now >>= f) Q h := by
  intro r hr
  obtain ⟨t, rfl, -, ht⟩ := hr
  exact ⟨trivial, hf t ht⟩

theorem alone_uuid4 {f : String → M β}
    (hf : ∀ u, d.users.get u = none → Alone cfg d t₀ (f u) Q (h ++ [Act.drew u])) :
    Alone cfg d t₀ (uuid4 >>= f) Q h := by
  intro r hr
  obtain ⟨u, rfl, hu⟩ := hr
  exact ⟨trivial, hf u hu⟩

theorem alone_hashPassword {pw : String} {f : String → M β}
    (hok : ∀ salt hashed, cfg.hashpw salt pw = .ok hashed →
      Alone cfg d t₀ (f hashed) Q (h ++ [Act.hashed]))
    (herr : ∀ salt x, cfg.hashpw salt pw = .error x → Q (.error x) (h ++ [Act.hashed])) :
    Alone cfg d t₀ (hashPassword pw >>= f) Q h := by
  intro r hr
  obtain ⟨salt, rfl⟩ := hr
  cases hs : cfg.hashpw salt pw with
  | ok hashed => exact ⟨trivial, hok salt hashed hs⟩
  | error x => exact ⟨trivial, herr salt x hs⟩

theorem alone_cacheDelete {key : Key} {f : Unit → M β}
    (hf : Alone cfg d t₀ (f ()) Q (h ++ [Act.cacheDeleted key])) :
    Alone cfg d t₀ (cacheDelete key >>= f) Q h := by
  intro r hr
  obtain rfl : r = .ok () := hr
  exact ⟨trivial, hf⟩

theorem alone_raiseIf {c : Prop} [Decidable c] {x : Exc} {f : Unit → M β} (herr : c → Q (.error x) h)
    (hok : ¬ c → Alone cfg d t₀ (f ()) Q h) : Alone cfg d t₀ (Prog.raiseIf c x >>= f) Q h :=
  (Trace.wp_bind _ _ _ _ _).mpr ((Trace.wp_raiseIf _ _ _ _ _).mpr ⟨herr, hok⟩)

theorem alone_selectSessions {q : SessionQuery} {f : List SessionModel → M β}
    (hf : ∀ rank, Alone cfg d t₀ (f (q.eval rank (seen d h).sessions)) Q
      (h ++ [Act.readSessions q (q.eval rank (seen d h).sessions)])) :
    Alone cfg d t₀ (Prog.perform (.selectSessions q) >>= f) Q h := by
  intro r hr
  obtain ⟨rank, rfl⟩ := hr
  exact ⟨trivial, hf rank⟩

theorem alone_selectUsers {q : UserQuery} {f : List UserModel → M β}
    (hf : ∀ rank, Alone cfg d t₀ (f (q.eval rank (seen d h).users)) Q
      (h ++ [Act.readUsers q (q.eval rank (seen d h).users)])) :
    Alone cfg d t₀ (Prog.perform (.selectUsers q) >>= f) Q h := by
  intro r hr
  obtain ⟨rank, rfl⟩ := hr
  exact ⟨trivial, hf rank⟩

theorem alone_findUser {q : UserQuery} (hq : ∀ o l, q ≠ .page o l) {f : Option User → M β}
    (hnone : (∀ x ∈ (seen d h).users.rows, q.selects x = false) →
      Alone cfg d t₀ (f none) Q (h ++ [Act.readUsers q []]))
    (hsome : ∀ x ∈ (seen d h).users.rows, q.selects x = true →
      (∀ y ∈ (seen d h).users.rows, q.selects y = true → y = x) →
        Alone cfg d t₀ (f (some x.toEntity)) Q (h ++ [Act.readUsers q [x]]))
    (hmany : ∀ rows, ∀ x ∈ (seen d h).users.rows, ∀ y ∈ (seen d h).users.rows, x ≠ y →
      q.selects x = true → q.selects y = true →
        Q (.error .multipleResultsFound) (h ++ [Act.readUsers q rows])) :
    Alone cfg d t₀ (findUser q >>= f) Q h := by
  unfold findUser
  rw [bind_assoc]
  apply alone_selectUsers
  intro rank
  have hmem : ∀ x, x ∈ q.eval rank (seen d h).users ↔
      x ∈ (seen d h).users.rows ∧ q.selects x = true := fun x => UserQuery.mem_eval hq
  have hnd := UserQuery.nodup_eval q rank (seen d h).users
  generalize q.eval rank (seen d h).users = rows at hmem hnd
  match rows with
  | [] =>
    apply hnone
    intro x hx
    by_contra hsel
    exact absurd ((hmem x).mpr ⟨hx, by simpa using hsel⟩) List.not_mem_nil
  | [x] =>
    obtain ⟨hx, hsel⟩ := (hmem x).mp List.mem_cons_self
    exact hsome x hx hsel fun y hy hy' => List.mem_singleton.mp ((hmem y).mpr ⟨hy, hy'⟩)
  | x :: y :: rest =>
    obtain ⟨hx, hsel⟩ := (hmem x).mp List.mem_cons_self
    obtain ⟨hy, hsel'⟩ := (hmem y).mp (List.mem_cons_of_mem _ List.mem_cons_self)
    have hne : x ≠ y := fun he => (List.nodup_cons.mp hnd).1 (he ▸ List.mem_cons_self)
    exact hmany _ x hx y hy hne hsel hsel'

/-- A statement goes through just when the tables admit it and its values fit. -/
theorem alone_write {v : Write} {f : Unit → M β}
    (hok : (seen d h).admits v = true → v.fits = true →
      Alone cfg d t₀ (f ()) Q (h ++ [Act.wrote v]))
    (herr : ∀ x, v.Refusal (seen d h) x → Q (.error x) (h ++ [Act.refused v])) :
    Alone cfg d t₀ (Prog.perform (.write v) >>= f) Q h := by
  intro r hr
  change if (seen d h).admits v = true ∧ v.fits = true then r = .ok ()
    else r = .error (if (seen d h).admits v = true then .dataError else .integrityError) at hr
  split at hr
  · rename_i hv
    subst hr
    exact ⟨trivial, hok hv.1 hv.2⟩
  · rename_i hv
    subst hr
    refine ⟨trivial, herr _ ?_⟩
    cases ha : (seen d h).admits v with
    | false => exact .inl ⟨if_neg (by simp), ha⟩
    | true =>
      rw [ha] at hv
      exact .inr ⟨if_pos rfl, ha, by simpa using hv⟩

theorem alone_commit {f : Unit → M β} (hf : Alone cfg d t₀ (f ()) Q (h ++ [Act.committed])) :
    Alone cfg d t₀ (commit >>= f) Q h := by
  intro r hr
  obtain rfl : r = .ok () := hr
  exact ⟨trivial, hf⟩

theorem alone_suppressSet {key : Key} {v : Json} {ttl : Int} {f : Unit → M β}
    (hf : Alone cfg d t₀ (f ()) Q (h ++ [Act.cacheSet key v (some ttl)])) :
    Alone cfg d t₀ (Prog.suppress (setJson key v ttl) >>= f) Q h := by
  intro r hr
  obtain rfl : r = .ok () := hr
  exact ⟨trivial, hf⟩

theorem alone_suppressDelete {key : Key} {f : Unit → M β}
    (hf : Alone cfg d t₀ (f ()) Q (h ++ [Act.cacheDeleted key])) :
    Alone cfg d t₀ (Prog.suppress (cacheDelete key) >>= f) Q h := by
  intro r hr
  obtain rfl : r = .ok () := hr
  exact ⟨trivial, hf⟩

theorem alone_encode {c : Claims} {f : Token → M β}
    (hf : Alone cfg d t₀ (f (cfg.jose.encode c)) Q (h ++ [Act.signed c])) :
    Alone cfg d t₀ (Prog.perform (.encode c) >>= f) Q h := by
  intro r hr
  obtain rfl : r = .ok (cfg.jose.encode c) := hr
  exact ⟨trivial, hf⟩

theorem alone_createToken {subject : String} {delta : Time} {type : TokenType}
    {sid : Option String} {f : Token → M β}
    (hf : ∀ t c, Alone cfg d t₀ (f (cfg.jose.encode c)) Q (h ++ [Act.clock t, .signed c])) :
    Alone cfg d t₀ (createToken subject delta type sid >>= f) Q h := by
  unfold createToken
  rw [bind_assoc]
  apply alone_now
  intro t _
  apply alone_encode
  rw [List.append_assoc, List.singleton_append]
  exact hf t _

theorem alone_prog {k : Call} {f : α → Out} {p : M α} {R : Except Exc α → List Act → Prop}
    (hk : k.body cfg = f <$> p) (hp : Alone cfg d t₀ p R []) :
    Alone cfg d t₀ (k.prog cfg)
      (fun r h => ∃ r' h', r = r'.map f ∧ h = h' ++ [Act.closed] ∧ R r' h') [] := by
  unfold Call.prog
  rw [hk]
  apply (Trace.wp_ensure _ _ _ _ _).mpr
  apply (Trace.wp_map _ _ _ _ _).mpr
  apply Trace.wp_mono _ hp
  intro r h hr x hx
  obtain rfl : x = .ok () := hx
  exact ⟨trivial, r, h, rfl, rfl, hr⟩

end

end AsyncPulse
