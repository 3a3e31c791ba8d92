import AsyncPulse.World
set_option autoImplicit false

namespace AsyncPulse
open Effect

variable {γ χ : Type}

def Act.pending (a : Act) (vs : List Write) : List Write :=
  match a with
  | .wrote v => vs ++ [v]
  | .committed | .closed => []
  | _ => vs

def Act.lock (a : Act) (i : Nat) (l : Lock) (holder : Option Nat) : Option Nat :=
  match a with
  | .wrote v => if l ∈ v.locks then some i else holder
  | .committed | .closed => if holder = some i then none else holder
  | _ => holder

/-- All that the effect of call `i` which left the entry `a` can have done. -/
structure Moved (C : MayCache Key Json γ χ) (i : Nat) (a : Act) (w w' : World γ) : Prop where
  hist : w'.hist = Function.update w.hist i (w.hist i ++ [a])
  db : w'.db = if a = .committed then w.view i else w.db
  pending : w'.pending = Function.update w.pending i (a.pending (w.pending i))
  locks : ∀ l, w'.locks l = a.lock i l (w.locks l)
  drawn : ∀ u j, w'.drawn u = some j ↔ w.drawn u = some j ∨ j = i ∧ a = .drew u
  fresh : ∀ u, a = .drew u → u ≠ "" ∧ w.drawn u = none
  minted : ∀ c, c ∈ w'.minted ↔ c ∈ w.minted ∨ a = .signed c
  clock : w.clock ≤ w'.clock
  now : ∀ t, a = .clock t → w'.clock = t
  read : ∀ q rows, a = .readSessions q rows → ∃ rank, rows = q.eval rank (w.view i).sessions
  readUsers : ∀ q rows, a = .readUsers q rows → ∃ rank, rows = q.eval rank (w.view i).users
  refused : ∀ v, a = .refused v →
    w.blocked i v = true ∨ (w.view i).admits v = false ∨ v.fits = false
  got : ∀ key v, a = .cacheGot key (some v) → C.holds w.cache key v
  holds : ∀ key v, C.holds w'.cache key v →
    C.holds w.cache key v ∧ (C.Exact → a ≠ .cacheDeleted key) ∨ ∃ ttl, a = .cacheSet key v ttl

variable {cfg : Config} {C : MayCache Key Json γ χ} {i : Nat}

def Act.quiet : Act → Bool
  | .wrote _ | .committed | .closed | .drew _ | .signed _ | .clock _ => false
  | _ => true

theorem moved_of_quiet {w : World γ} {a : Act} {g : γ} (hq : a.quiet = true)
    (hread : ∀ q rows, a = .readSessions q rows → ∃ rank, rows = q.eval rank (w.view i).sessions)
    (huser : ∀ q rows, a = .readUsers q rows → ∃ rank, rows = q.eval rank (w.view i).users)
    (hr : ∀ v, a = .refused v → w.blocked i v = true ∨ (w.view i).admits v = false ∨ v.fits = false)
    (hgot : ∀ key v, a = .cacheGot key (some v) → C.holds w.cache key v)
    (hholds : ∀ key v, C.holds g key v →
      C.holds w.cache key v ∧ (C.Exact → a ≠ .cacheDeleted key) ∨ ∃ ttl, a = .cacheSet key v ttl) :
    Moved C i a w ((w.setCache g).log i a) := by
  have hp : ∀ vs, a.pending vs = vs := by
    intro vs
    cases a <;> simp_all [Act.quiet, Act.pending]
  have hl : ∀ l o, a.lock i l o = o := by
    intro l o
    cases a <;> simp_all [Act.quiet, Act.lock]
  have hne : ∀ b, b.quiet = false → a ≠ b := by
    rintro b hb rfl
    rw [hq] at hb
    cases hb
  refine ⟨rfl, by simp [hne .committed rfl], ?_, fun l => (hl l _).symm, ?_,
    fun u hu => absurd hu (hne _ rfl), ?_, Int.le_refl _, fun t hta => absurd hta (hne _ rfl), hread,
    huser, hr, hgot, hholds⟩
  · rw [hp, Function.update_eq_self]
    rfl
  · simp [hne (.drew _) rfl]
  · simp [hne (.signed _) rfl]

section Handle

variable {c : Choice χ} {w w' : World γ}

theorem holds_kept {a : Act} (ha : ∀ k, a ≠ .cacheDeleted k) (key : Key) (v : Json)
    (hv : C.holds w.cache key v) : C.holds w.cache key v ∧ (C.Exact → a ≠ .cacheDeleted key) ∨
      ∃ ttl, a = .cacheSet key v ttl :=
  .inl ⟨hv, fun _ => ha key⟩

theorem moved_of_uuid4 {r : Except Exc String} (he : handle cfg C i c w .uuid4 = some (r, w')) :
    Moved C i (Eff.uuid4.act r) w (w'.log i (Eff.uuid4.act r)) := by
  simp only [handle, Option.ite_none_right_eq_some, Option.some.injEq, Prod.mk.injEq] at he
  obtain ⟨hf, rfl, rfl⟩ := he
  obtain ⟨⟨hne, hnone⟩, -⟩ : (c.uuid ≠ "" ∧ w.drawn c.uuid = none) ∧ _ := by
    simpa [World.freshId] using hf
  have hdrawn : ∀ u j, Function.update w.drawn c.uuid (some i) u = some j ↔
      w.drawn u = some j ∨ j = i ∧ Act.drew c.uuid = .drew u := by
    intro u j
    by_cases hu : u = c.uuid
    · subst hu
      simp [hnone, eq_comm]
    · simp [hu, Ne.symm hu]
  refine ⟨rfl, by simp [Eff.act], by simp [Eff.act, Act.pending], by simp [Eff.act, Act.lock],
    hdrawn, ?_, by simp [Eff.act], Int.le_refl _, by simp [Eff.act], by simp [Eff.act],
    by simp [Eff.act], by simp [Eff.act], by simp [Eff.act],
    fun key v hv => holds_kept (by simp [Eff.act]) key v hv⟩
  rintro u ⟨⟩
  exact ⟨hne, hnone⟩

theorem moved_of_encode {cl : Claims} {r : Except Exc Token}
    (he : handle cfg C i c w (.encode cl) = some (r, w')) :
    Moved C i ((Eff.encode cl).act r) w (w'.log i ((Eff.encode cl).act r)) := by
  simp only [handle, Option.some.injEq, Prod.mk.injEq] at he
  obtain ⟨rfl, rfl⟩ := he
  refine ⟨rfl, by simp [Eff.act], by simp [Eff.act, Act.pending], by simp [Eff.act, Act.lock],
    by simp [Eff.act], by simp [Eff.act], fun c' => ?_, Int.le_refl _, by simp [Eff.act],
    by simp [Eff.act], by simp [Eff.act], by simp [Eff.act], by simp [Eff.act],
    holds_kept (by simp [Eff.act])⟩
  change c' ∈ cl :: w.minted ↔ c' ∈ w.minted ∨ Act.signed cl = .signed c'
  rw [List.mem_cons, Act.signed.injEq, or_comm, eq_comm]

theorem moved_of_write {v : Write} {r : Except Exc Unit}
    (he : handle cfg C i c w (.write v) = some (r, w')) :
    Moved C i ((Eff.write v).act r) w (w'.log i ((Eff.write v).act r)) := by
  have hrefused : ∀ x, r = .error x → w' = w →
      w.blocked i v = true ∨ (w.view i).admits v = false ∨ v.fits = false →
      Moved C i (Eff.act (.write v) r) w (w'.log i (Eff.act (.write v) r)) := by
    rintro x rfl rfl hv
    refine moved_of_quiet (g := w'.cache) rfl (by simp [Eff.act]) (by simp [Eff.act]) ?_
      (by simp [Eff.act]) (holds_kept (by simp [Eff.act]))
    rintro v' ⟨⟩
    exact hv
  simp only [handle] at he
  split at he
  · rename_i hb
    split at he
    · cases he
      exact hrefused _ rfl rfl (.inl hb)
    · cases he
  split at he
  · rename_i ha
    cases he
    exact hrefused _ rfl rfl (.inr (.inl (by simpa using ha)))
  split at he
  · rename_i hf
    cases he
    exact hrefused _ rfl rfl (.inr (.inr (by simpa using hf)))
  cases he
  constructor <;> simp_all [Eff.act, Act.pending, Act.lock]

theorem moved_of_handle {β : Type} {e : Eff β} {r : Except Exc β}
    (he : handle cfg C i c w e = some (r, w')) : Moved C i (e.act r) w (w'.log i (e.act r)) := by
  cases e with
  | now =>
    simp only [handle, Option.ite_none_right_eq_some, Option.some.injEq, Prod.mk.injEq] at he
    obtain ⟨ht, rfl, rfl⟩ := he
    constructor <;> simp_all [Eff.act, Act.pending, Act.lock]
  | uuid4 => exact moved_of_uuid4 he
  | encode cl => exact moved_of_encode he
  | hashpw pw =>
    simp only [handle, Option.some.injEq, Prod.mk.injEq] at he
    obtain ⟨-, rfl⟩ := he
    exact moved_of_quiet (g := w.cache) rfl (by simp [Eff.act]) (by simp [Eff.act])
      (by simp [Eff.act]) (by simp [Eff.act]) (holds_kept (by simp [Eff.act]))
  | selectSessions q =>
    simp only [handle, Option.some.injEq, Prod.mk.injEq] at he
    obtain ⟨rfl, rfl⟩ := he
    refine moved_of_quiet (g := w.cache) rfl ?_ (by simp [Eff.act]) (by simp [Eff.act])
      (by simp [Eff.act]) (holds_kept (by simp [Eff.act]))
    rintro _ _ ⟨⟩
    exact ⟨c.rank, rfl⟩
  | selectUsers q =>
    simp only [handle, Option.some.injEq, Prod.mk.injEq] at he
    obtain ⟨rfl, rfl⟩ := he
    refine moved_of_quiet (g := w.cache) rfl (by simp [Eff.act]) ?_ (by simp [Eff.act])
      (by simp [Eff.act]) (holds_kept (by simp [Eff.act]))
    rintro _ _ ⟨⟩
    exact ⟨c.rank, rfl⟩
  | countUsers =>
    simp only [handle, Option.some.injEq, Prod.mk.injEq] at he
    obtain ⟨rfl, rfl⟩ := he
    exact moved_of_quiet (g := w.cache) rfl (by simp [Eff.act]) (by simp [Eff.act])
      (by simp [Eff.act]) (by simp [Eff.act]) (holds_kept (by simp [Eff.act]))
  | write v => exact moved_of_write he
  | commit | close =>
    simp only [handle, Option.some.injEq, Prod.mk.injEq] at he
    obtain ⟨rfl, rfl⟩ := he
    constructor <;> simp_all [Eff.act, Act.pending, Act.lock]
  | cacheGet key =>
    simp only [handle, Option.some.injEq, Prod.mk.injEq] at he
    obtain ⟨rfl, rfl⟩ := he
    refine moved_of_quiet rfl (by simp [Eff.act]) (by simp [Eff.act]) (by simp [Eff.act]) ?_
      fun key' v hv => holds_kept (by simp [Eff.act]) key' v (C.holds_get _ _ _ _ _ _ _ hv)
    intro key' v hv
    simp only [Eff.act, Act.cacheGot.injEq] at hv
    obtain ⟨rfl, hv⟩ := hv
    exact C.get_holds _ _ _ _ _ _ hv
  | cacheSet key v ttl =>
    simp only [handle, Option.some.injEq, Prod.mk.injEq] at he
    obtain ⟨rfl, rfl⟩ := he
    refine moved_of_quiet rfl (by simp [Eff.act]) (by simp [Eff.act]) (by simp [Eff.act])
      (by simp [Eff.act]) fun key' v' hv => ?_
    rcases C.holds_set _ _ _ _ _ _ _ _ _ hv with hv | ⟨rfl, rfl⟩
    · exact holds_kept (by simp [Eff.act]) _ _ hv
    · exact .inr ⟨ttl, rfl⟩
  | cacheDelete key =>
    simp only [handle, Option.some.injEq, Prod.mk.injEq] at he
    obtain ⟨rfl, rfl⟩ := he
    refine moved_of_quiet rfl (by simp [Eff.act]) (by simp [Eff.act]) (by simp [Eff.act])
      (by simp [Eff.act]) fun key' v hv => ?_
    refine .inl ⟨C.holds_delete _ _ _ _ _ _ _ hv, fun hex he => ?_⟩
    cases he
    exact hex _ _ _ _ _ _ hv

end Handle

end AsyncPulse
