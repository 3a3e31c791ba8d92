import AsyncPulse.Shutdown
set_option autoImplicit false

namespace AsyncPulse
open Effect

variable {γ χ : Type} {cfg : Config} {C : MayCache Key Json γ χ}

theorem UserModel.InService.patch {l n z : UserModel} (hz : z.InService) (hl : l.deletedAt = none)
    (hb : ¬ Bars l n) : (l.patch n z).InService := by
  obtain ⟨hd, hs⟩ := hz
  simp only [Bars, not_or, not_and, not_not] at hb
  obtain ⟨hbs, hbd⟩ := hb
  constructor
  · simp only [UserModel.patch, column]
    split
    · exact hd
    · exact hbd hl
  · simp only [UserModel.patch, column]
    split
    · exact hs
    · exact hbs ‹_›

theorem ledger_open {h : List Act} (ho : Open h) : ledger h = ([], written h) := by
  induction h using List.reverseRecOn with
  | nil => rfl
  | append_singleton h a ih =>
    obtain ⟨hoh, hac, hacl⟩ := open_snoc.mp ho
    rw [ledger_snoc, if_neg hac, ih hoh, written_append]
    cases a with
    | committed => exact absurd rfl hac
    | closed => exact absurd rfl hacl
    | wrote v => rfl
    | _ => simp [Act.pending, written]

theorem seen_append {d : Database} {h h' : List Act} (ho : Open (h ++ h')) :
    seen d (h ++ h') = (seen d h).applyAll (written h') := by
  have hoh : Open h := ⟨fun hm => ho.1 (List.mem_append_left _ hm),
    fun hm => ho.2 (List.mem_append_left _ hm)⟩
  rw [seen, ledger_open ho, seen, ledger_open hoh, written_append, List.nil_append, List.nil_append,
    Database.applyAll_append]

/-- A user who is locked out or deleted has no unrevoked session. -/
def Barred (w : World γ) : Prop :=
  ∀ x ∈ w.db.sessions.rows, ∀ z, w.db.users.get x.userId = some z → ¬ z.InService →
    x.revokedAt ≠ none

theorem Init.barred {w : World γ} (h : Init C w) : Barred w := by
  intro x hx
  rw [h.noSession] at hx
  cases hx

theorem Provenance.session_user {m : Nat → Option Call} {w : World γ} (h : Provenance cfg C m w)
    {x : SessionModel} (hx : x ∈ w.db.sessions.rows) :
    ∃ z, w.db.users.get x.userId = some z := by
  obtain ⟨i, k, r, h₁, -, -, hcore, -, hsub, hop⟩ := h.inserted hx
  obtain ⟨z, ⟨q, rows, hread, hz⟩, hid, -⟩ := hop.user
  obtain ⟨y, hy, -⟩ := h.sawUser i z ⟨q, rows, hsub hread, hz⟩
  rw [SessionModel.core_userId hcore, ← hid]
  exact ⟨y, hy⟩

namespace Turn

variable {m : Nat → Option Call} {n : Nat} {k : Call} {r : Except Exc Out} {start : Time}
  {w w' : World γ} (h : Turn cfg C m n k r start w w')
include h

theorem sees_in_service {u : String} {z : UserModel} (hz : w.db.users.get u = some z)
    (hin : z.InService) {l₁ l₂ : List Act} (hl : w'.hist n = l₁ ++ l₂) (ho : Open l₁)
    (hb : ∀ a b, .wrote (.updateUser a b) ∈ l₁ → a.id = u → ¬ Bars a b) :
    ∀ l, l <+: l₁ → ∃ y, (seen w.db l).users.get u = some y ∧ y.InService := by
  induction l₁ using List.reverseRecOn generalizing l₂ with
  | nil =>
    intro l hpre
    rw [List.prefix_nil.mp hpre]
    exact ⟨z, hz, hin⟩
  | append_singleton l₁ a ih =>
    obtain ⟨hol, hac, hacl⟩ := open_snoc.mp ho
    rw [List.append_assoc, List.singleton_append] at hl
    have hbefore := ih hl hol fun a b hm => hb a b (List.mem_append_left _ hm)
    intro l hpre
    obtain rfl | hpre := List.prefix_concat_iff.mp hpre
    swap
    · exact hbefore l hpre
    obtain ⟨y, hy, hyin⟩ := hbefore l₁ List.prefix_rfl
    cases a with
    | committed => exact absurd rfl hac
    | closed => exact absurd rfl hacl
    | wrote v =>
      rw [seen_wrote]
      cases v with
      | insertUser x => exact ⟨y, Keyed.get_insert_of_get hy x, hyin⟩
      | insertSession x => exact ⟨y, hy, hyin⟩
      | updateSession a b => exact ⟨y, hy, hyin⟩
      | updateUser a b =>
        by_cases hu : u = a.id
        · refine ⟨a.patch b y, ?_, hyin.patch ?_ (hb a b (by simp) hu.symm)⟩
          · rw [Database.apply, Keyed.get_modify, if_pos hu, hy]
            rfl
          · -- The row was loaded in the same transaction.
            have hlaw := h.lawful
            rw [hl] at hlaw
            obtain ⟨-, -, ⟨rows, hread, ha⟩, -⟩ := hlaw.of_split
            obtain ⟨l₃, l₄, rfl⟩ := List.append_of_mem hread
            obtain ⟨rank, hrows⟩ := h.alone.played.readUsers l₃
              (l₄ ++ .wrote (.updateUser a b) :: l₂) (.row a.id) rows (by rw [hl]; simp)
            rw [hrows] at ha
            have hrow := Keyed.get_of_mem (UserQuery.mem_of_eval ha).1
            obtain ⟨y', hy', hin'⟩ := hbefore l₃ (List.prefix_append _ _)
            rw [hu, ← World.setClock_db, hrow] at hy'
            cases hy'
            exact hin'.1
        · exact ⟨y, by rw [Database.apply, Keyed.get_modify, if_neg hu, hy], hyin⟩
    | _ =>
      rw [seen_still (by simp [Act.still])]
      exact ⟨y, hy, hyin⟩

theorem committed_view {h₁ h₂ : List Act} (hl : w'.hist n = h₁ ++ .committed :: h₂) :
    w'.db = seen w.db h₁ := by
  have hlaw := h.lawful
  rw [h.alone.played.db, hl]
  rw [hl] at hlaw
  have hled : (ledger (h₁ ++ .committed :: h₂)).1 = (ledger h₁).1 ++ (ledger h₁).2 := by
    clear hl
    induction h₂ using List.reverseRecOn with
    | nil => exact congrArg Prod.fst (ledger_committed h₁)
    | append_singleton h₂ a ih =>
      rw [← List.cons_append, ← List.append_assoc] at hlaw ⊢
      obtain ⟨hlaw', ha⟩ := Lawful.snoc_iff.mp hlaw
      have hne : a ≠ .committed := by
        rintro rfl
        exact ha.1.1 (by simp)
      rw [ledger_snoc, if_neg hne]
      exact ih hlaw'
  rw [hled]
  rfl

theorem leaves {u : String} {z z' : UserModel} (hz : w.db.users.get u = some z)
    (hin : z.InService) (hz' : w'.db.users.get u = some z') (hout : ¬ z'.InService) :
    ∀ x ∈ w'.db.sessions.rows, x.userId = u → x.revokedAt ≠ none := by
  by_cases hc : .committed ∈ w'.hist n
  · obtain ⟨h₁, h₂, hl⟩ := List.append_of_mem hc
    have hlaw := h.lawful
    rw [hl] at hlaw
    obtain ⟨ho, -, hmass⟩ := hlaw.of_split
    by_cases hm : ∃ rows, .readSessions (.unrevokedOf u) rows ∈ w'.hist n
    · obtain ⟨rows, hm⟩ := hm
      exact h.massed hc hm
    · have hb : ∀ a b, .wrote (.updateUser a b) ∈ h₁ → a.id = u → ¬ Bars a b := by
        rintro a b hw rfl hbars
        obtain ⟨rows, hr⟩ := hmass a b hw hbars
        exact hm ⟨rows, by rw [hl]; exact List.mem_append_left _ hr⟩
      obtain ⟨y, hy, hyin⟩ := h.sees_in_service hz hin hl ho hb h₁ List.prefix_rfl
      rw [← h.committed_view hl, hz'] at hy
      cases hy
      exact absurd hyin hout
  · have hdb : w'.db = w.db := by
      rw [h.alone.played.db, ledger_uncommitted hc]
      rfl
    rw [hdb, hz] at hz'
    cases hz'
    exact absurd hin hout

theorem opened_in_service {y : SessionModel} (hw : .wrote (.insertSession y) ∈ w'.hist n)
    (hc : .committed ∈ w'.hist n) :
    ∃ z, w'.db.users.get y.userId = some z ∧ z.InService := by
  obtain ⟨l, l', hl⟩ := List.append_of_mem hc
  have hlaw := h.lawful
  rw [hl] at hlaw hw
  have hwl : .wrote (.insertSession y) ∈ l :=
    hlaw.before_commit (by simpa using hw) fun _ ha => ha.1
  obtain ⟨h₁, h₂, rfl⟩ := List.append_of_mem hwl
  obtain ⟨ho, -⟩ := hlaw.of_split
  obtain ⟨-, -, hop⟩ := hlaw.of_append.of_split
  obtain ⟨z, ⟨q, rows, hread, hzr⟩, hid, hin⟩ := hop.user
  obtain ⟨h₃, h₄, rfl⟩ := List.append_of_mem hread
  -- The call changes no user, neither before it inserts the session nor later.
  have hnone : ∀ a b, .wrote (.updateUser a b) ∉
      .readUsers q rows :: h₄ ++ .wrote (.insertSession y) :: h₂ := by
    intro a b hm
    obtain hm | hm := List.mem_append.mp hm
    · exact hop.apart.2 a b (List.mem_append_right _ hm)
    · obtain ⟨h₅, h₆, rfl⟩ := List.append_of_mem (List.mem_of_ne_of_mem (by simp) hm)
      have hlaw' := hlaw.of_append
      rw [← List.cons_append, ← List.append_assoc] at hlaw'
      exact hlaw'.of_split.2.2.2.2.2.1 y (by simp)
  obtain ⟨rank, rfl⟩ := h.alone.played.readUsers h₃ (h₄ ++ .wrote (.insertSession y) :: h₂ ++
    .committed :: l') q rows (by rw [hl]; simp)
  have hz := Keyed.get_of_mem (UserQuery.mem_of_eval hzr).1
  refine ⟨z, ?_, hin⟩
  rw [h.committed_view hl, ← hid]
  rw [List.append_assoc] at ho ⊢
  rw [seen_append ho]
  exact Database.applyAll_user_same (fun a b hm => absurd (mem_written.mp hm) (hnone a b)) hz

theorem barred (hb : Barred w) : Barred w' := by
  intro x hx z hz hout
  have hx' := Keyed.get_of_mem hx
  cases hs : w.db.sessions.get x.id with
  | none =>
    obtain ⟨y, hw, hc, -, hcore⟩ := h.inserted hs hx'
    obtain ⟨z', hz', hin⟩ := h.opened_in_service hw hc
    rw [← SessionModel.core_userId hcore, hz] at hz'
    cases hz'
    exact absurd hin hout
  | some y =>
    obtain ⟨x', hx₁, hcore, hrev⟩ := h.grows.sessions _ y hs
    rw [hx'] at hx₁
    cases hx₁
    have hu := SessionModel.core_userId hcore
    obtain ⟨z₀, hz₀⟩ := h.before.provenance.session_user (Keyed.mem_of_get hs)
    by_cases hin : z₀.InService
    · exact h.leaves (hu ▸ hz₀) hin hz hout x hx rfl
    · exact hrev (hb y (Keyed.mem_of_get hs) z₀ hz₀ hin)

end Turn

/-- A user who is suspended, banned or deleted has no unrevoked session, and nothing signed for it
so far is of use again, whatever becomes of its status. -/
theorem locked_out {log : List (Call × Except Exc Out)} {w : World γ} {u : String} {z : UserModel}
    (hex : C.Exact) (hrun : Sequential cfg C Later log w) (hz : w.db.users.get u = some z)
    (hout : z.status = .suspended ∨ z.status = .banned ∨ z.deletedAt ≠ none) :
    (∀ x ∈ w.db.sessions.rows, x.userId = u → x.revokedAt ≠ none) ∧
      ShutOut cfg C log.length w u := by
  have hbarred : Barred w := (hrun.invariant (fun _ hw => hw.barred)
    fun _ _ _ _ _ _ _ _ ht hb => ht.barred hb).2
  have hall : ∀ x ∈ w.db.sessions.rows, x.userId = u → x.revokedAt ≠ none := by
    intro x hx hu
    refine hbarred x hx z (hu ▸ hz) fun hin => ?_
    obtain hs | hs | hd := hout
    · exact hin.2 (by simp [hs, lockoutStatuses])
    · exact hin.2 (by simp [hs, lockoutStatuses])
    · exact hd hin.1
  exact ⟨hall, hrun.shutOut hex hall⟩

def aliceSuspended : List (Choice Unit × Call × List (Choice Unit)) :=
  aliceSignsIn ++ [request 20 "" (.changeStatus "alice" .suspended)]

theorem locked_out_alice : ∃ (log : List (Call × Except Exc Out))
    (w : World (TimedStore Key Json)), rehearsal aliceSuspended = some (log, w) ∧
    w.db.sessions.rows.length = 1 ∧
    (∀ x ∈ w.db.sessions.rows, x.userId = "alice" → x.revokedAt ≠ none) ∧
      ShutOut sampleConfig TimedStore.reliable log.length w "alice" := by
  have hend : (rehearsal aliceSuspended).any (fun y => y.2.db.sessions.rows.length = 1 &&
      (y.2.db.users.get "alice").any fun z => z.status = .suspended) = true := by
    decide +kernel
  obtain ⟨⟨log, w⟩, h, hw⟩ := (Option.any_eq_true _ _).mp hend
  simp only [Bool.and_eq_true, decide_eq_true_eq, Option.any_eq_true] at hw
  obtain ⟨hlen, z, hz, hs⟩ := hw
  exact ⟨log, w, h, hlen, locked_out TimedStore.reliable_exact (sequential_of_rehearsal h).1 hz
    (.inl hs)⟩

end AsyncPulse
