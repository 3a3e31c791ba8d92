import AsyncPulse.BookRuns
set_option autoImplicit false

namespace AsyncPulse
open Effect Registry

abbrev BookEvent := Event String String UserModel Time

inductive Enrols (cfg : Config) (p : UserCreate) : Except Exc User → BookEvent → Prop where
  | failed (y : Exc) : Enrols cfg p (.error y) .idle
  | enrolled (u salt hashed : String) (t t' : Time) : cfg.hashpw salt p.password = .ok hashed →
      Enrols cfg p (.ok (newRow p u hashed t t').toEntity) (.enrol u (newRow p u hashed t t'))

inductive Updates (u : String) (p : UserUpdate) : Except Exc User → BookEvent → Prop where
  | failed (y : Exc) : Updates u p (.error y) .idle
  | updated (x : UserModel) (t : Time) :
      Updates u p (.ok (x.revised p t).toEntity) (.amend u x (x.revised p t))
  | nothing (x : UserModel) : p.fields = [] → Updates u p (.ok x.toEntity) .idle

inductive SetsPassword (cfg : Config) (u pw : String) : Except Exc User → BookEvent → Prop where
  | failed (y : Exc) : SetsPassword cfg u pw (.error y) .idle
  | changed (x : UserModel) (salt hashed : String) (t : Time) : cfg.hashpw salt pw = .ok hashed →
      SetsPassword cfg u pw
        (.ok (UserModel.toEntity { x with hashedPassword := hashed, updatedAt := t }))
        (.amend u x { x with hashedPassword := hashed, updatedAt := t })

inductive SetsStatus (u : String) (st : UserStatus) : Except Exc User → BookEvent → Prop where
  | failed (y : Exc) : SetsStatus u st (.error y) .idle
  | moved (x : UserModel) (t : Time) : st ∉ lockoutStatuses →
      SetsStatus u st (.ok (UserModel.toEntity { x with status := st, updatedAt := t }))
        (.amend u x { x with status := st, updatedAt := t })
  | lockedOut (x : UserModel) (t t' : Time) : st ∈ lockoutStatuses →
      SetsStatus u st (.ok (UserModel.toEntity { x with status := st, updatedAt := t }))
        (.expel u x { x with status := st, updatedAt := t } t')

inductive Deletes (u : String) : Except Exc Unit → BookEvent → Prop where
  | failed (y : Exc) : Deletes u (.error y) .idle
  | deleted (x : UserModel) (t t' t'' : Time) :
      Deletes u (.ok ()) (.expel u x { x with deletedAt := some t, updatedAt := t' } t'')

def Comes {α : Type} (cfg : Config) (d : Database) (tells : Except Exc α → BookEvent → Prop)
    (r : Except Exc α) (l : List Act) : Prop :=
  ∃ e, tells r e ∧ Did cfg d l e

variable {cfg : Config} {d : Database} {t₀ : Time} {h : List Act} {β : Type}
  {Q : Except Exc β → List Act → Prop}

theorem free_newRow {p : UserCreate} {u hashed : String} {t t' t'' : Time}
    (hfree : ∀ y ∈ d.users.rows, ¬ y.Holds p) :
    (d.book t'').Free (policy cfg) u (newRow p u hashed t t') :=
  fun _ _ _ hy hclash => hfree _ (Keyed.mem_of_get hy) hclash

theorem comes_createUser {p : UserCreate} :
    Alone cfg d t₀ (createUser p) (Comes cfg d (Enrols cfg p)) [] := by
  refine Trace.wp_mono _ alone_createUser fun r l hrun => ?_
  cases hrun with
  | taken => exact ⟨.idle, .failed _, did_idle rfl⟩
  | ambiguous => exact ⟨.idle, .failed _, did_idle rfl⟩
  | unhashed => exact ⟨.idle, .failed _, did_idle rfl⟩
  | refused => exact ⟨.idle, .failed _, did_idle rfl⟩
  | @registered u salt hashed t t' hfree hh hu _ =>
    refine ⟨_, .enrolled u salt hashed t t' hh, fun t₁ t₂ ht _ => ?_⟩
    have hl : (ledger (registrationTrail p u t t' ++
        [.wrote (.insertUser (newRow p u hashed t t')), .committed])).1 =
          [.insertUser (newRow p u hashed t t')] := rfl
    rw [hl, Database.applyAll_cons, Database.applyAll_nil, book_enrol hu]
    exact Step.enrol (L := d.book t₁) ht hu ⟨rfl, by simp [newRow, lockoutStatuses]⟩
      (free_newRow hfree)

theorem alone_revise {u : String} {x : UserModel} (hh : Checking h)
    (hx : d.users.get u = some x) (g : UserModel → UserModel) {f : User → M β}
    (hf : ∀ t l ws, (ledger (h ++ l)) = ([], ws) → Makes d x { g x with updatedAt := t } ws →
      Alone cfg d t₀ (f (UserModel.toEntity { g x with updatedAt := t })) Q (h ++ l))
    (herr : ∀ y l, (ledger (h ++ l)).1 = [] → Q (.error y) (h ++ l)) :
    Alone cfg d t₀ (changeRow u g >>= f) Q h := by
  apply alone_changeRow hh hx g
  · intro t l hl heq
    have hsame := hf t l [] (checking_append.mpr ⟨hh, hl⟩).ledger_eq (.inl ⟨heq, rfl⟩)
    rwa [heq] at hsame
  · intro t l hl _ ha _
    rw [List.append_assoc]
    refine hf t _ _ ?_ (.inr ⟨ha, rfl⟩)
    rw [← List.append_assoc, ledger_wrote, (checking_append.mpr ⟨hh, hl⟩).ledger_eq]
    rfl
  · intro t l y hl _ _
    rw [List.append_assoc]
    refine herr y _ ?_
    rw [← List.append_assoc, ledger_still (by simp [Act.still]),
      (checking_append.mpr ⟨hh, hl⟩).ledger_eq]

theorem ledger_saved {l : List Act} {ws : List Write} (hl : ledger l = ([], ws)) (key : Key) :
    (ledger (l ++ [.committed, .cacheDeleted key])).1 = ws := by
  rw [List.append_cons, ledger_still (by simp [Act.still]), ledger_committed, hl]
  rfl

theorem comes_updateUser (hi : Indexed d.users) {u : String} {p : UserUpdate} :
    Alone cfg d t₀ (updateUser u p) (Comes cfg d (Updates u p)) [] := by
  have hdone : ∀ {x : UserModel} {t : Time} {h ws}, ledger h = ([], ws) →
      Makes d x (x.revised p t) ws → d.users.get u = some x → x.deletedAt = none →
        Comes cfg d (Updates u p) (.ok (x.revised p t).toEntity)
          (h ++ [.committed, .cacheDeleted (.user u)]) := by
    intro x t h ws hl hmakes hx hlive
    obtain rfl : x.id = u := Keyed.key_of_get hx
    exact ⟨_, .updated x t, did_amend (ledger_saved hl _) hmakes hi hx
      ⟨hlive, rfl, rfl, rfl, rfl, .inl rfl⟩ fun hs => hs⟩
  refine Trace.wp_mono _ (alone_updateUser hi) fun r l hrun => ?_
  cases hrun with
  | missing hh => exact ⟨.idle, .failed _, did_idle (by rw [hh.ledger_eq])⟩
  | taken hh => exact ⟨.idle, .failed _, did_idle (by rw [hh.ledger_eq])⟩
  | empty hh _ _ hnil => exact ⟨.idle, .nothing _ hnil, did_idle (by rw [hh.ledger_eq])⟩
  | @unchanged x t h hh hx hlive _ heq =>
    have hsame := hdone (t := t) hh.ledger_eq (.inl ⟨heq, rfl⟩) hx hlive
    rwa [heq] at hsame
  | refused hh =>
    refine ⟨.idle, .failed _, did_idle ?_⟩
    rw [ledger_still (by simp [Act.still]), hh.ledger_eq]
  | @updated x t h hh hx hlive _ _ ha _ =>
    have hl : ledger (h ++ [Act.wrote (.updateUser x (x.revised p t))]) =
        ([], [.updateUser x (x.revised p t)]) := by
      rw [ledger_wrote, hh.ledger_eq]
      rfl
    have hsaved := hdone hl (.inr ⟨ha, rfl⟩) hx hlive
    rwa [List.append_assoc] at hsaved

theorem comes_setPassword (hi : Indexed d.users) {u pw : String} :
    Alone cfg d t₀ (setPassword u pw) (Comes cfg d (SetsPassword cfg u pw)) [] := by
  unfold setPassword
  apply alone_getUser checking_nil
  · intro x hx hlive
    apply alone_hashPassword
    · intro salt hashed hh
      have hstill : ∀ a ∈ [Act.readUsers (.byId u) [x], .hashed], a.still = true := by
        simp [Act.still]
      obtain rfl : x.id = u := Keyed.key_of_get hx
      have hset : Alone cfg d t₀ (setCredentials x.id hashed >>= fun updated => do
          commit
          cacheDelete (.user x.id)
          return updated) (Comes cfg d (SetsPassword cfg x.id pw)) [] := by
        apply alone_revise checking_nil hx
        · intro t l ws hl hmakes
          apply alone_commit
          apply alone_cacheDelete
          rw [List.append_assoc]
          exact ⟨_, .changed x salt hashed t hh, did_amend (ledger_saved hl _) hmakes hi hx
            ⟨hlive, rfl, rfl, rfl, rfl, .inl rfl⟩ fun hs => hs⟩
        · exact fun y l hl => ⟨.idle, .failed y, did_idle hl⟩
      refine Trace.wp_mono _ (alone_shift hstill hset) fun r h' hr => ?_
      obtain ⟨l', rfl, e, htells, hdid⟩ := hr
      exact ⟨e, htells, hdid.shift hstill⟩
    · exact fun salt y _ => ⟨.idle, .failed y, did_idle rfl⟩
  · exact fun _ => ⟨.idle, .failed _, did_idle rfl⟩

theorem alone_purgeUser {sessions : List UserSession} {f : Unit → M β}
    (hf : Alone cfg d t₀ (f ()) Q (h ++ purgeTrail sessions)) :
    Alone cfg d t₀ ((sessions.forM fun s => do
      cacheDelete (.session s.id)
      cacheDelete (.grace s.id)) >>= f) Q h := by
  induction sessions generalizing h with
  | nil =>
    rw [purgeTrail, List.flatMap_nil, List.append_nil] at hf
    exact hf
  | cons s sessions ih =>
    change Alone cfg d t₀ (((cacheDelete (.session s.id) >>= fun _ =>
      cacheDelete (.grace s.id)) >>= fun _ => sessions.forM _) >>= f) Q h
    rw [bind_assoc, bind_assoc]
    apply alone_cacheDelete
    apply alone_cacheDelete
    apply ih
    rw [purgeTrail, List.flatMap_cons] at hf
    simp only [List.append_assoc, List.cons_append, List.nil_append] at hf ⊢
    exact hf

theorem alone_revokeUserSessions {u : String} {f : Unit → M β}
    (hf : ∀ t rank rank' t', Alone cfg d t₀ (f ()) Q (h ++ revokerTrail u t
      ((SessionQuery.activeOf u t).eval rank (seen d h).sessions)
      ((SessionQuery.unrevokedOf u).eval rank' (seen d h).sessions) t')) :
    Alone cfg d t₀ (revokeUserSessions u >>= f) Q h := by
  simp only [revokeUserSessions, bind_assoc]
  apply alone_revokeAll
  intro t rank rank' t'
  apply alone_purgeUser
  have happ := hf t rank rank' t'
  simp only [revokerTrail, List.append_assoc, List.cons_append] at happ ⊢
  exact happ

theorem still_purgeTrail (sessions : List UserSession) :
    ∀ a ∈ purgeTrail sessions, a.still = true := by
  intro a ha
  obtain ⟨s, -, rfl | rfl⟩ := mem_purgeTrail.mp ha <;> rfl

theorem ledger_revokerTrail (h : List Act) (u : String) (t : Time)
    (active rows : List SessionModel) (t' : Time) :
    ledger (h ++ revokerTrail u t active rows t') =
      ((ledger h).1, (ledger h).2 ++ shutdown rows t') := by
  have hsplit : h ++ revokerTrail u t active rows t' =
      h ++ [.clock t, .readSessions (.activeOf u t) active, .readSessions (.unrevokedOf u) rows,
        .clock t'] ++ revocations rows t' ++ purgeTrail (active.map SessionModel.toEntity) := by
    simp [revokerTrail, massTrail]
  rw [hsplit, ledger_still (still_purgeTrail _), ledger_revocations,
    ledger_still (by simp [Act.still])]

theorem did_lockOut {x n : UserModel} {ws : List Write} {l : List Act} (t t' : Time)
    (rank rank' : String → Nat) (hl : ledger l = ([], ws)) (hmakes : Makes d x n ws)
    (hi : Indexed d.users) (hx : d.users.get x.id = some x) (hrev : x.Revises n)
    (hout : ¬ n.InService) :
    Did cfg d (l ++ revokerTrail x.id t
      ((SessionQuery.activeOf x.id t).eval rank (seen d l).sessions)
      ((SessionQuery.unrevokedOf x.id).eval rank' (seen d l).sessions) t' ++
        [.committed, .cacheDeleted (.user x.id)]) (.expel x.id x n t') := by
  have hseen : seen d l = d.applyAll ws := by rw [seen, hl, List.nil_append]
  have hrevoked := ledger_revokerTrail l x.id t
    ((SessionQuery.activeOf x.id t).eval rank (d.applyAll ws).sessions)
    ((SessionQuery.unrevokedOf x.id).eval rank' (d.applyAll ws).sessions) t'
  rw [hl] at hrevoked
  rw [hseen]
  exact did_expel (ledger_saved hrevoked _) (by simp [revokerTrail, massTrail]) hmakes hi hx hrev
    hout

theorem comes_changeStatus (hi : Indexed d.users) {u : String} {st : UserStatus} :
    Alone cfg d t₀ (changeStatus u st) (Comes cfg d (SetsStatus u st)) [] := by
  unfold changeStatus
  apply alone_getUser checking_nil
  · intro x hx hlive
    obtain rfl : x.id = u := Keyed.key_of_get hx
    cases hto : x.toEntity.transitionTo st with
    | error y => exact ⟨.idle, .failed y, did_idle rfl⟩
    | ok user =>
      obtain rfl := User.transitionTo_ok hto
      have hrev : ∀ t, x.Revises { x with status := st, updatedAt := t } := fun t =>
        ⟨hlive, rfl, rfl, rfl, rfl, User.transitionTo_valid hto⟩
      change Alone cfg d t₀ (setStatus x.id st >>= _) _ _
      apply alone_revise (by simp [Act.checks]) hx
      · intro t l ws hl hmakes
        by_cases hst : st ∈ lockoutStatuses
        · have hout : ¬ UserModel.InService { x with status := st, updatedAt := t } :=
            fun hin => hin.2 hst
          simp only [if_pos hst]
          apply alone_revokeUserSessions
          intro t₁ rank rank' t₂
          apply alone_commit
          apply alone_cacheDelete
          refine ⟨_, .lockedOut x t t₂ hst, ?_⟩
          have hdid : Did cfg d _ (.expel x.id x _ t₂) :=
            did_lockOut t₁ t₂ rank rank' hl hmakes hi hx (hrev t) hout
          simp only [List.append_assoc, List.cons_append, List.nil_append] at hdid ⊢
          exact hdid
        · simp only [if_neg hst]
          apply alone_commit
          apply alone_cacheDelete
          have hdid : Did cfg d _ (.amend x.id x _) :=
            did_amend (ledger_saved hl (.user x.id)) hmakes hi hx (hrev t) fun hs => ⟨hs.1, hst⟩
          refine ⟨_, .moved x t hst, ?_⟩
          simp only [List.append_assoc, List.cons_append, List.nil_append] at hdid ⊢
          exact hdid
      · exact fun y l hl => ⟨.idle, .failed y, did_idle hl⟩
  · exact fun _ => ⟨.idle, .failed _, did_idle rfl⟩

theorem comes_deleteUser (hi : Indexed d.users) {u : String} :
    Alone cfg d t₀ (deleteUser u) (Comes cfg d (Deletes u)) [] := by
  unfold deleteUser
  apply alone_getUser checking_nil
  · intro x hx hlive
    obtain rfl : x.id = u := Keyed.key_of_get hx
    unfold User.deactivate
    rw [bind_assoc]
    apply alone_raiseIf
    · exact fun _ => ⟨.idle, .failed _, did_idle rfl⟩
    intro _
    rw [bind_assoc]
    apply alone_now
    intro t _
    rw [pure_bind]
    unfold updateFields
    rw [bind_assoc]
    apply alone_raiseIf (fun hc => by cases hc)
    intro _
    apply alone_revise (by simp [Act.checks]) hx
    · intro t' l ws hl hmakes
      have hout : ¬ UserModel.InService { x with deletedAt := some t, updatedAt := t' } := by
        intro hin
        cases hin.1
      apply alone_revokeUserSessions
      intro t₁ rank rank' t₂
      apply alone_commit
      rw [← bind_pure (cacheDelete _)]
      apply alone_cacheDelete
      refine ⟨_, .deleted x t t' t₂, ?_⟩
      have hdid : Did cfg d _ (.expel x.id x _ t₂) :=
        did_lockOut t₁ t₂ rank rank' hl hmakes hi hx ⟨hlive, rfl, rfl, rfl, rfl, .inl rfl⟩ hout
      simp only [List.append_assoc, List.cons_append, List.nil_append] at hdid ⊢
      exact hdid
    · exact fun y l hl => ⟨.idle, .failed y, did_idle hl⟩
  · exact fun _ => ⟨.idle, .failed _, did_idle rfl⟩

end AsyncPulse
