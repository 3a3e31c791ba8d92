import AsyncPulse.SessionTraces
set_option autoImplicit false

namespace AsyncPulse
open Effect

variable {cfg : Config} {k : Call} {h : List Act} {α : Type} {Q : Except Exc α → List Act → Prop}

theorem traced_getUser {u : String} {f : User → M α} (hl : Lawful cfg k h) (ho : Open h)
    (hi : ∀ r, .wrote (.insertUser r) ∉ h)
    (hok : ∀ x, x.id = u → x.deletedAt = none → Lawful cfg k (h ++ [Act.readUsers (.byId u) [x]]) →
      Traced cfg k (f x.toEntity) Q (h ++ [Act.readUsers (.byId u) [x]]))
    (herr : Q (.error (.userNotFound u)) (h ++ [Act.readUsers (.byId u) []])) :
    Traced cfg k (getUser u >>= f) Q h := by
  unfold getUser
  rw [bind_assoc]
  refine traced_findUser hl ho hi (fun _ => herr) (fun x hsel _ hl₁ => ?_) fun rows _ hq =>
    absurd rfl (hq u)
  have hx : x.id = u ∧ x.deletedAt = none := by simpa [UserQuery.selects] using hsel
  exact hok x hx.1 hx.2 hl₁

theorem UserModel.setField_profile (m : UserModel) {f : Field}
    (hf : (∃ v, f = .email v) ∨ ∃ v, f = .username v) :
    m.setField f = { m with email := (m.setField f).email, username := (m.setField f).username } := by
  rcases hf with ⟨v, rfl⟩ | ⟨v, rfl⟩ <;> rfl

theorem UserModel.setFields_profile {fields : List Field}
    (hf : ∀ f ∈ fields, (∃ v, f = .email v) ∨ ∃ v, f = .username v) (m : UserModel) :
    fields.foldl setField m = { m with
      email := (fields.foldl setField m).email, username := (fields.foldl setField m).username } := by
  induction fields generalizing m with
  | nil => rfl
  | cons f fields ih =>
    have hm := m.setField_profile (hf f (by simp))
    have hrest := ih (fun f' hf' => hf f' (by simp [hf'])) (m.setField f)
    simp only [List.foldl_cons]
    rw [hrest, hm]

theorem not_bars {l n : UserModel} (hs : n.status = l.status) (hd : n.deletedAt = l.deletedAt) :
    ¬ Bars l n := by
  simp [Bars, hs, hd]

theorem mem_wrote_changeTrail {x n : UserModel} {t : Time} {v : Write}
    (hm : .wrote v ∈ changeTrail x n t) : v = .updateUser x n := by
  unfold changeTrail at hm
  split at hm <;> simp at hm
  exact hm

theorem tidy_change {x n : UserModel} {t : Time} {l : List Act} (hw : ∀ v, .wrote v ∉ h)
    (hl : ∀ v, .wrote v ∉ l) (hd : .cacheDeleted (.user x.id) ∈ l) :
    Tidy (h ++ changeTrail x n t ++ l) := by
  refine ⟨fun _ a b hm => ?_, fun _ a b hm => ?_⟩
  · have hm' : .wrote (.updateSession a b) ∈ changeTrail x n t := by simpa [hw, hl] using hm
    cases mem_wrote_changeTrail hm'
  · have hm' : .wrote (.updateUser a b) ∈ changeTrail x n t := by simpa [hw, hl] using hm
    cases mem_wrote_changeTrail hm'
    exact List.mem_append_right _ hd

theorem changeTrail_plain {x n : UserModel} {t : Time} :
    .committed ∉ changeTrail x n t ∧ .closed ∉ changeTrail x n t ∧
      (∀ u rows, .readSessions (.unrevokedOf u) rows ∉ changeTrail x n t) ∧
      ∀ r, .wrote (.insertSession r) ∉ changeTrail x n t := by
  unfold changeTrail
  split <;> simp

theorem traced_commitChange {x n : UserModel} {t : Time} {u : String} {f : Unit → M α}
    (hl : Lawful cfg k (h ++ changeTrail x n t)) (hr : Reading h) (hb : ¬ Bars x n) (hid : x.id = u)
    (hf : Tidy (h ++ changeTrail x n t ++ [Act.committed, .cacheDeleted (.user u)]) →
      Traced cfg k (f ()) Q (h ++ changeTrail x n t ++ [Act.committed, .cacheDeleted (.user u)])) :
    Traced cfg k (commit >>= fun _ => cacheDelete (.user u) >>= f) Q (h ++ changeTrail x n t) := by
  have ho := hr.opened
  have hw := hr.unwritten
  obtain ⟨hc, hcl, hmass, -⟩ := changeTrail_plain (x := x) (n := n) (t := t)
  refine traced_commit hl ⟨⟨by simp [ho.1, hc], by simp [ho.2, hcl]⟩, ?_, ?_⟩ fun hl₁ => ?_
  · simp [hr.not_mass, hmass]
  · intro a b hab hbars
    have hm' : .wrote (.updateUser a b) ∈ changeTrail x n t := by simpa [hw] using hab
    cases mem_wrote_changeTrail hm'
    exact absurd hbars hb
  refine traced_cacheDelete hl₁ fun hl₂ => ?_
  rw [List.append_assoc (h ++ changeTrail x n t)] at hl₂ ⊢
  exact hf (tidy_change hw (by simp) (by simp [hid]))

theorem traced_checkFree {u detail : String} {find : String → M (Option User)}
    {q : String → UserQuery} (hq : ∀ v, find v = findUser (q v)) {new : Option String}
    {f : Unit → M α} (hl : Lawful cfg k h) (ho : Open h) (hi : ∀ r, .wrote (.insertUser r) ∉ h)
    (hf : ∀ l, Lawful cfg k (h ++ l) → Reading l → Traced cfg k (f ()) Q (h ++ l))
    (herr : ∀ e l, Reading l → Q (.error e) (h ++ l)) :
    Traced cfg k (checkFree u find detail new >>= f) Q h := by
  unfold checkFree
  cases new with
  | none => simpa using hf [] (by simpa using hl) (by simp)
  | some v =>
    simp only [hq]
    rw [bind_assoc]
    refine traced_findUser hl ho hi (fun hl₁ => ?_) (fun x _ _ hl₁ => ?_) fun rows hl₁ _ => ?_
    · simpa using hf _ hl₁ (by simp [Act.reads])
    · refine traced_raiseIf (fun _ => herr _ _ (by simp [Act.reads])) fun _ => ?_
      exact hf _ hl₁ (by simp [Act.reads])
    · exact herr _ _ (by simp [Act.reads])

theorem traced_createUser {p : UserCreate} (hk : k = .createUser p) :
    Traced cfg k (createUser p) (fun _ h' => Tidy h') [] := by
  unfold createUser
  refine traced_findUser .nil (by simp [Open]) (by simp) (fun hl₁ => ?_) (fun x _ _ hl₁ => ?_)
    fun rows hl₁ _ => tidy_of_uncommitted (by simp)
  · refine traced_uuid4 hl₁ fun id _ _ hl₂ => ?_
    refine traced_hashPassword hl₂ (fun pw hl₃ => ?_) fun y _ => tidy_of_uncommitted (by simp)
    unfold createRow
    rw [bind_assoc]
    refine traced_now hl₃ fun t _ hl₄ => ?_
    rw [bind_assoc]
    refine traced_now hl₄ fun t' _ hl₅ => ?_
    simp only [List.nil_append, List.cons_append, bind_assoc] at hl₅ ⊢
    refine traced_write hl₅ ⟨by simp [Open], Call.authorised_of_not_request (by rw [hk]; rfl) _, ?_⟩
      (fun hl₆ => ?_) fun y _ _ => tidy_of_uncommitted (by simp)
    · exact ⟨by simp, rfl, rfl, by simp [lockoutStatuses]⟩
    · refine traced_commit hl₆ ⟨by simp [Open], by simp, by simp⟩ fun _ => ?_
      exact ⟨fun _ a b hm => by simp at hm, fun _ a b hm => by simp at hm⟩
  · simp only
    split <;> exact tidy_of_uncommitted (by simp)

theorem traced_updateUser {u : String} {p : UserUpdate} (hl : Lawful cfg k h) (hr : Reading h)
    (hauth : ∀ l n : UserModel, l.id = u → k.Authorised cfg h (.updateUser l n))
    (halter : ∀ h' (l n : UserModel), n =
      { l with email := n.email, username := n.username, updatedAt := n.updatedAt } →
        k.Alters h' l n) :
    Traced cfg k (updateUser u p) (fun _ h' => Tidy h') h := by
  have htidy : ∀ l, Reading l → Tidy (h ++ l) := fun l hl' =>
    tidy_of_uncommitted (by simp [hr.opened.1, hl'.opened.1])
  unfold updateUser
  refine traced_getUser hl hr.opened (fun r => hr.unwritten _) (fun x hid _ hl₁ => ?_)
    (htidy _ (by simp [Act.reads]))
  refine traced_checkFree (fun v => rfl) hl₁ (by simp [hr, Act.reads, Reading.opened])
    (by simp [hr.unwritten]) (fun l₁ hl₂ hr₁ => ?_) fun e l hr' => ?_
  swap
  · rw [List.append_assoc]
    exact htidy _ (by simp [Act.reads, hr'])
  have hread₁ : Reading (h ++ [Act.readUsers (.byId u) [x]] ++ l₁) := by simp [hr, hr₁, Act.reads]
  refine traced_checkFree (fun v => rfl) hl₂ hread₁.opened (fun r => hread₁.unwritten _)
    (fun l₂ hl₃ hr₂ => ?_) fun e l hr' => ?_
  swap
  · simp only [List.append_assoc]
    exact htidy _ (by simp [Act.reads, hr₁, hr'])
  have hread₂ : Reading (h ++ [Act.readUsers (.byId u) [x]] ++ l₁ ++ l₂) := by
    simp [hr, hr₁, hr₂, Act.reads]
  simp only
  have hfields : ∀ f ∈ (p.email.map Field.email).toList ++ (p.username.map Field.username).toList,
      (∃ v, f = .email v) ∨ ∃ v, f = .username v := by
    intro f hf
    rcases List.mem_append.mp hf with hf | hf
    · obtain ⟨v, -, rfl⟩ : ∃ v, p.email = some v ∧ Field.email v = f := by simpa using hf
      exact .inl ⟨v, rfl⟩
    · obtain ⟨v, -, rfl⟩ : ∃ v, p.username = some v ∧ Field.username v = f := by simpa using hf
      exact .inr ⟨v, rfl⟩
  split
  · exact tidy_of_uncommitted hread₂.opened.1
  · unfold updateFields
    rw [bind_assoc]
    refine traced_raiseIf (fun _ => tidy_of_uncommitted hread₂.opened.1) fun _ => ?_
    refine traced_changeRow hl₃ hread₂.opened (fun r => hread₂.unwritten _)
      (fun r => hread₂.unwritten _) (fun y => ?_) (fun a b hab => ?_) (fun y t _ => ?_)
      (fun y n t hyid hn hl₄ => ?_) fun e l hl' hc => ?_
    · rw [UserModel.setFields_profile hfields y]
      exact ⟨rfl, rfl⟩
    · have := (hauth a b (hab.trans hid)).mono ([.readUsers (.byId u) [x]] ++ l₁ ++ l₂)
      simpa using this
    · apply halter
      rw [UserModel.setFields_profile hfields y]
    · rw [UserModel.setFields_profile hfields y] at hn
      exact traced_commitChange hl₄ hread₂ (not_bars (hn ▸ rfl) (hn ▸ rfl)) (hyid.trans hid)
        fun htidy => htidy
    · exact tidy_of_uncommitted fun hm => (List.mem_append.mp hm).elim hread₂.opened.1 hc

theorem traced_setPassword {u pw : String} (hk : k = .setPassword u pw) :
    Traced cfg k (setPassword u pw) (fun _ h' => Tidy h') [] := by
  unfold setPassword
  refine traced_getUser .nil (by simp [Open]) (by simp) (fun x hid _ hl₁ => ?_)
    (tidy_of_uncommitted (by simp))
  refine traced_hashPassword hl₁ (fun s hl₂ => ?_) fun y _ => tidy_of_uncommitted (by simp)
  unfold setCredentials
  refine traced_changeRow hl₂ (by simp [Open]) (by simp) (by simp) (fun y => ⟨rfl, rfl⟩)
    (fun a b _ => Call.authorised_of_not_request (by rw [hk]; rfl) _) (fun y t _ => by rw [hk]; rfl)
    (fun y n t hyid hn hl₃ => ?_) fun e l hl' hc => tidy_of_uncommitted (by simp [hc])
  exact traced_commitChange hl₃ (by simp [Act.reads]) (not_bars (hn ▸ rfl) (hn ▸ rfl)) hyid
    fun htidy => htidy

theorem revokerTrail_plain (u : String) (t t' : Time) (active rows : List SessionModel) :
    .committed ∉ revokerTrail u t active rows t' ∧ .closed ∉ revokerTrail u t active rows t' ∧
      (∀ u' rows', .readSessions (.unrevokedOf u') rows' ∈ revokerTrail u t active rows t' ↔
        u' = u ∧ rows' = rows) ∧
      (∀ v, .wrote v ∈ revokerTrail u t active rows t' ↔
        ∃ r ∈ rows, v = .updateSession r { r with revokedAt := some t' }) := by
  simp only [revokerTrail, List.mem_append, mem_purgeTrail, List.mem_cons]
  refine ⟨by simp [massTrail, revocations], by simp [massTrail, revocations], ?_, ?_⟩
  · simp [mem_read_massTrail]
  · simp [mem_wrote_massTrail]

theorem traced_lockOut {x n : UserModel} {t : Time} {u : String} {f : Unit → M α}
    (hl : Lawful cfg k (h ++ changeTrail x n t)) (hk : k.RevokesAll cfg u) (hr : Reading h)
    (hid : x.id = u) (hauth : ∀ l n, l.userId = u → k.Authorised cfg h (.updateSession l n))
    (hok : ∀ l, Tidy (h ++ l) → Massed (h ++ l) u → Traced cfg k (f ()) Q (h ++ l))
    (herr : ∀ y l, .committed ∉ h ++ l → Q (.error y) (h ++ l)) :
    Traced cfg k (revokeUserSessions u >>= fun _ => commit >>= fun _ => cacheDelete (.user u) >>= f)
      Q (h ++ changeTrail x n t) := by
  have ho := hr.opened
  have hw := hr.unwritten
  obtain ⟨hc, hcl, hmass, hins⟩ := changeTrail_plain (x := x) (n := n) (t := t)
  refine traced_revokeUserSessions hl hk ⟨by simp [ho.1, hc], by simp [ho.2, hcl]⟩
    (by simp [hw, hins]) (fun a b hm => ?_) (by simp [hr.not_mass, hmass])
    (fun a b hab => (hauth a b hab).mono _)
    (fun t₁ active rows t₂ hrows hl₁ => ?_) fun y l hl' hc' => ?_
  · have hm' : .wrote (.updateSession a b) ∈ changeTrail x n t := by simpa [hw] using hm
    cases mem_wrote_changeTrail hm'
  · obtain ⟨hc₁, hcl₁, hmass₁, hwrote₁⟩ :=
      revokerTrail_plain u t₁ t₂ active rows
    refine traced_commit hl₁ ⟨⟨by simp [ho.1, hc, hc₁], by simp [ho.2, hcl, hcl₁]⟩, ?_, ?_⟩
      fun hl₂ => ?_
    · intro u' rows' hm r hrm
      obtain ⟨rfl, rfl⟩ : u' = u ∧ rows' = rows := by simpa [hr.not_mass, hmass, hmass₁] using hm
      exact ⟨_, List.mem_append_right _ ((hwrote₁ _).mpr ⟨r, hrm, rfl⟩)⟩
    · intro a b hm _
      have hm' : .wrote (.updateUser a b) ∈ changeTrail x n t := by
        simpa [hw, hwrote₁] using hm
      cases mem_wrote_changeTrail hm'
      exact ⟨rows, List.mem_append_right _ ((hmass₁ _ _).mpr ⟨hid, rfl⟩)⟩
    · refine traced_cacheDelete hl₂ fun hl₃ => ?_
      simp only [List.append_assoc]
      refine hok _ ⟨fun _ => purged_mass t₁ active rows ?_ hrows ?_ ?_ ?_,
        fun _ a b hm => ?_⟩ ⟨by simp, rows, ?_⟩
      · intro a b hm
        have hm' : .wrote (.updateSession a b) ∈ changeTrail x n t ∨
            ∃ r ∈ rows, Write.updateSession a b =
              .updateSession r { r with revokedAt := some t₂ } := by
          simpa only [List.mem_append, hw, hwrote₁, false_or, List.mem_singleton, reduceCtorEq,
            or_false] using hm
        rcases hm' with hm' | ⟨r, hrm, he⟩
        · cases mem_wrote_changeTrail hm'
        · cases he
          exact hrm
      · simp [revokerTrail]
      · simp [hmass₁]
      · intro a ha
        have hd : .cacheDeleted (.session a.id) ∈ revokerTrail u t₁ active rows t₂ :=
          List.mem_append_right _ (mem_purgeTrail_session.mpr ⟨a, ha, rfl⟩)
        simp [hd]
      · have hm' : .wrote (.updateUser a b) ∈ changeTrail x n t := by simpa [hw, hwrote₁] using hm
        cases mem_wrote_changeTrail hm'
        simp [hid]
      · simp [hmass₁]
  · simp only [List.append_assoc]
    exact herr y _ (by simp [ho.1, hc, hc'])

theorem traced_changeStatus {u : String} {st : UserStatus} (hk : k = .changeStatus u st) :
    Traced cfg k (changeStatus u st) (fun r h' => Tidy h' ∧
      ∀ v, r = .ok v → st ∈ lockoutStatuses → Massed h' u) [] := by
  have herr : ∀ e l, .committed ∉ l → Tidy l ∧
      ∀ v : User, .error e = (.ok v : Except Exc User) → st ∈ lockoutStatuses → Massed l u :=
    fun e l hc => ⟨tidy_of_uncommitted hc, fun v hv => by cases hv⟩
  unfold changeStatus
  refine traced_getUser .nil (by simp [Open]) (by simp) (fun x hid _ hl₁ => ?_)
    (herr _ _ (by simp))
  refine (Trace.wp_bind _ _ _ _ _).mpr ?_
  rw [Trace.wp_ret]
  cases htr : x.toEntity.transitionTo st with
  | error e => exact herr _ _ (by simp)
  | ok user =>
    have hst : user.status = st := by rw [User.transitionTo_ok htr]
    rw [Trace.after_ok, hst]
    unfold setStatus
    refine traced_changeRow hl₁ (by simp [Open]) (by simp) (by simp) (fun y => ⟨rfl, rfl⟩)
      (fun a b _ => Call.authorised_of_not_request (by rw [hk]; rfl) _) (fun y t hyid => ?_)
      (fun y n t hyid hn hl₂ => ?_) fun e l hl' hc => herr _ _ (by simpa using hc)
    · rw [hk]
      exact ⟨rfl, hyid, x, by simp, User.transitionTo_valid htr⟩
    have hread : Reading ([] ++ [Act.readUsers (.byId u) [x]]) := by simp [Act.reads]
    split
    · rename_i hlock
      refine traced_lockOut hl₂ (by rw [hk]; exact ⟨rfl, hlock⟩) hread hyid
        (fun a b _ => Call.authorised_of_not_request (by rw [hk]; rfl) _)
        (fun l htidy hmass => ⟨htidy, fun v _ _ => hmass⟩) fun e l hc => herr _ _ hc
    · rename_i hlock
      refine traced_commitChange hl₂ hread ?_ hyid fun htidy =>
        ⟨htidy, fun v _ hs => absurd hs hlock⟩
      rw [hn]
      rintro (⟨-, hb⟩ | ⟨hd, hd'⟩)
      · exact hlock hb
      · exact hd' hd

theorem traced_deleteUser {u : String} (hl : Lawful cfg k h) (hk : k.RevokesAll cfg u)
    (hr : Reading h) (hauth : ∀ v, k.Authorised cfg h v)
    (halter : ∀ h' (l n : UserModel),
      n = { l with deletedAt := n.deletedAt, updatedAt := n.updatedAt } → k.Alters h' l n) :
    Traced cfg k (deleteUser u) (fun r h' => Tidy h' ∧ (r = .ok () → Massed h' u)) h := by
  have herr : ∀ e l, .committed ∉ l → Tidy l ∧
      ((.error e : Except Exc Unit) = .ok () → Massed l u) :=
    fun e l hc => ⟨tidy_of_uncommitted hc, fun hv => by cases hv⟩
  unfold deleteUser
  refine traced_getUser hl hr.opened (fun r => hr.unwritten _) (fun x hid hd hl₁ => ?_)
    (herr _ _ (by simp [hr.opened.1]))
  unfold User.deactivate
  rw [bind_assoc]
  refine traced_raiseIf (fun _ => herr _ _ (by simp [hr.opened.1])) fun _ => ?_
  rw [bind_assoc]
  refine traced_now hl₁ fun t _ hl₂ => ?_
  have hread : Reading (h ++ [Act.readUsers (.byId u) [x]] ++ [Act.clock t]) := by
    simp [hr, Act.reads]
  simp only [pure_bind]
  unfold updateFields
  rw [bind_assoc]
  refine traced_raiseIf (fun _ => herr _ _ hread.opened.1) fun _ => ?_
  refine traced_changeRow hl₂ hread.opened (fun r => hread.unwritten _) (fun r => hread.unwritten _)
    (fun y => ⟨rfl, rfl⟩) (fun a b _ => ?_) (fun y t' _ => halter _ _ _ rfl)
    (fun y n t' hyid hn hl₃ => ?_) fun e l hl' hc => ?_
  · simpa using (hauth (.updateUser a b)).mono [.readUsers (.byId u) [x], .clock t]
  · rw [← bind_pure (cacheDelete _)]
    refine traced_lockOut hl₃ hk hread (hyid.trans hid) (fun a b _ => ?_)
      (fun l htidy hmass => ⟨htidy, fun _ => hmass⟩) fun e l hc => herr _ _ hc
    simpa using (hauth (.updateSession a b)).mono [.readUsers (.byId u) [x], .clock t]
  · exact herr _ _ fun hm => (List.mem_append.mp hm).elim hread.opened.1 hc

end AsyncPulse
