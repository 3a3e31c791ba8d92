import AsyncPulse.Registration
set_option autoImplicit false

namespace AsyncPulse
open Effect

variable {cfg : Config} {d : Database} {t₀ : Time}

def UserModel.Meets (x : UserModel) (p : UserUpdate) : Prop :=
  p.email = some x.email ∨ p.username = some x.username

instance (x : UserModel) (p : UserUpdate) : Decidable (x.Meets p) :=
  inferInstanceAs (Decidable (_ ∨ _))

def UserModel.revised (x : UserModel) (p : UserUpdate) (t : Time) : UserModel :=
  { x with
    email := p.email.getD x.email
    username := p.username.getD x.username
    updatedAt := t }

def UserUpdate.fields (p : UserUpdate) : List Field :=
  (p.email.map Field.email).toList ++ (p.username.map Field.username).toList

theorem foldl_fields (p : UserUpdate) (x : UserModel) (t : Time) :
    { p.fields.foldl UserModel.setField x with updatedAt := t } = x.revised p t := by
  obtain ⟨email, username⟩ := p
  cases email <;> cases username <;> rfl

theorem fields_allowed (p : UserUpdate) : p.fields.any Field.forbidden = false := by
  obtain ⟨email, username⟩ := p
  cases email <;> cases username <;> rfl

def Act.checks : Act → Bool
  | .readUsers _ _ | .clock _ => true
  | _ => false

def Checking (h : List Act) : Prop := ∀ a ∈ h, a.checks = true

@[simp] theorem checking_nil : Checking [] := by simp [Checking]

@[simp] theorem checking_append {h h' : List Act} :
    Checking (h ++ h') ↔ Checking h ∧ Checking h' := by
  simp only [Checking, List.mem_append, or_imp, forall_and]

@[simp] theorem checking_cons {a : Act} {h : List Act} :
    Checking (a :: h) ↔ a.checks = true ∧ Checking h := by simp [Checking]

section

variable {h : List Act} (hh : Checking h)
include hh

theorem Checking.seen : AsyncPulse.seen d h = d := by
  have hstill : ∀ a ∈ h, a.still = true := by
    intro a ha
    have hc := hh a ha
    cases a <;> first | rfl | cases hc
  simpa using seen_still (d := d) (h := []) hstill

theorem Checking.ledger_eq : ledger h = ([], []) := by
  have hstill : ∀ a ∈ h, a.still = true := by
    intro a ha
    have hc := hh a ha
    cases a <;> first | rfl | cases hc
  simpa using ledger_still (h := []) hstill

theorem Checking.not_committed : .committed ∉ h := fun hm => by cases hh _ hm

theorem Checking.not_refused (v : Write) : .refused v ∉ h := fun hm => by cases hh _ hm

end

/-- Another user who is not deleted has what is asked for. -/
def Occupied (d : Database) (u : String) (p : UserUpdate) : Prop :=
  ∃ y ∈ d.users.rows, y.id ≠ u ∧ y.Meets p ∧ y.deletedAt = none

inductive UpdateRun (d : Database) (u : String) (p : UserUpdate) :
    Except Exc User → List Act → Prop where
  | missing {h : List Act} : Checking h → (∀ x, d.users.get u = some x → x.deletedAt ≠ none) →
      UpdateRun d u p (.error (.userNotFound u)) h
  | taken {x : UserModel} {m : String} {h : List Act} : Checking h → d.users.get u = some x →
      x.deletedAt = none → Occupied d u p →
      UpdateRun d u p (.error (.userAlreadyExists m)) h
  | empty {x : UserModel} {h : List Act} : Checking h → d.users.get u = some x →
      x.deletedAt = none → p.fields = [] → UpdateRun d u p (.ok x.toEntity) h
  | unchanged {x : UserModel} {t : Time} {h : List Act} : Checking h → d.users.get u = some x →
      x.deletedAt = none → ¬ Occupied d u p → x.revised p t = x →
      UpdateRun d u p (.ok x.toEntity) (h ++ [.committed, .cacheDeleted (.user u)])
  | refused {x : UserModel} {t : Time} {h : List Act} {e : Exc} : Checking h →
      d.users.get u = some x → x.deletedAt = none → ¬ Occupied d u p → x.revised p t ≠ x →
      (Write.updateUser x (x.revised p t)).Refusal d e →
      UpdateRun d u p (.error e) (h ++ [.refused (.updateUser x (x.revised p t))])
  | updated {x : UserModel} {t : Time} {h : List Act} : Checking h → d.users.get u = some x →
      x.deletedAt = none → ¬ Occupied d u p → x.revised p t ≠ x →
      d.admits (.updateUser x (x.revised p t)) = true →
      (Write.updateUser x (x.revised p t)).fits = true →
      UpdateRun d u p (.ok (x.revised p t).toEntity)
        (h ++ [.wrote (.updateUser x (x.revised p t)), .committed, .cacheDeleted (.user u)])

variable {β : Type} {Q : Except Exc β → List Act → Prop} {h : List Act}

theorem alone_getUser {u : String} (hh : Checking h) {f : User → M β}
    (hfound : ∀ x, d.users.get u = some x → x.deletedAt = none →
      Alone cfg d t₀ (f x.toEntity) Q (h ++ [Act.readUsers (.byId u) [x]]))
    (hmissing : (∀ x, d.users.get u = some x → x.deletedAt ≠ none) →
      Q (.error (.userNotFound u)) (h ++ [Act.readUsers (.byId u) []])) :
    Alone cfg d t₀ (getUser u >>= f) Q h := by
  have hsel : ∀ x : UserModel, (UserQuery.byId u).selects x = true ↔
      x.id = u ∧ x.deletedAt = none := by simp [UserQuery.selects]
  unfold getUser getById
  rw [bind_assoc]
  apply alone_findUser (by simp)
  · intro hnone
    rw [hh.seen] at hnone
    apply hmissing
    intro x hx hlive
    have hrow := (Keyed.get_eq_some.mp hx)
    have hfalse := hnone x hrow.1
    rw [(hsel x).mpr ⟨hrow.2, hlive⟩] at hfalse
    cases hfalse
  · intro x hx hx' _
    rw [hh.seen] at hx
    obtain ⟨hid, hlive⟩ := (hsel x).mp hx'
    exact hfound x (hid ▸ Keyed.get_of_mem hx) hlive
  · intro rows x hx y hy hne hx' hy'
    rw [hh.seen] at hx hy
    exact absurd (d.users.eq_of_key hx hy (((hsel x).mp hx').1.trans ((hsel y).mp hy').1.symm)) hne

theorem alone_checkFree {u : String} {q : String → UserQuery} {find : String → M (Option User)}
    {detail : String} {v : Option String} (hfind : find = fun s => findUser (q s))
    (hq : ∀ s o l, q s ≠ .page o l) (hh : Checking h)
    (hunique : ∀ s, v = some s → ∀ x ∈ d.users.rows, ∀ y ∈ d.users.rows,
      (q s).selects x = true → (q s).selects y = true → x = y) {f : Unit → M β}
    (hfree : (∀ s, v = some s → ∀ y ∈ d.users.rows, (q s).selects y = true → y.id = u) →
      ∀ l, Checking l → Alone cfg d t₀ (f ()) Q (h ++ l))
    (htaken : ∀ s y, v = some s → y ∈ d.users.rows → (q s).selects y = true → y.id ≠ u →
      ∀ l, Checking l → Q (.error (.userAlreadyExists detail)) (h ++ l)) :
    Alone cfg d t₀ (checkFree u find detail v >>= f) Q h := by
  subst hfind
  cases v with
  | none =>
    have happ := hfree (fun s hs => by cases hs) [] (by simp)
    rw [List.append_nil] at happ
    exact happ
  | some s =>
    unfold checkFree
    rw [bind_assoc]
    apply alone_findUser (hq s)
    · intro hnone
      rw [hh.seen] at hnone
      apply hfree _ _ (by simp [Act.checks])
      intro s' hs y hy hsel
      cases hs
      rw [hnone y hy] at hsel
      cases hsel
    · intro x hx hsel honly
      rw [hh.seen] at hx honly
      apply alone_raiseIf
      · intro hne
        exact htaken s x rfl hx hsel hne _ (by simp [Act.checks])
      · intro heq
        apply hfree _ _ (by simp [Act.checks])
        intro s' hs y hy hsel'
        cases hs
        rw [honly y hy hsel']
        exact not_not.mp heq
    · intro rows x hx y hy hne hsel hsel'
      rw [hh.seen] at hx hy
      exact absurd (hunique s rfl x hx y hy hsel hsel') hne

theorem eval_row {u : String} {rank : String → Nat} {t : Users} {x : UserModel}
    (hx : t.get u = some x) : (UserQuery.row u).eval rank t = [x] := by
  have hmem : ∀ y, y ∈ (UserQuery.row u).eval rank t ↔ y ∈ [x] := by
    intro y
    rw [UserQuery.mem_eval (by simp), List.mem_singleton]
    simp only [UserQuery.selects, decide_eq_true_eq]
    rw [← Keyed.get_eq_some, hx, Option.some.injEq, eq_comm]
  exact List.perm_singleton.mp ((List.perm_ext_iff_of_nodup (UserQuery.nodup_eval _ rank t)
    (List.nodup_singleton x)).mpr hmem)

theorem alone_changeRow {u : String} {x : UserModel} (hh : Checking h)
    (hx : d.users.get u = some x) (g : UserModel → UserModel) {f : User → M β}
    (hsame : ∀ t l, Checking l → { g x with updatedAt := t } = x →
      Alone cfg d t₀ (f x.toEntity) Q (h ++ l))
    (hwrote : ∀ t l, Checking l → { g x with updatedAt := t } ≠ x →
      d.admits (.updateUser x { g x with updatedAt := t }) = true →
      (Write.updateUser x { g x with updatedAt := t }).fits = true →
        Alone cfg d t₀ (f (UserModel.toEntity { g x with updatedAt := t })) Q
          (h ++ l ++ [Act.wrote (.updateUser x { g x with updatedAt := t })]))
    (hrefused : ∀ t l e, Checking l → { g x with updatedAt := t } ≠ x →
      (Write.updateUser x { g x with updatedAt := t }).Refusal d e →
        Q (.error e) (h ++ l ++ [Act.refused (.updateUser x { g x with updatedAt := t })])) :
    Alone cfg d t₀ (changeRow u g >>= f) Q h := by
  unfold changeRow
  rw [bind_assoc]
  apply alone_selectUsers
  intro rank
  rw [hh.seen, eval_row hx]
  change Alone cfg d t₀ ((now >>= fun t => _) >>= f) Q _
  rw [bind_assoc]
  apply alone_now
  intro t _
  have hl : Checking [.readUsers (.row u) [x], .clock t] := by simp [Act.checks]
  rw [List.append_assoc]
  dsimp only [List.cons_append, List.nil_append]
  split
  · rename_i heq
    rw [pure_bind]
    have happ := hsame t _ hl heq
    rw [heq]
    exact happ
  · rename_i hne
    rw [bind_assoc]
    apply alone_write
    · intro ha hf
      rw [Checking.seen (by simp [hh, Act.checks])] at ha
      exact hwrote t _ hl hne ha hf
    · intro e he
      rw [Checking.seen (by simp [hh, Act.checks])] at he
      exact hrefused t _ e hl hne he

theorem alone_updateUser {u : String} {p : UserUpdate} (hi : Indexed d.users) :
    Alone cfg d t₀ (updateUser u p) (UpdateRun d u p) [] := by
  have hemail : ∀ (s : String) (y : UserModel), (UserQuery.byEmail s).selects y = true ↔
      y.email = s ∧ y.deletedAt = none := by simp [UserQuery.selects]
  have hname : ∀ (s : String) (y : UserModel), (UserQuery.byUsername s).selects y = true ↔
      y.username = s ∧ y.deletedAt = none := by simp [UserQuery.selects]
  unfold updateUser
  apply alone_getUser checking_nil
  · intro x hx hlive
    have h₁ : Checking ([] ++ [Act.readUsers (.byId u) [x]]) := by simp [Act.checks]
    have htaken : ∀ {h m y}, Checking h → y ∈ d.users.rows → y.id ≠ u → y.Meets p →
        y.deletedAt = none → UpdateRun d u p (.error (.userAlreadyExists m)) h :=
      fun hh hy hne hm hl => .taken hh hx hlive ⟨_, hy, hne, hm, hl⟩
    apply alone_checkFree (q := .byEmail) rfl (by simp) h₁
    · intro s _ y hy z hz hy' hz'
      exact hi.email y hy z hz (((hemail s y).mp hy').1.trans ((hemail s z).mp hz').1.symm)
    · intro hfree₁ l₂ h₂
      have h₁₂ := checking_append.mpr ⟨h₁, h₂⟩
      apply alone_checkFree (q := .byUsername) rfl (by simp) h₁₂
      · intro s _ y hy z hz hy' hz'
        exact hi.username y hy z hz (((hname s y).mp hy').1.trans ((hname s z).mp hz').1.symm)
      · intro hfree₂ l₃ h₃
        have h₁₃ := checking_append.mpr ⟨h₁₂, h₃⟩
        have hfree : ¬ Occupied d u p := by
          intro ho
          obtain ⟨y, hy, hne, hmeets, hl⟩ := ho
          cases hmeets with
          | inl he => exact hne (hfree₁ _ he y hy ((hemail _ y).mpr ⟨rfl, hl⟩))
          | inr hn => exact hne (hfree₂ _ hn y hy ((hname _ y).mpr ⟨rfl, hl⟩))
        change Alone cfg d t₀ (if p.fields = [] then _ else _) _ _
        split
        · rename_i hnil
          exact .empty h₁₃ hx hlive hnil
        · change Alone cfg d t₀ (updateFields x.id p.fields >>= _) _ _
          unfold updateFields
          rw [fields_allowed, bind_assoc]
          apply alone_raiseIf (fun hc => by cases hc)
          intro _
          have hid : x.id = u := Keyed.key_of_get hx
          rw [hid]
          apply alone_changeRow h₁₃ hx
          · intro t l hl heq
            rw [foldl_fields] at heq
            apply alone_commit
            apply alone_cacheDelete
            rw [List.append_assoc]
            exact .unchanged (checking_append.mpr ⟨h₁₃, hl⟩) hx hlive hfree heq
          · intro t l hl hne ha hf
            rw [foldl_fields] at hne ha hf ⊢
            apply alone_commit
            apply alone_cacheDelete
            rw [List.append_assoc, List.append_assoc]
            exact .updated (checking_append.mpr ⟨h₁₃, hl⟩) hx hlive hfree hne ha hf
          · intro t l e hl hne he
            rw [foldl_fields] at hne he ⊢
            exact .refused (checking_append.mpr ⟨h₁₃, hl⟩) hx hlive hfree hne he
      · intro s y hs hy hsel hne l hl
        obtain ⟨hys, hdel⟩ := (hname s y).mp hsel
        exact htaken (checking_append.mpr ⟨h₁₂, hl⟩) hy hne (.inr (hys ▸ hs)) hdel
    · intro s y hs hy hsel hne l hl
      obtain ⟨hys, hdel⟩ := (hemail s y).mp hsel
      exact htaken (checking_append.mpr ⟨h₁, hl⟩) hy hne (.inl (hys ▸ hs)) hdel
  · exact fun hmissing => .missing (by simp [Act.checks]) hmissing

end AsyncPulse
