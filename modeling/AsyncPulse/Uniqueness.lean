import AsyncPulse.ProfileUpdate
import AsyncPulse.Sequence
set_option autoImplicit false

namespace AsyncPulse
open Effect

variable {cfg : Config} {d : Database} {t₀ : Time}

theorem admits_updateUser {l n : UserModel} : d.admits (.updateUser l n) = true ↔
    ∀ x ∈ d.users.rows, x.id ≠ l.id → (n.email = l.email ∨ x.email ≠ n.email) ∧
      (n.username = l.username ∨ x.username ≠ n.username) := by
  simp [Database.admits, or_iff_not_imp_left]

theorem column_ne {a b x y : String} (hxy : x ≠ y) (hfree : b = a ∨ y ≠ b) :
    column a b x ≠ y := by
  unfold column
  split
  · exact hxy
  · rename_i hne
    exact (hfree.resolve_left hne).symm

theorem Indexed.apply (hi : Indexed d.users) {v : Write} (ha : d.admits v = true) :
    Indexed (d.apply v).users := by
  cases v with
  | insertSession r => exact hi
  | updateSession l n => exact hi
  | insertUser r =>
    obtain ⟨hr, hfree⟩ := admits_insertUser.mp ha
    exact ⟨Keyed.Distinct.insert hi.email hr fun x hx => (hfree x hx).1,
      Keyed.Distinct.insert hi.username hr fun x hx => (hfree x hx).2⟩
  | updateUser l n =>
    have hfree := admits_updateUser.mp ha
    constructor
    · apply Keyed.Distinct.modify (f := UserModel.email) hi.email (UserModel.patch_id l n)
      intro x hx hxl y hy hyl
      exact column_ne (fun he => hyl (hi.email x hx y hy he ▸ hxl)) (hfree y hy hyl).1
    · apply Keyed.Distinct.modify (f := UserModel.username) hi.username (UserModel.patch_id l n)
      intro x hx hxl y hy hyl
      exact column_ne (fun he => hyl (hi.username x hx y hy he ▸ hxl)) (hfree y hy hyl).2

theorem alone_indexed {α : Type} {p : M α} {h : List Act}
    (hg : Guarded (fun d => Indexed d.users) d h) :
    Alone cfg d t₀ p (fun _ h => Guarded (fun d => Indexed d.users) d h) h := by
  induction p generalizing h with
  | ret r => exact hg
  | op e f ih =>
    intro r hr
    exact ⟨trivial, ih r (hg.snoc fun v hv => hg.2.apply (hr.admitted hv))⟩

variable {γ χ : Type} {C : MayCache Key Json γ χ} {gap : World γ → World γ → Prop} {n : Nat}
  {w w' : World γ} {m : Nat → Option Call}

theorem Between.run (h : Between cfg C m n w) {k : Call} {r : Except Exc Out}
    (hc : (app cfg C).Completed gap n k r w w') : ∃ w₁ cs, w₁.db = w.db ∧ w₁.hist n = [] ∧
      Vacant w₁ n ∧ (semantics cfg C).run n cs (k.prog cfg) w₁ = some (r, w') := by
  obtain ⟨c, w₁, cs, ht, -, -, hr⟩ := hc
  obtain ⟨-, rfl⟩ := app_tick ht
  exact ⟨w.setClock c.time, cs, rfl, h.provenance.idle n (h.unmade n (Nat.le_refl n)),
    ⟨h.pending n, h.locks⟩, hr⟩

theorem Indexed.completed (hi : Indexed w.db.users) (h : Between cfg C m n w) {k : Call}
    {r : Except Exc Out} (hc : (app cfg C).Completed gap n k r w w') : Indexed w'.db.users := by
  obtain ⟨w₁, cs, hdb, -, hw, hr⟩ := h.run hc
  obtain ⟨l, hplayed, hg⟩ := hw.run (alone_indexed ⟨hdb ▸ hi, hdb ▸ hi⟩) hr
  rw [hplayed.db]
  exact hg.1

theorem Indexed.seq {w₀ : World γ} (hi : Indexed w₀.db.users) (hw₀ : Init C w₀)
    {log : List (Call × Except Exc Out)} (hs : (app cfg C).Seq gap 0 w₀ log n w) :
    (∃ m, Between cfg C m n w) ∧ Indexed w.db.users := by
  have hinv := hs.invariant (P := fun n w => (∃ m, Between cfg C m n w) ∧ Indexed w.db.users) ?_
    ⟨⟨_, hw₀.between⟩, hi⟩
  · exact hinv
  · intro n k r s s' hs hc
    obtain ⟨⟨m, hb⟩, hi⟩ := hs
    obtain ⟨start, -, ht⟩ := hb.completed hc
    exact ⟨⟨_, ht.after⟩, hi.completed hb hc⟩

def Call.Collides : Call → UserModel → Prop
  | .createUser p, x => x.Holds p
  | .updateUser u p, x => x.id ≠ u ∧ x.Meets p
  | _, _ => False

def Call.Checked (t : Users) : Call → Prop
  | .updateUser u _ => ∃ x ∈ t.rows, x.id = u ∧ x.deletedAt = none
  | _ => True

/-- What the checks of a call let through violates no unique index, and what is in the way is
reported. The call has taken the users from `t` to `t'` and has answered `r`, and `h` is its
record. -/
structure Agrees (d : Database) (k : Call) (t' : Users) (r : Except Exc Out) (h : List Act) :
    Prop where
  passed : ∀ v, .refused v ∈ h → d.admits v = true
  reported : k.Checked d.users → (∃ x ∈ d.users.rows, k.Collides x) →
    t' = d.users ∧ ∃ m, r = .error (.userAlreadyExists m)

/-- Nobody is in the way, or the checks find one who is: for a registration just one. -/
def Call.Foreseen (t : Users) : Call → Prop
  | .createUser p => (∀ x ∈ t.rows, ¬ x.Holds p) ∨
    ∃ x ∈ t.rows, x.Holds p ∧ x.deletedAt = none ∧
      ∀ y ∈ t.rows, y.Holds p → y.deletedAt = none → y = x
  | .updateUser u p => (∃ x ∈ t.rows, x.id = u ∧ x.deletedAt = none) →
    (∀ x ∈ t.rows, x.id ≠ u → ¬ x.Meets p) ∨ ∃ x ∈ t.rows, x.id ≠ u ∧ x.Meets p ∧ x.deletedAt = none
  | _ => True

section

variable {k : Call} {t' : Users} {r : Except Exc Out} {h : List Act}

theorem Agrees.of_free (hfree : ∀ x ∈ d.users.rows, ¬ k.Collides x)
    (hpass : ∀ v, .refused v ∈ h → d.admits v = true) : Agrees d k t' r h :=
  ⟨hpass, fun _ hc => absurd hc (by simpa using hfree)⟩

theorem Agrees.free (ha : Agrees d k t' r h) (hchecked : k.Checked d.users)
    (hr : ∀ m, r ≠ .error (.userAlreadyExists m)) : ∀ x ∈ d.users.rows, ¬ k.Collides x := by
  intro x hx hc
  obtain ⟨-, m, hm⟩ := ha.reported hchecked ⟨x, hx, hc⟩
  exact hr m hm

end

theorem userAlreadyExists_taken (c : Prop) [Decidable c] :
    ∃ m, (if c then emailTaken else usernameTaken) = .userAlreadyExists m := by
  split
  · exact ⟨_, rfl⟩
  · exact ⟨_, rfl⟩

theorem Vacant.create_agrees {p : UserCreate} (hw : Vacant w n) (hnil : w.hist n = [])
    (hpw : ∀ salt pw x, cfg.hashpw salt pw = .error x → x = .valueError)
    {cs : List (Choice χ)} {r : Except Exc Out}
    (hr : (semantics cfg C).run n cs (Call.prog cfg (.createUser p)) w = some (r, w')) :
    Agrees w.db (.createUser p) w'.db.users r (w'.hist n) ↔
      Call.Foreseen w.db.users (.createUser p) := by
  obtain ⟨r', h, rfl, hplayed, hrun⟩ := hw.register hr
  have hchecked : Call.Checked w.db.users (.createUser p) := trivial
  rw [hplayed.hist, hnil, List.nil_append]
  cases hrun with
  | @taken x hx hholds hlive honly =>
    constructor
    · exact fun _ => .inr ⟨x, hx, hholds, hlive, honly⟩
    · intro _
      refine ⟨by simp, fun _ _ => ⟨by rw [hplayed.uncommitted (by simp)], ?_⟩⟩
      obtain ⟨m, hm⟩ := userAlreadyExists_taken (x.email = p.email)
      exact ⟨m, by rw [hm]; rfl⟩
  | @ambiguous x y _ hx hy hne hholds hholds' hlive hlive' =>
    constructor
    · intro ha
      exact absurd hholds (ha.free hchecked (by simp [Except.map, Exc.userAlreadyExists]) x hx)
    · intro hf
      cases hf with
      | inl hfree => exact absurd hholds (hfree x hx)
      | inr hone =>
        obtain ⟨z, -, -, -, hz⟩ := hone
        exact absurd ((hz x hx hholds hlive).trans (hz y hy hholds' hlive').symm) hne
  | @unhashed _ salt x hdeleted herr =>
    obtain rfl := hpw _ _ _ herr
    constructor
    · exact fun ha => .inl (ha.free hchecked (by simp [Except.map, Exc.userAlreadyExists]))
    · intro hf
      cases hf with
      | inl hfree => exact .of_free hfree (by simp)
      | inr hone =>
        obtain ⟨z, hz, hholds, hlive, -⟩ := hone
        exact absurd hlive (hdeleted z hz hholds)
  | @refused u salt hashed t t' x hdeleted _ hu hx =>
    have hadmits : w.db.admits (.insertUser (newRow p u hashed t t')) = true ↔
        ∀ x ∈ w.db.users.rows, ¬ x.Holds p := admits_newRow hu
    have hrefused : ∀ v, .refused v ∈ registrationTrail p u t t' ++
        [.refused (.insertUser (newRow p u hashed t t'))] ++ [Act.closed] →
        v = .insertUser (newRow p u hashed t t') := by
      simp [registrationTrail]
    constructor
    · intro ha
      exact .inl (hadmits.mp (ha.passed _ (by simp)))
    · intro hf
      cases hf with
      | inl hfree => exact .of_free hfree fun v hv => hrefused v hv ▸ hadmits.mpr hfree
      | inr hone =>
        obtain ⟨z, hz, hholds, hlive, -⟩ := hone
        exact absurd hlive (hdeleted z hz hholds)
  | registered hfree =>
    constructor
    · exact fun _ => .inl hfree
    · exact fun _ => .of_free hfree (by simp [registrationTrail])

theorem admits_revised {u : String} {p : UserUpdate} {x : UserModel} {t : Time}
    (hi : Indexed d.users) (hx : d.users.get u = some x) :
    d.admits (.updateUser x (x.revised p t)) = true ↔
      ∀ y ∈ d.users.rows, y.id ≠ u → ¬ y.Meets p := by
  obtain ⟨hx, hid⟩ := Keyed.get_eq_some.mp hx
  have hcolumn : ∀ (f : UserModel → String) (v : Option String), d.users.Distinct f →
      ∀ y ∈ d.users.rows, y.id ≠ u →
        (v.getD (f x) = f x ∨ f y ≠ v.getD (f x) ↔ v ≠ some (f y)) := by
    intro f v hf y hy hne
    have hxy : f y ≠ f x := fun he => hne (hf y hy x hx he ▸ hid)
    cases v with
    | none => simp
    | some s =>
      by_cases hs : f y = s
      · subst hs
        simp [hxy]
      · simp [hs, Ne.symm hs]
  rw [admits_updateUser, hid]
  apply forall₂_congr
  intro y hy
  apply forall_congr'
  intro hne
  rw [UserModel.Meets, not_or]
  exact and_congr (hcolumn UserModel.email p.email hi.email y hy hne)
    (hcolumn UserModel.username p.username hi.username y hy hne)

theorem Vacant.update {u : String} {p : UserUpdate} (hw : Vacant w n) (hi : Indexed w.db.users)
    {cs : List (Choice χ)} {r : Except Exc Out}
    (hr : (semantics cfg C).run n cs (Call.prog cfg (.updateUser u p)) w = some (r, w')) :
    ∃ r' h, r = r'.map Out.user ∧ Played C n w w' (h ++ [Act.closed]) ∧
      UpdateRun w.db u p r' h := by
  obtain ⟨l, hplayed, r', h, rfl, rfl, hrun⟩ := hw.run (alone_prog rfl (alone_updateUser hi)) hr
  exact ⟨r', h, rfl, hplayed, hrun⟩

theorem free_of_unchanged {u : String} {p : UserUpdate} {x : UserModel} {t : Time}
    (hi : Indexed d.users) (hx : d.users.get u = some x) (hsame : x.revised p t = x) :
    ∀ y ∈ d.users.rows, y.id ≠ u → ¬ y.Meets p := by
  rw [← admits_revised (t := t) hi hx, hsame, admits_updateUser]
  exact fun _ _ _ => ⟨.inl rfl, .inl rfl⟩

theorem Vacant.update_agrees {u : String} {p : UserUpdate} (hw : Vacant w n) (hnil : w.hist n = [])
    (hi : Indexed w.db.users) {cs : List (Choice χ)} {r : Except Exc Out}
    (hr : (semantics cfg C).run n cs (Call.prog cfg (.updateUser u p)) w = some (r, w')) :
    Agrees w.db (.updateUser u p) w'.db.users r (w'.hist n) ↔
      Call.Foreseen w.db.users (.updateUser u p) := by
  obtain ⟨r', h, rfl, hplayed, hrun⟩ := hw.update hi hr
  rw [hplayed.hist, hnil, List.nil_append]
  -- With nobody in the way both sides hold.
  have hboth : ∀ {t' r l}, (∀ y ∈ w.db.users.rows, y.id ≠ u → ¬ y.Meets p) →
      (∀ v, .refused v ∈ l → w.db.admits v = true) →
      (Agrees w.db (.updateUser u p) t' r l ↔ Call.Foreseen w.db.users (.updateUser u p)) :=
    fun hfree hpass =>
      ⟨fun _ _ => .inl hfree, fun _ => .of_free (fun y hy hc => hfree y hy hc.1 hc.2) hpass⟩
  cases hrun with
  | missing hh hnone =>
    have hnot : ¬ Call.Checked w.db.users (.updateUser u p) := by
      intro hc
      obtain ⟨x, hx, hid, hlive⟩ := hc
      exact hnone x (hid ▸ Keyed.get_of_mem hx) hlive
    constructor
    · exact fun _ hc => absurd hc hnot
    · intro _
      refine ⟨fun v hv => ?_, fun hc => absurd hc hnot⟩
      simp [hh.not_refused v] at hv
  | taken hh hx hlive hocc =>
    constructor
    · exact fun _ _ => .inr hocc
    · intro _
      refine ⟨fun v hv => ?_, fun _ _ => ⟨?_, _, rfl⟩⟩
      · simp [hh.not_refused v] at hv
      · rw [hplayed.uncommitted (by simp [hh.not_committed])]
  | empty hh hx hlive hnil =>
    apply hboth
    · intro y _ _ hm
      obtain ⟨email, username⟩ := p
      cases email <;> cases username <;> simp [UserUpdate.fields, UserModel.Meets] at hnil hm
    · intro v hv
      simp [hh.not_refused v] at hv
  | unchanged hh hx hlive hocc hsame =>
    apply hboth (free_of_unchanged hi hx hsame)
    intro v hv
    simp [hh.not_refused v] at hv
  | @refused x t h e hh hx hlive hocc hne he =>
    obtain ⟨hxmem, hid⟩ := Keyed.get_eq_some.mp hx
    have hadmits := admits_revised (p := p) (t := t) hi hx
    constructor
    · intro ha _
      exact .inl (hadmits.mp (ha.passed _ (by simp)))
    · intro hf
      cases hf ⟨x, hxmem, hid, hlive⟩ with
      | inl hfree =>
        refine .of_free (fun y hy hc => hfree y hy hc.1 hc.2) fun v hv => ?_
        obtain rfl : v = .updateUser x (x.revised p t) := by simpa [hh.not_refused v] using hv
        exact hadmits.mpr hfree
      | inr hocc' => exact absurd hocc' hocc
  | updated hh hx hlive hocc hne ha hf =>
    apply hboth ((admits_revised hi hx).mp ha)
    intro v hv
    simp [hh.not_refused v] at hv

/-- After any run of completed calls, the checks agree with the unique indexes just where nobody is
in the way or they find who is. -/
theorem prechecks_agree_iff {w₀ : World γ} (hw₀ : Init C w₀) (hi : Indexed w₀.db.users)
    (hpw : ∀ salt pw x, cfg.hashpw salt pw = .error x → x = .valueError)
    {log : List (Call × Except Exc Out)} (hs : (app cfg C).Seq gap 0 w₀ log n w) {k : Call}
    (hk : (∃ p, k = .createUser p) ∨ ∃ u p, k = .updateUser u p) {r : Except Exc Out}
    (hc : (app cfg C).Completed gap n k r w w') :
    Agrees w.db k w'.db.users r (w'.hist n) ↔ k.Foreseen w.db.users := by
  obtain ⟨⟨m, hb⟩, hi'⟩ := hi.seq hw₀ hs
  obtain ⟨w₁, cs, hdb, hnil, hw, hr⟩ := hb.run hc
  rw [← hdb] at hi' ⊢
  cases hk with
  | inl hk =>
    obtain ⟨p, rfl⟩ := hk
    exact hw.create_agrees hnil hpw hr
  | inr hk =>
    obtain ⟨u, p, rfl⟩ := hk
    exact hw.update_agrees hnil hi' hr

def aliceLeaves : List (Choice Unit × Call × List (Choice Unit)) :=
  [request 1 "" (.deleteUser "alice")]

def aliceAgain : UserCreate := { carol with email := "alice@example.org", username := "alice" }

theorem sampleWorld_indexed : Indexed sampleWorld.db.users :=
  ⟨by decide +kernel, by decide +kernel⟩

theorem prechecks_agree_carol : ∃ log w r w', sampleApp.Seq Later 0 sampleWorld log 1 w ∧
    sampleApp.Completed Later 1 (.createUser carol) r w w' ∧
    (Agrees w.db (.createUser carol) w'.db.users r (w'.hist 1) ↔
      Call.Foreseen w.db.users (.createUser carol)) := by
  obtain ⟨log, w, r, w', h₀, -, hc, -⟩ := rehearsed aliceLeaves 2 "carol" (.createUser carol)
    (fun _ _ => true) (by decide +kernel)
  have hlen : 1 = log.length := (sequential_of_rehearsal h₀).2
  have hseq : sampleApp.Seq Later 0 sampleWorld log 1 w := Service.replay_seq h₀
  rw [← hlen] at hc
  have hc' := hc.mono fun _ _ hg => hg.1
  exact ⟨log, w, r, w', hseq, hc', prechecks_agree_iff sampleWorld_init sampleWorld_indexed
    (fun _ _ _ h => by cases h) hseq (.inl ⟨carol, rfl⟩) hc'⟩

/-- Alice signs up again after her removal. She is told of a broken index, and not that the user
exists. -/
theorem deleted_email_refused : ∃ log w r w', sampleApp.Seq Later 0 sampleWorld log 1 w ∧
    sampleApp.Completed Later 1 (.createUser aliceAgain) r w w' ∧
    (∃ x ∈ w.db.users.rows, x.email = aliceAgain.email ∧ x.deletedAt ≠ none) ∧
    r = .error .integrityError ∧
    ¬ Agrees w.db (.createUser aliceAgain) w'.db.users r (w'.hist 1) := by
  obtain ⟨log, w, r, w', h₀, -, hc, hr⟩ := rehearsed aliceLeaves 2 "alice2" (.createUser aliceAgain)
    (fun r _ => decide (r = .error .integrityError)) (by decide +kernel)
  have hlen : 1 = log.length := (sequential_of_rehearsal h₀).2
  have hseq : sampleApp.Seq Later 0 sampleWorld log 1 w := Service.replay_seq h₀
  have hdeleted : ∃ x ∈ w.db.users.rows, x.email = aliceAgain.email ∧ x.deletedAt ≠ none := by
    have hall : (rehearsal aliceLeaves).all (fun y =>
        decide (∃ x ∈ y.2.db.users.rows, x.email = aliceAgain.email ∧ x.deletedAt ≠ none)) = true :=
      by decide +kernel
    rw [h₀] at hall
    simpa using hall
  obtain rfl := of_decide_eq_true hr
  rw [← hlen] at hc
  refine ⟨log, w, _, w', hseq, hc.mono fun _ _ hg => hg.1, hdeleted, rfl, fun ha => ?_⟩
  obtain ⟨x, hx, he, -⟩ := hdeleted
  exact ha.free trivial (by simp [Exc.userAlreadyExists]) x hx (.inl he)

end AsyncPulse
