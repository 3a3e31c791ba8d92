import AsyncPulse.Solo
set_option autoImplicit false

namespace AsyncPulse
open Effect

variable {cfg : Config} {d : Database} {t₀ : Time}

def UserModel.Holds (x : UserModel) (p : UserCreate) : Prop :=
  x.email = p.email ∨ x.username = p.username

instance (x : UserModel) (p : UserCreate) : Decidable (x.Holds p) :=
  inferInstanceAs (Decidable (_ ∨ _))

def emailTaken : Exc := .userAlreadyExists "A user with this email already exists"

def usernameTaken : Exc := .userAlreadyExists "A user with this username already exists"

def newRow (p : UserCreate) (u hashed : String) (t t' : Time) : UserModel :=
  { id := u, email := p.email, name := some p.name, username := p.username,
    hashedPassword := hashed, status := .active, role := .user, deletedAt := none,
    createdAt := t, updatedAt := t' }

def registrationTrail (p : UserCreate) (u : String) (t t' : Time) : List Act :=
  [.readUsers (.byEmailOrUsername p.email p.username) [], .drew u, .hashed, .clock t, .clock t']

theorem still_registrationTrail (p : UserCreate) (u : String) (t t' : Time) :
    ∀ a ∈ registrationTrail p u t t', a.still = true := by
  simp [registrationTrail, Act.still]

inductive RegistrationRun (cfg : Config) (d : Database) (p : UserCreate) :
    Except Exc User → List Act → Prop where
  | taken {x : UserModel} : x ∈ d.users.rows → x.Holds p → x.deletedAt = none →
      (∀ y ∈ d.users.rows, y.Holds p → y.deletedAt = none → y = x) →
      RegistrationRun cfg d p (.error (if x.email = p.email then emailTaken else usernameTaken))
        [.readUsers (.byEmailOrUsername p.email p.username) [x]]
  | ambiguous {x y : UserModel} {rows : List UserModel} : x ∈ d.users.rows → y ∈ d.users.rows →
      x ≠ y → x.Holds p → y.Holds p → x.deletedAt = none → y.deletedAt = none →
      RegistrationRun cfg d p (.error .multipleResultsFound)
        [.readUsers (.byEmailOrUsername p.email p.username) rows]
  | unhashed {u salt : String} {x : Exc} :
      (∀ y ∈ d.users.rows, y.Holds p → y.deletedAt ≠ none) →
      cfg.hashpw salt p.password = .error x → RegistrationRun cfg d p (.error x)
        [.readUsers (.byEmailOrUsername p.email p.username) [], .drew u, .hashed]
  | refused {u salt hashed : String} {t t' : Time} {x : Exc} :
      (∀ y ∈ d.users.rows, y.Holds p → y.deletedAt ≠ none) →
      cfg.hashpw salt p.password = .ok hashed → d.users.get u = none →
      (Write.insertUser (newRow p u hashed t t')).Refusal d x → RegistrationRun cfg d p (.error x)
        (registrationTrail p u t t' ++ [.refused (.insertUser (newRow p u hashed t t'))])
  | registered {u salt hashed : String} {t t' : Time} :
      (∀ y ∈ d.users.rows, ¬ y.Holds p) → cfg.hashpw salt p.password = .ok hashed →
      d.users.get u = none → (Write.insertUser (newRow p u hashed t t')).fits = true →
      RegistrationRun cfg d p (.ok (newRow p u hashed t t').toEntity)
        (registrationTrail p u t t' ++
          [.wrote (.insertUser (newRow p u hashed t t')), .committed])

theorem selects_byEmailOrUsername {p : UserCreate} {x : UserModel} :
    (UserQuery.byEmailOrUsername p.email p.username).selects x = true ↔
      x.Holds p ∧ x.deletedAt = none := by
  simp [UserQuery.selects, UserModel.Holds]

theorem admits_insertUser {r : UserModel} : d.admits (.insertUser r) = true ↔
    d.users.get r.id = none ∧
      ∀ x ∈ d.users.rows, x.email ≠ r.email ∧ x.username ≠ r.username := by
  simp [Database.admits]

/-- The unique indexes take in every row, also the deleted ones. -/
theorem admits_newRow {p : UserCreate} {u hashed : String} {t t' : Time}
    (hu : d.users.get u = none) : d.admits (.insertUser (newRow p u hashed t t')) = true ↔
      ∀ x ∈ d.users.rows, ¬ x.Holds p := by
  rw [admits_insertUser]
  simp [newRow, hu, UserModel.Holds]

theorem alone_createUser {p : UserCreate} :
    Alone cfg d t₀ (createUser p) (RegistrationRun cfg d p) [] := by
  unfold createUser getByEmailOrUsername
  apply alone_findUser (by simp)
  · intro hnone
    have hfree : ∀ y ∈ d.users.rows, y.Holds p → y.deletedAt ≠ none := by
      intro y hy hholds hlive
      have hsel := selects_byEmailOrUsername.mpr ⟨hholds, hlive⟩
      rw [hnone y hy] at hsel
      cases hsel
    apply alone_uuid4
    intro u hu
    apply alone_hashPassword
    · intro salt hashed hpw
      unfold createRow
      rw [bind_assoc]
      apply alone_now
      intro t _
      rw [bind_assoc]
      apply alone_now
      intro t' _
      rw [bind_assoc]
      have hseen : seen d (registrationTrail p u t t') = d :=
        seen_still (h := []) (still_registrationTrail p u t t')
      apply alone_write
      · intro ha hf
        apply alone_commit
        have ha' : d.admits (.insertUser (newRow p u hashed t t')) = true := hseen ▸ ha
        have hok := (admits_newRow hu).mp ha'
        exact .registered hok hpw hu hf
      · intro x hx
        have hx' : (Write.insertUser (newRow p u hashed t t')).Refusal
            (seen d (registrationTrail p u t t')) x := hx
        rw [hseen] at hx'
        exact .refused hfree hpw hu hx'
    · intro salt x hpw
      exact .unhashed hfree hpw
  · intro x hx hsel honly
    obtain ⟨hholds, hlive⟩ := selects_byEmailOrUsername.mp hsel
    have htaken : RegistrationRun cfg d p _ _ := .taken hx hholds hlive
      fun y hy hy' hlive' => honly y hy (selects_byEmailOrUsername.mpr ⟨hy', hlive'⟩)
    change Alone cfg d t₀ (if x.email = p.email then _ else _) _ _
    split
    · rename_i he
      rw [if_pos he] at htaken
      exact htaken
    · rename_i he
      rw [if_neg he] at htaken
      exact htaken
  · intro rows x hx y hy hne hsel hsel'
    obtain ⟨hholds, hlive⟩ := selects_byEmailOrUsername.mp hsel
    obtain ⟨hholds', hlive'⟩ := selects_byEmailOrUsername.mp hsel'
    exact .ambiguous hx hy hne hholds hholds' hlive hlive'

structure Indexed (t : Users) : Prop where
  email : ∀ x ∈ t.rows, ∀ y ∈ t.rows, x.email = y.email → x = y
  username : ∀ x ∈ t.rows, ∀ y ∈ t.rows, x.username = y.username → x = y

def UserCreate.Fits (p : UserCreate) : Prop :=
  fits 255 p.email = true ∧ fits 100 p.name = true ∧ fits 100 p.username = true

instance (p : UserCreate) : Decidable p.Fits := inferInstanceAs (Decidable (_ ∧ _))

theorem fits_newRow {p : UserCreate} {u hashed : String} {t t' : Time}
    (hh : hashed.length ≤ 255) :
    (Write.insertUser (newRow p u hashed t t')).fits = true ↔ p.Fits := by
  have hhash : fits 255 hashed = true := by simpa [fits] using hh
  simp [Write.fits, newRow, UserCreate.Fits, fitsOpt, hhash, and_assoc]

/-- A registration has taken the users from `t` to `t'` and has answered `r`, as its conflicts
demand. -/
structure Registers (cfg : Config) (p : UserCreate) (t t' : Users) (r : Except Exc Out) :
    Prop where
  conflict : (∃ x ∈ t.rows, x.Holds p) → t' = t ∧
    r = .error (if ∃ x ∈ t.rows, x.email = p.email then emailTaken else usernameTaken)
  free : (∀ x ∈ t.rows, ¬ x.Holds p) → ∃ u salt hashed t₁ t₂,
    cfg.hashpw salt p.password = .ok hashed ∧
    r = .ok (.user (newRow p u hashed t₁ t₂).toEntity) ∧
    t'.rows = t.rows ++ [newRow p u hashed t₁ t₂]

variable {γ χ : Type} {C : MayCache Key Json γ χ} {i : Nat} {w w' : World γ}

theorem Vacant.register {p : UserCreate} (hw : Vacant w i) {cs : List (Choice χ)}
    {r : Except Exc Out}
    (hr : (semantics cfg C).run i cs (Call.prog cfg (.createUser p)) w = some (r, w')) :
    ∃ r' h, r = r'.map Out.user ∧ Played C i w w' (h ++ [Act.closed]) ∧
      RegistrationRun cfg w.db p r' h := by
  obtain ⟨l, hplayed, r', h, rfl, rfl, hrun⟩ := hw.run (alone_prog rfl alone_createUser) hr
  exact ⟨r', h, rfl, hplayed, hrun⟩

theorem Played.uncommitted {l : List Act} (h : Played C i w w' l) (hl : .committed ∉ l) :
    w'.db = w.db := by
  rw [h.db, ledger_uncommitted hl]
  rfl

theorem Played.registered {p : UserCreate} {u hashed : String} {t t' : Time}
    (h : Played C i w w' (registrationTrail p u t t' ++
      [.wrote (.insertUser (newRow p u hashed t t')), .committed] ++ [Act.closed])) :
    w'.db = w.db.apply (.insertUser (newRow p u hashed t t')) := by
  have hledger : (ledger (registrationTrail p u t t' ++
      [.wrote (.insertUser (newRow p u hashed t t')), .committed] ++ [Act.closed])).1 =
        [.insertUser (newRow p u hashed t t')] := by
    rw [ledger_closed, List.append_cons, ledger_committed, ledger_wrote]
    have hnil := ledger_still (h := []) (still_registrationTrail p u t t')
    rw [List.nil_append] at hnil
    rw [hnil]
    rfl
  rw [h.db, hledger]
  rfl

/-- With nobody deleted, registrations deal with conflicts exactly unless the email and the
username belong to two users, or nobody has either and they do not fit. -/
theorem registration_exact_iff {p : UserCreate} (hw : Vacant w i)
    (hlive : ∀ x ∈ w.db.users.rows, x.deletedAt = none) (hindexed : Indexed w.db.users)
    (hpw : ∀ salt, ∃ hashed, cfg.hashpw salt p.password = .ok hashed ∧ hashed.length ≤ 255)
    {cs : List (Choice χ)} {r : Except Exc Out}
    (hr : (semantics cfg C).run i cs (Call.prog cfg (.createUser p)) w = some (r, w')) :
    Registers cfg p w.db.users w'.db.users r ↔
      (∀ x ∈ w.db.users.rows, ∀ y ∈ w.db.users.rows, x.email = p.email →
        y.username = p.username → x = y) ∧
      ((∀ x ∈ w.db.users.rows, ¬ x.Holds p) → p.Fits) := by
  obtain ⟨r', h, rfl, hplayed, hrun⟩ := hw.register hr
  cases hrun with
  | @taken x hx hholds _ honly =>
    have hsame : ∀ y ∈ w.db.users.rows, y.Holds p → y = x :=
      fun y hy hy' => honly y hy hy' (hlive y hy)
    have hemail : (∃ y ∈ w.db.users.rows, y.email = p.email) ↔ x.email = p.email := by
      constructor
      · intro hy
        obtain ⟨y, hy, he⟩ := hy
        exact hsame y hy (.inl he) ▸ he
      · exact fun he => ⟨x, hx, he⟩
    constructor
    · intro _
      refine ⟨fun y hy z hz he hn => ?_, fun hfree => absurd hholds (hfree x hx)⟩
      rw [hsame y hy (.inl he), hsame z hz (.inr hn)]
    · intro _
      refine ⟨fun _ => ⟨?_, ?_⟩, fun hfree => absurd hholds (hfree x hx)⟩
      · rw [hplayed.uncommitted (by simp)]
      · simp only [hemail, Except.map]
  | @ambiguous x y _ hx hy hne hholds hholds' =>
    constructor
    · intro hregs
      have herr := (hregs.conflict ⟨x, hx, hholds⟩).2
      split at herr <;> cases herr
    · intro hcond
      obtain hx' | hx' := hholds <;> obtain hy' | hy' := hholds'
      · exact absurd (hindexed.email x hx y hy (hx'.trans hy'.symm)) hne
      · exact absurd (hcond.1 x hx y hy hx' hy') hne
      · exact absurd (hcond.1 y hy x hx hy' hx').symm hne
      · exact absurd (hindexed.username x hx y hy (hx'.trans hy'.symm)) hne
  | @unhashed _ salt x _ herr =>
    obtain ⟨hashed, hok, -⟩ := hpw salt
    rw [herr] at hok
    cases hok
  | @refused u salt hashed t t' x hfree hhash hu hx =>
    have hnone : ∀ y ∈ w.db.users.rows, ¬ y.Holds p :=
      fun y hy hy' => hfree y hy hy' (hlive y hy)
    obtain ⟨hashed', hok, hlen⟩ := hpw salt
    rw [hhash] at hok
    cases hok
    have hunfit : ¬ p.Fits := by
      have hiff : (Write.insertUser (newRow p u hashed t t')).fits = true ↔ p.Fits :=
        fits_newRow hlen
      rw [← hiff]
      obtain ⟨-, ha⟩ | ⟨-, -, hf⟩ := hx
      · rw [(admits_newRow hu).mpr hnone] at ha
        cases ha
      · simp [hf]
    constructor
    · intro hregs
      obtain ⟨_, _, _, _, _, -, hok, -⟩ := hregs.free hnone
      cases hok
    · exact fun hcond => absurd (hcond.2 hnone) hunfit
  | @registered u salt hashed t t' hnone hhash hu hfits =>
    obtain ⟨hashed', hok, hlen⟩ := hpw salt
    rw [hhash] at hok
    cases hok
    constructor
    · intro _
      exact ⟨fun x hx _ _ he _ => absurd (.inl he) (hnone x hx), fun _ => (fits_newRow hlen).mp hfits⟩
    · intro _
      refine ⟨fun hc => ?_, fun _ => ⟨u, salt, hashed, t, t', hhash, rfl, ?_⟩⟩
      · obtain ⟨x, hx, hholds⟩ := hc
        exact absurd hholds (hnone x hx)
      · rw [hplayed.registered]
        exact Keyed.rows_insert hu

def carol : UserCreate where
  email := "carol@example.org"
  name := "Carol"
  username := "carol"
  password := "carol's secret"

/-- One user's email under the other's username. -/
def mixed : UserCreate := { carol with email := "alice@example.org", username := "bob" }

def attempt (k : Call) (w : World (TimedStore Key Json)) :
    Option (Except Exc Out × World (TimedStore Key Json)) :=
  (semantics sampleConfig TimedStore.reliable).run 0 (List.replicate 40 (moment 1 "new"))
    (Call.prog sampleConfig k) w

theorem registration_exact_carol : ∃ r w', attempt (.createUser carol) sampleWorld = some (r, w') ∧
    (Registers sampleConfig carol sampleWorld.db.users w'.db.users r ↔
      (∀ x ∈ sampleWorld.db.users.rows, ∀ y ∈ sampleWorld.db.users.rows, x.email = carol.email →
        y.username = carol.username → x = y) ∧
      ((∀ x ∈ sampleWorld.db.users.rows, ¬ x.Holds carol) → carol.Fits)) := by
  have hrun : (attempt (.createUser carol) sampleWorld).isSome = true := by decide +kernel
  obtain ⟨⟨r, w'⟩, hrun⟩ := Option.isSome_iff_exists.mp hrun
  refine ⟨r, w', hrun, registration_exact_iff ⟨rfl, fun _ => rfl⟩ (by decide +kernel)
    ⟨by decide +kernel, by decide +kernel⟩ (fun _ => ⟨_, rfl, by decide +kernel⟩) hrun⟩

/-- The email is taken, and so is the username, but the answer is neither of the two errors. -/
theorem mixed_registration_fails :
    (∀ x ∈ twins.db.users.rows, x.deletedAt = none) ∧ Indexed twins.db.users ∧
    (∃ x ∈ twins.db.users.rows, x.Holds mixed) ∧
    ∃ w', attempt (.createUser mixed) twins = some (.error .multipleResultsFound, w') ∧
      ¬ Registers sampleConfig mixed twins.db.users w'.db.users (.error .multipleResultsFound) := by
  have hholds : ∃ x ∈ twins.db.users.rows, x.Holds mixed := by decide +kernel
  have hrun : (attempt (.createUser mixed) twins).map Prod.fst =
      some (.error .multipleResultsFound) := by decide +kernel
  obtain ⟨⟨r, w'⟩, hrun, rfl⟩ := Option.map_eq_some_iff.mp hrun
  refine ⟨by decide +kernel, ⟨by decide +kernel, by decide +kernel⟩, hholds, w', hrun, fun h => ?_⟩
  have herr := (h.conflict hholds).2
  split at herr <;> cases herr

end AsyncPulse
