import AsyncPulse.Eviction
import AsyncPulse.Schemas
import AsyncPulse.Uniqueness
set_option autoImplicit false

namespace AsyncPulse
open Effect

variable {cfg : Config} {d : Database} {emailStr : String → Option String}

theorem Found.unique {e : String} {x y : UserModel} (hx : Found d e x) (hy : Found d e y) :
    x = y := hy.only x hx.mem hx.email hx.present

theorem Indexed.found (hi : Indexed d.users) {x : UserModel} (hx : x ∈ d.users.rows)
    (hlive : x.deletedAt = none) : Found d x.email x :=
  ⟨hx, rfl, hlive, fun y hy he _ => hi.email y hy x hx he⟩

theorem Refusal.ne_invalidCredentials {v : Write} {y : Exc} (h : v.Refusal d y) :
    y ≠ .invalidCredentials := by
  obtain ⟨rfl, -⟩ | ⟨rfl, -⟩ := h
  · simp [Exc.invalidCredentials]
  · simp [Exc.invalidCredentials]

namespace LoginRun

variable {e pw : String} {dev ip : Option String} {r : Except Exc LoginResponse} {h : List Act}

theorem recognised (hrun : LoginRun cfg d e pw dev ip r h) {x : UserModel} (hx : Found d e x)
    (hpw : cfg.checkpw pw x.hashedPassword = .ok true) :
    (∃ l, h = .readUsers (.byEmail e) [x] :: l) ∧ r ≠ .error .invalidCredentials := by
  cases hrun with
  | denied hden =>
    cases hden with
    | unknown hno => exact absurd hx.present (hno x hx.mem hx.email)
    | ambiguous hy hz hne he he' hd hd' =>
      exact absurd ((hx.only _ hy he hd).trans (hx.only _ hz he' hd').symm) hne
    | unchecked hy hp =>
      rw [hy.unique hx, hpw] at hp
      cases hp
    | wrong hy hp =>
      rw [hy.unique hx, hpw] at hp
      cases hp
    | suspended hy _ _ =>
      rw [hy.unique hx]
      exact ⟨⟨_, rfl⟩, by simp [Exc.userSuspended, Exc.invalidCredentials]⟩
    | banned hy _ _ =>
      rw [hy.unique hx]
      exact ⟨⟨_, rfl⟩, by simp [Exc.userBanned, Exc.invalidCredentials]⟩
  | refused hy href =>
    rw [hy.found.unique hx]
    refine ⟨⟨_, rfl⟩, fun hr => ?_⟩
    exact Refusal.ne_invalidCredentials href (Except.error.inj hr)
  | opened hy hans _ _ _ =>
    rw [hy.found.unique hx]
    refine ⟨⟨_, rfl⟩, fun hr => ?_⟩
    obtain ⟨-, resp, hok⟩ | ⟨-, herr⟩ := hans
    · rw [hok] at hr
      cases hr
    · rw [herr] at hr
      cases hr

end LoginRun

/-- The body that was sent asks for the email `e`, for an account with the password `pw`. -/
inductive Addresses (emailStr : String → Option String) (cfg : Config) (t : Users)
    (e pw : String) : Call → Prop where
  | post {b : UserCreateBody} {p : UserCreate} : b.email = e → b.password = pw →
      UserCreate.validate emailStr b = some p → Addresses emailStr cfg t e pw (.createUser p)
  | patch {u : String} {x : UserModel} {b : UserUpdateBody} {p : UserUpdate} : b.email = some e →
      UserUpdate.validate emailStr b = some p → t.get u = some x → x.Registered cfg pw →
      Addresses emailStr cfg t e pw (.updateUser u p)

/-- The login has come to the row of user `u` and has passed its check of the password. -/
structure Recognised (cfg : Config) (u e pw : String) (r : Except Exc Out) (h : List Act) :
    Prop where
  row : ∃ x l, h = .readUsers (.byEmail e) [x] :: l ∧ x.id = u ∧
    cfg.checkpw pw x.hashedPassword = .ok true
  accepted : r ≠ .error .invalidCredentials

structure Account (emailStr : String → Option String) (cfg : Config) (t : Users)
    (u e pw : String) (y : UserModel) : Prop where
  mem : y ∈ t.rows
  id : y.id = u
  email : emailStr e = some y.email
  present : y.deletedAt = none
  password : y.Registered cfg pw

variable {γ χ : Type} {C : MayCache Key Json γ χ} {gap : World γ → World γ → Prop} {n : Nat}
  {w w' : World γ}

theorem Played.updated {x y : UserModel} {key : Key} {h : List Act} (hh : Checking h)
    (hp : Played C n w w' (h ++ [Act.wrote (.updateUser x y), .committed, .cacheDeleted key] ++
      [.closed])) : w'.db = w.db.apply (.updateUser x y) := by
  have hledger : (ledger (h ++ [Act.wrote (.updateUser x y), .committed, .cacheDeleted key] ++
      [.closed])).1 = [.updateUser x y] := by
    have happ : h ++ [Act.wrote (.updateUser x y), .committed, .cacheDeleted key] =
        h ++ [Act.wrote (.updateUser x y)] ++ [Act.committed] ++ [Act.cacheDeleted key] := by simp
    rw [ledger_closed, happ, ledger_still (by simp [Act.still]), ledger_committed, ledger_wrote,
      hh.ledger_eq]
    rfl
  rw [hp.db, hledger]
  rfl

theorem Vacant.registered {e pw : String} {b : UserCreateBody} {p : UserCreate} {usr : User}
    (hw : Vacant w n) (he : b.email = e) (hpw : b.password = pw)
    (hv : UserCreate.validate emailStr b = some p) {cs : List (Choice χ)}
    (hr : (semantics cfg C).run n cs (Call.prog cfg (.createUser p)) w =
      some (.ok (.user usr), w')) : ∃ y, Account emailStr cfg w'.db.users usr.id e pw y := by
  have hacc := UserCreate.accepted hv
  obtain ⟨r', h, hr', hplayed, hrun⟩ := hw.register hr
  cases hrun with
  | taken => cases hr'
  | ambiguous => cases hr'
  | unhashed => cases hr'
  | refused => cases hr'
  | @registered u salt hashed t t' hfree hhash hu _ =>
    obtain rfl : usr = (newRow p u hashed t t').toEntity :=
      (Out.user.inj (Except.ok.inj hr'))
    refine ⟨newRow p u hashed t t', ?_, rfl, ?_, rfl, salt, ?_⟩
    · rw [hplayed.registered]
      have hrows : (w.db.users.insert (newRow p u hashed t t')).rows =
          w.db.users.rows ++ [newRow p u hashed t t'] := Keyed.rows_insert hu
      change _ ∈ (w.db.users.insert (newRow p u hashed t t')).rows
      rw [hrows]
      simp
    · rw [← he, hacc.email]
      rfl
    · rw [← hpw, ← hacc.password]
      exact hhash

theorem patch_revised (x : UserModel) (p : UserUpdate) (t : Time) :
    x.patch (x.revised p t) x = x.revised p t := by
  simp [UserModel.patch, UserModel.revised]

theorem Vacant.readdressed {e pw u : String} {x : UserModel} {b : UserUpdateBody} {p : UserUpdate}
    {usr : User} (hw : Vacant w n) (hi : Indexed w.db.users) (he : b.email = some e)
    (hv : UserUpdate.validate emailStr b = some p) (hx : w.db.users.get u = some x)
    (hpw : x.Registered cfg pw) {cs : List (Choice χ)}
    (hr : (semantics cfg C).run n cs (Call.prog cfg (.updateUser u p)) w =
      some (.ok (.user usr), w')) : ∃ y, Account emailStr cfg w'.db.users usr.id e pw y := by
  obtain ⟨e', hnorm, hp⟩ := (UserUpdate.accepted hv).email e he
  obtain ⟨r', h, hr', hplayed, hrun⟩ := hw.update hi hr
  cases hrun with
  | missing => cases hr'
  | taken => cases hr'
  | refused => cases hr'
  | empty _ _ _ hnil => simp [UserUpdate.fields, hp] at hnil
  | @unchanged y t h hh hy hlive _ hsame =>
    rw [hx] at hy
    cases hy
    obtain rfl : usr = x.toEntity := Out.user.inj (Except.ok.inj hr')
    have hemail : x.email = e' := by
      rw [← hsame]
      simp [UserModel.revised, hp]
    refine ⟨x, ?_, rfl, hemail ▸ hnorm, hlive, hpw⟩
    have hledger : (ledger (h ++ [Act.committed, .cacheDeleted (.user u)] ++ [Act.closed])).1 = [] := by
      have happ : h ++ [Act.committed, .cacheDeleted (.user u)] =
          h ++ [Act.committed] ++ [Act.cacheDeleted (.user u)] := by simp
      rw [ledger_closed, happ, ledger_still (by simp [Act.still]), ledger_committed, hh.ledger_eq]
      rfl
    rw [hplayed.db, hledger]
    exact Keyed.mem_of_get hx
  | @updated y t h hh hy hlive _ _ _ _ =>
    rw [hx] at hy
    cases hy
    obtain rfl : usr = (x.revised p t).toEntity := Out.user.inj (Except.ok.inj hr')
    have hid : x.id = u := Keyed.key_of_get hx
    refine ⟨x.revised p t, ?_, rfl, ?_, hlive, hpw⟩
    · rw [hplayed.updated hh]
      apply Keyed.mem_of_get (k := u)
      change (w.db.users.modify x.id (x.patch (x.revised p t)) (UserModel.patch_id x _)).get u = _
      rw [Keyed.get_modify, if_pos hid.symm, hx, Option.map_some, patch_revised]
    · simpa [UserModel.revised, hp] using hnorm

/-- After a registration or a change of email, the same texts sign the user in just when the email
was submitted in the form that is stored. -/
theorem login_round_trip_iff {w₀ : World γ} (hw₀ : Init C w₀) (hi : Indexed w₀.db.users)
    (hb : Bcrypt cfg) {log : List (Call × Except Exc Out)}
    (hs : (app cfg C).Seq gap 0 w₀ log n w) {e pw : String} (hlen : pw.utf8ByteSize ≤ 72)
    {k : Call} (hk : Addresses emailStr cfg w.db.users e pw k) {usr : User} {w₁ w₂ : World γ}
    (hc : (app cfg C).Completed gap n k (.ok (.user usr)) w w₁) {dev ip : Option String}
    {r : Except Exc Out}
    (hl : (app cfg C).Completed gap (n + 1) (.authenticate e pw dev ip) r w₁ w₂) :
    Recognised cfg usr.id e pw r (w₂.hist (n + 1)) ↔ emailStr e = some e := by
  obtain ⟨⟨m, hbetween⟩, hi₀⟩ := hi.seq hw₀ hs
  obtain ⟨⟨m', hbetween'⟩, hi₁⟩ := hi.seq hw₀ (hs.snoc hc)
  obtain ⟨y, hy⟩ : ∃ y, Account emailStr cfg w₁.db.users usr.id e pw y := by
    obtain ⟨w', cs, hdb, -, hw, hr⟩ := hbetween.run hc
    rw [← hdb] at hi₀ hk
    cases hk with
    | post he hpw hv => exact hw.registered he hpw hv hr
    | patch he hv hx hpw => exact hw.readdressed hi₀ he hv hx hpw hr
  obtain ⟨salt, hhash⟩ := hy.password
  have hcheck : cfg.checkpw pw y.hashedPassword = .ok true := by
    simpa using hb.checks salt pw pw _ hhash hlen
  obtain ⟨w', cs, hdb, hnil, hw, hr⟩ := hbetween'.run hl
  obtain ⟨r', h, rfl, hplayed, hrun⟩ := hw.login hr
  have hhist : w₂.hist (n + 1) = h ++ [.closed] := by rw [hplayed.hist, hnil, List.nil_append]
  rw [hhist]
  constructor
  · intro hrec
    obtain ⟨x, l, hl, hid, -⟩ := hrec.row
    obtain ⟨rank, hrows⟩ := hplayed.readUsers [] l (.byEmail e) [x] hl
    obtain ⟨hx, he, -⟩ := UserQuery.mem_byEmail.mp (hrows ▸ List.mem_singleton_self x)
    rw [seen_nil, hdb] at hx
    obtain rfl := w₁.db.users.eq_of_key hx hy.mem (hid.trans hy.id.symm)
    rw [hy.email, he]
  · intro hnorm
    have he : y.email = e := Option.some.inj (hy.email.symm.trans hnorm)
    have hfound : Found w'.db e y := by
      rw [hdb]
      exact he ▸ hi₁.found hy.mem hy.present
    obtain ⟨⟨l, rfl⟩, hacc⟩ := hrun.recognised hfound hcheck
    refine ⟨⟨y, l ++ [.closed], rfl, hy.id, hcheck⟩, fun hr => ?_⟩
    cases r' with
    | ok _ => cases hr
    | error x => exact hacc (congrArg _ (Except.error.inj hr))

def lowerDomain (s : String) : Option String :=
  let (name, domain) := s.toList.span (· ≠ '@')
  if domain = [] then none else some (String.ofList (name ++ domain.map Char.toLower))

abbrev bcryptApp : Service Eff Exc (World (TimedStore Key Json)) (Choice Unit) Call Out :=
  app bcryptConfig TimedStore.reliable

theorem two_requests (k₁ k₂ : Call) (u₁ u₂ : String) (P : Except Exc Out → Except Exc Out → Bool)
    (h : (bcryptApp.replay Later [request 1 u₁ k₁, request 2 u₂ k₂] 0 sampleWorld).any (fun y =>
      match y.1 with
      | [a, b] => P a.2 b.2
      | _ => false) = true) :
    ∃ r₁ r₂ w₁ w₂, bcryptApp.Completed Later 0 k₁ r₁ sampleWorld w₁ ∧
      bcryptApp.Completed Later 1 k₂ r₂ w₁ w₂ ∧ P r₁ r₂ = true := by
  obtain ⟨⟨log, w₂⟩, hrun, hP⟩ := (Option.any_eq_true _ _).mp h
  change bcryptApp.replay Later ([request 1 u₁ k₁] ++ [request 2 u₂ k₂]) 0 sampleWorld = _ at hrun
  obtain ⟨log₁, w₁, r₂, hrun₁, rfl, hc₂⟩ := Service.replay_snoc hrun
  change bcryptApp.replay Later ([] ++ [request 1 u₁ k₁]) 0 sampleWorld = _ at hrun₁
  obtain ⟨log₀, w₀, r₁, hrun₀, rfl, hc₁⟩ := Service.replay_snoc hrun₁
  simp only [Service.replay, Option.some.injEq, Prod.mk.injEq] at hrun₀
  obtain ⟨rfl, rfl⟩ := hrun₀
  exact ⟨r₁, r₂, w₁, w₂, hc₁.mono fun _ _ hg => hg.1, hc₂.mono fun _ _ hg => hg.1, hP⟩

def carolBody (e : String) : UserCreateBody where
  email := e
  name := "Carol"
  username := "carol"
  password := "carol's secret"

theorem carol_addresses (e : String) (h : UserCreate.validate lowerDomain (carolBody e) = some carol)
    (t : Users) : Addresses lowerDomain bcryptConfig t e "carol's secret" (.createUser carol) :=
  .post rfl rfl h

def carolUser : User :=
  (newRow carol "carol" "carol's secret" (seconds 1) (seconds 1)).toEntity

theorem login_round_trip_carol : ∃ w₁ w₂ r,
    bcryptApp.Completed Later 0 (.createUser carol) (.ok (.user carolUser)) sampleWorld w₁ ∧
    bcryptApp.Completed Later 1 (.authenticate "carol@example.org" "carol's secret" none none) r
      w₁ w₂ ∧
    (Recognised bcryptConfig carolUser.id "carol@example.org" "carol's secret" r (w₂.hist 1) ↔
      lowerDomain "carol@example.org" = some "carol@example.org") := by
  obtain ⟨r₁, r₂, w₁, w₂, hc, hl, hr⟩ := two_requests (.createUser carol)
    (.authenticate "carol@example.org" "carol's secret" none none) "carol" "s1"
    (fun r _ => decide (r = .ok (.user carolUser))) (by decide +kernel)
  obtain rfl := of_decide_eq_true hr
  exact ⟨w₁, w₂, r₂, hc, hl, login_round_trip_iff sampleWorld_init sampleWorld_indexed
    bcryptConfig_bcrypt (.nil 0 sampleWorld) (by decide +kernel)
    (carol_addresses _ (by decide +kernel) _) hc hl⟩

/-- Whoever signs up with capitals in the domain cannot sign in with them. -/
theorem capital_domain_unknown : ∃ w₁ w₂,
    Addresses lowerDomain bcryptConfig sampleWorld.db.users "carol@Example.org" "carol's secret"
      (.createUser carol) ∧
    bcryptApp.Completed Later 0 (.createUser carol) (.ok (.user carolUser)) sampleWorld w₁ ∧
    bcryptApp.Completed Later 1 (.authenticate "carol@Example.org" "carol's secret" none none)
      (.error .invalidCredentials) w₁ w₂ ∧
    ¬ Recognised bcryptConfig carolUser.id "carol@Example.org" "carol's secret"
      (.error .invalidCredentials) (w₂.hist 1) := by
  obtain ⟨r₁, r₂, w₁, w₂, hc, hl, hr⟩ := two_requests (.createUser carol)
    (.authenticate "carol@Example.org" "carol's secret" none none) "carol" "s1"
    (fun r r' => decide (r = .ok (.user carolUser) ∧ r' = .error .invalidCredentials))
    (by decide +kernel)
  obtain ⟨rfl, rfl⟩ := of_decide_eq_true hr
  exact ⟨w₁, w₂, carol_addresses _ (by decide +kernel) _, hc, hl, fun h => h.accepted rfl⟩

/-- A login with a password that is not the user's fails alike whether or not there is a user, but
for passwords that are too long to be checked. -/
theorem Vacant.unregistered_login_iff {i : Nat} (hb : Bcrypt cfg) (hw : Vacant w i)
    (hi : Indexed w.db.users) {e pw : String}
    (hpw : ∀ x ∈ w.db.users.rows, x.email = e → x.deletedAt = none →
      ∃ q, x.Registered cfg q ∧ pw ≠ q) {dev ip : Option String} {cs : List (Choice χ)}
    {r : Except Exc Out}
    (hr : (semantics cfg C).run i cs (Call.prog cfg (.authenticate e pw dev ip)) w =
      some (r, w')) :
    r = .error .invalidCredentials ∧ w'.db.sessions = w.db.sessions ↔
      ((∃ x ∈ w.db.users.rows, x.email = e ∧ x.deletedAt = none) → pw.utf8ByteSize ≤ 72) := by
  obtain ⟨r', h, rfl, hplayed, hrun⟩ := hw.login hr
  have hwrong : ∀ x, Found w.db e x → pw.utf8ByteSize ≤ 72 →
      cfg.checkpw pw x.hashedPassword = .ok false := by
    intro x hx hle
    obtain ⟨q, ⟨salt, hq⟩, hne⟩ := hpw x hx.mem hx.email hx.present
    simpa [hne] using hb.checks salt q pw _ hq hle
  have hnot : ∀ x, Found w.db e x → cfg.checkpw pw x.hashedPassword ≠ .ok true := by
    intro x hx hok
    by_cases hle : pw.utf8ByteSize ≤ 72
    · rw [hwrong x hx hle] at hok
      cases hok
    · rw [hb.check_long pw _ (by omega)] at hok
      cases hok
  have hsame : .committed ∉ h → w'.db.sessions = w.db.sessions := by
    intro hc
    rw [hplayed.uncommitted (by simp [hc])]
  cases hrun with
  | refused hx _ => exact absurd hx.password (hnot _ hx.found)
  | opened hx _ _ _ _ => exact absurd hx.password (hnot _ hx.found)
  | denied hden =>
    cases hden with
    | unknown hno =>
      constructor
      · intro _ hx
        obtain ⟨x, hx, he, hd⟩ := hx
        exact absurd hd (hno x hx he)
      · exact fun _ => ⟨rfl, hsame (by simp)⟩
    | ambiguous hx hy hne he he' _ _ => exact absurd (hi.email _ hx _ hy (he.trans he'.symm)) hne
    | suspended hx hok _ => exact absurd hok (hnot _ hx)
    | banned hx hok _ => exact absurd hok (hnot _ hx)
    | @wrong x hx hp =>
      constructor
      · intro _ _
        by_contra hlong
        rw [hb.check_long pw _ (by omega)] at hp
        cases hp
      · exact fun _ => ⟨rfl, hsame (by simp)⟩
    | @unchecked x y hx hp =>
      have hlong : ¬ pw.utf8ByteSize ≤ 72 := by
        intro hle
        rw [hwrong x hx hle] at hp
        cases hp
      rw [hb.check_long pw _ (by omega)] at hp
      cases hp
      constructor
      · intro hcred
        simp [Except.map, Exc.invalidCredentials] at hcred
      · exact fun hle => absurd (hle ⟨x, hx.mem, hx.email, hx.present⟩) hlong

/-- Two systems turn down a wrong password alike, unless one has the user and the password is too
long. -/
theorem failed_logins_alike_iff (hb : Bcrypt cfg) {w₁ w₁' w₂ w₂' : World γ} {i j : Nat}
    (hw₁ : Vacant w₁ i) (hw₂ : Vacant w₂ j) (hi₁ : Indexed w₁.db.users)
    (hi₂ : Indexed w₂.db.users) {e pw : String}
    (hpw₁ : ∀ x ∈ w₁.db.users.rows, x.email = e → x.deletedAt = none →
      ∃ q, x.Registered cfg q ∧ pw ≠ q)
    (hpw₂ : ∀ x ∈ w₂.db.users.rows, x.email = e → x.deletedAt = none →
      ∃ q, x.Registered cfg q ∧ pw ≠ q)
    {dev₁ ip₁ dev₂ ip₂ : Option String} {cs₁ cs₂ : List (Choice χ)} {r₁ r₂ : Except Exc Out}
    (hr₁ : (semantics cfg C).run i cs₁ (Call.prog cfg (.authenticate e pw dev₁ ip₁)) w₁ =
      some (r₁, w₁'))
    (hr₂ : (semantics cfg C).run j cs₂ (Call.prog cfg (.authenticate e pw dev₂ ip₂)) w₂ =
      some (r₂, w₂')) :
    (r₁ = .error .invalidCredentials ∧ w₁'.db.sessions = w₁.db.sessions) ∧
      (r₂ = .error .invalidCredentials ∧ w₂'.db.sessions = w₂.db.sessions) ↔
    ((∃ x, (x ∈ w₁.db.users.rows ∨ x ∈ w₂.db.users.rows) ∧ x.email = e ∧ x.deletedAt = none) →
      pw.utf8ByteSize ≤ 72) := by
  rw [hw₁.unregistered_login_iff hb hi₁ hpw₁ hr₁, hw₂.unregistered_login_iff hb hi₂ hpw₂ hr₂]
  constructor
  · intro h hx
    obtain ⟨x, hx | hx, he⟩ := hx
    · exact h.1 ⟨x, hx, he⟩
    · exact h.2 ⟨x, hx, he⟩
  · intro h
    constructor
    · intro hx
      obtain ⟨x, hx, he⟩ := hx
      exact h ⟨x, .inl hx, he⟩
    · intro hx
      obtain ⟨x, hx, he⟩ := hx
      exact h ⟨x, .inr hx, he⟩

theorem twins_registered : ∀ x ∈ twins.db.users.rows, x.Registered bcryptConfig "secret" := by
  intro x hx
  have hsecret : ∀ x ∈ twins.db.users.rows, x.hashedPassword = "secret" := by decide +kernel
  refine ⟨"", ?_⟩
  rw [hsecret x hx]
  decide +kernel

def bcryptAttempt (k : Call) (w : World (TimedStore Key Json)) :
    Option (Except Exc Out × World (TimedStore Key Json)) :=
  (semantics bcryptConfig TimedStore.reliable).run 0 (List.replicate 20 (moment 1 "new"))
    (Call.prog bcryptConfig k) w

def asBob (pw : String) (w : World (TimedStore Key Json)) :
    Option (Except Exc Out × World (TimedStore Key Json)) :=
  bcryptAttempt (.authenticate "bob@example.org" pw none none) w

theorem failed_logins_alike_twins : ∃ r₁ w₁ r₂ w₂, asBob "wrong" twins = some (r₁, w₁) ∧
    asBob "wrong" sampleWorld = some (r₂, w₂) ∧
    ((r₁ = .error .invalidCredentials ∧ w₁.db.sessions = twins.db.sessions) ∧
        (r₂ = .error .invalidCredentials ∧ w₂.db.sessions = sampleWorld.db.sessions) ↔
      ((∃ x, (x ∈ twins.db.users.rows ∨ x ∈ sampleWorld.db.users.rows) ∧
        x.email = "bob@example.org" ∧ x.deletedAt = none) → "wrong".utf8ByteSize ≤ 72)) := by
  have h₁ : (asBob "wrong" twins).isSome = true := by decide +kernel
  have h₂ : (asBob "wrong" sampleWorld).isSome = true := by decide +kernel
  obtain ⟨⟨r₁, w₁⟩, h₁⟩ := Option.isSome_iff_exists.mp h₁
  obtain ⟨⟨r₂, w₂⟩, h₂⟩ := Option.isSome_iff_exists.mp h₂
  have hnobody : ∀ x ∈ sampleWorld.db.users.rows, x.email ≠ "bob@example.org" := by decide +kernel
  exact ⟨r₁, w₁, r₂, w₂, h₁, h₂, failed_logins_alike_iff bcryptConfig_bcrypt ⟨rfl, fun _ => rfl⟩
    ⟨rfl, fun _ => rfl⟩ ⟨by decide +kernel, by decide +kernel⟩ sampleWorld_indexed
    (fun x hx _ _ => ⟨"secret", twins_registered x hx, by decide⟩)
    (fun x hx he => absurd he (hnobody x hx)) h₁ h₂⟩

def longPassword : String := String.ofList (List.replicate 73 'x')

/-- A password of 73 bytes tells who has an account, although it is nobody's. -/
theorem long_password_tells : (∀ x ∈ twins.db.users.rows, x.Registered bcryptConfig "secret") ∧
    (∀ x ∈ sampleWorld.db.users.rows, x.email ≠ "bob@example.org") ∧ longPassword ≠ "secret" ∧
    (asBob longPassword twins).map Prod.fst = some (.error .valueError) ∧
    (asBob longPassword sampleWorld).map Prod.fst = some (.error .invalidCredentials) :=
  ⟨twins_registered, by decide +kernel, by decide +kernel, by decide +kernel, by decide +kernel⟩

end AsyncPulse
