import AsyncPulse.Audit
set_option autoImplicit false

namespace AsyncPulse

/-- The body of `POST /users` as it arrives. -/
structure UserCreateBody where
  email : String
  name : String
  username : String
  password : String
  deriving DecidableEq, Repr

/-- The body of `PATCH /users/{user_id}` as it arrives. -/
structure UserUpdateBody where
  email : Option String
  username : Option String
  deriving DecidableEq, Repr

/-- `Field(min_length=lo, max_length=hi)`, counted in characters. -/
def ofLength (lo hi : Nat) (s : String) : Option String :=
  if lo ≤ s.length ∧ s.length ≤ hi then some s else none

theorem ofLength_some {lo hi : Nat} {s s' : String} (h : ofLength lo hi s = some s') :
    s' = s ∧ s.length ≤ hi := by
  unfold ofLength at h
  split at h
  · rename_i hs
    exact ⟨(Option.some.inj h).symm, hs.2⟩
  · cases h

/-- `Field(min_length=lo)`. -/
def atLeast (lo : Nat) (s : String) : Option String := if lo ≤ s.length then some s else none

def optional {α β : Type} (f : α → Option β) : Option α → Option (Option β)
  | none => some none
  | some a => (f a).map some

/-- `emailStr` stands for the validator of `EmailStr`: an address, or nothing when the text is not
one. -/
def UserCreate.validate (emailStr : String → Option String) (b : UserCreateBody) :
    Option UserCreate := do
  let email ← emailStr b.email
  let name ← ofLength 3 100 b.name
  let username ← ofLength 3 25 b.username
  let password ← atLeast 8 b.password
  return { email := email, name := name, username := username, password := password }

def UserUpdate.validate (emailStr : String → Option String) (b : UserUpdateBody) :
    Option UserUpdate := do
  let email ← optional emailStr b.email
  let username ← optional (ofLength 3 100) b.username
  return { email := email, username := username }

variable {emailStr : String → Option String}

structure UserCreate.Accepted (emailStr : String → Option String) (b : UserCreateBody)
    (p : UserCreate) : Prop where
  email : emailStr b.email = some p.email
  name : p.name.length ≤ 100
  username : p.username.length ≤ 25
  password : p.password = b.password

theorem UserCreate.accepted {b : UserCreateBody} {p : UserCreate}
    (h : UserCreate.validate emailStr b = some p) : UserCreate.Accepted emailStr b p := by
  simp only [UserCreate.validate, Option.bind_eq_bind, Option.bind_eq_some_iff, Option.pure_def,
    Option.some.injEq] at h
  obtain ⟨email, he, name, hn, username, hu, password, hp, rfl⟩ := h
  obtain ⟨rfl, hname⟩ := ofLength_some hn
  obtain ⟨rfl, husername⟩ := ofLength_some hu
  simp only [atLeast, Option.ite_none_right_eq_some, Option.some.injEq] at hp
  exact ⟨he, hname, husername, hp.2.symm⟩

structure UserUpdate.Accepted (emailStr : String → Option String) (b : UserUpdateBody)
    (p : UserUpdate) : Prop where
  email : ∀ e, b.email = some e → ∃ e', emailStr e = some e' ∧ p.email = some e'
  given : ∀ e', p.email = some e' → ∃ e, emailStr e = some e'
  username : ∀ s, p.username = some s → s.length ≤ 100

theorem UserUpdate.accepted {b : UserUpdateBody} {p : UserUpdate}
    (h : UserUpdate.validate emailStr b = some p) : UserUpdate.Accepted emailStr b p := by
  simp only [UserUpdate.validate, Option.bind_eq_bind, Option.bind_eq_some_iff, Option.pure_def,
    Option.some.injEq] at h
  obtain ⟨email, he, username, hu, rfl⟩ := h
  refine ⟨fun e hb => ?_, fun e' hb => ?_, fun s hs => ?_⟩
  · rw [hb] at he
    obtain ⟨e', he', rfl⟩ := Option.map_eq_some_iff.mp he
    exact ⟨e', he', rfl⟩
  · obtain rfl : email = some e' := hb
    cases hbe : b.email with
    | none =>
      rw [hbe] at he
      cases he
    | some e =>
      rw [hbe] at he
      obtain ⟨e'', he', hsome⟩ := Option.map_eq_some_iff.mp he
      cases hsome
      exact ⟨e, he'⟩
  · obtain rfl : username = some s := hs
    cases hbu : b.username with
    | none =>
      rw [hbu] at hu
      cases hu
    | some v =>
      rw [hbu] at hu
      obtain ⟨s', hs', hsome⟩ := Option.map_eq_some_iff.mp hu
      cases hsome
      obtain ⟨rfl, hlen⟩ := ofLength_some hs'
      exact hlen

/-- What the service may expect of `bcrypt`: it takes 72 bytes at most, and verifies just the
password that it has hashed. -/
structure Bcrypt (cfg : Config) : Prop where
  hashes : ∀ salt pw, pw.utf8ByteSize ≤ 72 →
    ∃ hashed, cfg.hashpw salt pw = .ok hashed ∧ hashed.length ≤ 255
  hash_long : ∀ salt pw, 72 < pw.utf8ByteSize → cfg.hashpw salt pw = .error .valueError
  check_long : ∀ pw hashed, 72 < pw.utf8ByteSize → cfg.checkpw pw hashed = .error .valueError
  checks : ∀ salt pw pw' hashed, cfg.hashpw salt pw = .ok hashed → pw'.utf8ByteSize ≤ 72 →
    cfg.checkpw pw' hashed = .ok (decide (pw' = pw))

def UserModel.Registered (cfg : Config) (x : UserModel) (pw : String) : Prop :=
  ∃ salt, cfg.hashpw salt pw = .ok x.hashedPassword

theorem length_le_utf8ByteSize (s : String) : s.length ≤ s.utf8ByteSize := by
  induction s using String.push_induction with
  | empty => exact Nat.zero_le _
  | push s c ih =>
    have hc := c.utf8Size_pos
    rw [String.length_push, String.utf8ByteSize_push]
    omega

def bcryptConfig : Config :=
  { sampleConfig with
    hashpw := fun _ pw => if pw.utf8ByteSize ≤ 72 then .ok pw else .error .valueError
    checkpw := fun pw hashed =>
      if pw.utf8ByteSize ≤ 72 then .ok (decide (pw = hashed)) else .error .valueError }

theorem bcryptConfig_bcrypt : Bcrypt bcryptConfig where
  hashes salt pw h := by
    refine ⟨pw, if_pos h, ?_⟩
    have hle := length_le_utf8ByteSize pw
    omega
  hash_long salt pw h := if_neg (by omega)
  check_long pw hashed h := if_neg (by omega)
  checks salt pw pw' hashed h hle := by
    change (if pw.utf8ByteSize ≤ 72 then Except.ok pw else _) = _ at h
    split at h
    · cases h
      exact if_pos hle
    · cases h

end AsyncPulse
