import AsyncPulse.Provenance
set_option autoImplicit false

namespace AsyncPulse
open Effect

variable {γ χ : Type} {cfg : Config} {C : MayCache Key Json γ χ}

namespace Provenance

variable {m : Nat → Option Call} {w w' : World γ} {i : Nat} {k : Call}

theorem tick (h : Provenance cfg C m w) {t : Time} (ht : w.clock ≤ t) :
    Provenance cfg C m (w.setClock t) :=
  { h with clock := fun i t' ht' => Int.le_trans (h.clock i t' ht') ht }

theorem call (h : Provenance cfg C m w) (hm : m i = none) (ha : (app cfg C).accepts k w = true) :
    Provenance cfg C (Function.update m i (some k)) w := by
  refine { h with idle := fun j hj => ?_, lawful := fun j k' hj => ?_, presented := ?_ }
  · by_cases hij : j = i
    · subst hij
      simp at hj
    · rw [Function.update_of_ne hij] at hj
      exact h.idle j hj
  · by_cases hij : j = i
    · subst hij
      rw [h.idle j hm]
      exact .nil
    · rw [Function.update_of_ne hij] at hj
      exact h.lawful j k' hj
  · intro j k' c hj hp
    by_cases hij : j = i
    · subst hij
      simp only [Function.update_self, Option.some.injEq] at hj
      subst hj
      obtain ⟨t, ht, hv⟩ := hp
      have hall : ∀ x ∈ k.tokens, presentable cfg w x = true := List.all_eq_true.mp ha
      have := hall t ht
      simpa [presentable, hv] using this
    · rw [Function.update_of_ne hij] at hj
      exact h.presented j k' c hj hp

theorem init (hw : Init C w) : Provenance cfg C (fun _ => none) w := by
  have hs : ∀ s x, ¬ w.db.sessions.get s = some x := fun s x hx => by
    have := Keyed.mem_of_get hx
    simp [hw.noSession] at this
  have hm : ∀ i a, a ∉ w.hist i := fun i a => by simp [hw.hist i]
  constructor
  · exact fun i _ => hw.hist i
  · exact fun i k hi => by cases hi
  · exact fun i k c hi => by cases hi
  · intro i
    simp [hw.pending i, hw.hist i]
  · intro u i
    simp [hw.drawn u, hw.hist i]
  · intro u i hu
    rw [hw.drawn u] at hu
    cases hu
  · intro c
    simp [hw.minted, hw.hist]
  · intro l i hl
    rw [hw.locks l] at hl
    cases hl
  · exact fun i t ht => absurd ht (hm i _)
  · rintro i r ⟨q, rows, hr, -⟩
    exact absurd hr (hm i _)
  · rintro i x ⟨q, rows, hr, -⟩
    exact absurd hr (hm i _)
  · exact fun i v hv => absurd hv (hm i _)
  · exact fun s x hx => absurd hx (hs s x)
  · exact fun s x t hx => absurd hx (hs s x)
  · exact fun key v hv => absurd hv (hw.cache key v)
  · exact fun i key v hv => absurd hv (hm i _)
  · intro u x hx
    obtain ⟨hr, rfl⟩ := Keyed.get_eq_some.mp hx
    exact hw.userIds x hr

end Provenance

def audit (cfg : Config) (C : MayCache Key Json γ χ) : Contract (app cfg C) Act where
  toTrace := records cfg
  hist := World.hist
  inv := Provenance cfg C
  lawful := Lawful cfg
  post := Call.Finished cfg

theorem semantics_step {i : Nat} {c : Choice χ} {w w' : World γ} {β : Type} {e : Eff β}
    {r : Except Exc β} (hs : (semantics cfg C).step i c w e = some (r, w')) :
    Moved C i (e.act r) w w' ∧ ∃ w₁, handle cfg C i c w e = some (r, w₁) := by
  obtain ⟨⟨r', w₁⟩, hh, he⟩ := Option.map_eq_some_iff.mp hs
  simp only [Prod.mk.injEq] at he
  obtain ⟨rfl, rfl⟩ := he
  exact ⟨moved_of_handle hh, w₁, hh⟩

theorem semantics_commit {i : Nat} {c : Choice χ} {w w' : World γ} {β : Type} {e : Eff β}
    {r : Except Exc β} (he : e.isCommit = true)
    (hs : (semantics cfg C).step i c w e = some (r, w')) :
    (∃ a, r = .ok a) ∧ e.act r = .committed := by
  obtain ⟨-, w₁, hh⟩ := semantics_step hs
  cases e <;> simp only [Eff.isCommit, Bool.false_eq_true] at he
  simp only [handle, Option.some.injEq, Prod.mk.injEq] at hh
  obtain ⟨rfl, -⟩ := hh
  exact ⟨⟨(), rfl⟩, rfl⟩

theorem app_tick {c : Choice χ} {w w' : World γ} (ht : (app cfg C).tick c w = some w') :
    w.clock ≤ c.time ∧ w' = w.setClock c.time := by
  simp only [app, Option.ite_none_right_eq_some, Option.some.injEq] at ht
  exact ⟨ht.1, ht.2.symm⟩

theorem audit_kept : (audit cfg C).Kept where
  prog k := ⟨.nil, traced_prog k⟩
  record e i c w r w' hs := (semantics_step hs).1.hist
  valid e m i k c w r w' h hm hs := by
    obtain ⟨-, w₁, hh⟩ := semantics_step hs
    exact h.answer hh
  step e m i k c w r w' h hm hs hl := h.step hm (semantics_step hs).1 hl
  tick m c w w' h ht := by
    obtain ⟨hc, rfl⟩ := app_tick ht
    exact ⟨h.tick hc, rfl⟩
  call m i k w h hm ha := ⟨h.idle i hm, h.call hm ha⟩

abbrev State (γ : Type) := Sys Eff Exc (World γ) Call Out

/-- Some interleaving of calls leads from an initial system to `s`. -/
def Reachable (cfg : Config) (C : MayCache Key Json γ χ) (s : State γ) : Prop :=
  ∃ w ls, Init C w ∧ (app cfg C).execs ls ⟨w, fun _ => none⟩ = some s

namespace Reachable

variable {s s' : State γ}

theorem execs (hr : Reachable cfg C s) {ls : List (Label Call (Choice χ))}
    (hs : (app cfg C).execs ls s = some s') : Reachable cfg C s' := by
  obtain ⟨w, ls₀, hw, h₀⟩ := hr
  exact ⟨w, ls₀ ++ ls, hw, (app cfg C).execs_append.mpr ⟨s, h₀, hs⟩⟩

theorem exec (hr : Reachable cfg C s) {l : Label Call (Choice χ)}
    (hs : (app cfg C).exec l s = some s') : Reachable cfg C s' :=
  hr.execs (show (app cfg C).execs [l] s = some s' by simp [Service.execs, hs])

theorem holds (hr : Reachable cfg C s) : (audit cfg C).Holds s := by
  obtain ⟨w, ls, hw, hs⟩ := hr
  exact audit_kept.execs (Contract.holds_of_no_calls (Provenance.init hw)) hs

theorem provenance (hr : Reachable cfg C s) : Provenance cfg C s.script s.world := hr.holds.inv

theorem finished (hr : Reachable cfg C s) {i : Nat} {k : Call} {r : Except Exc Out}
    (hk : s.script i = some k) (hi : s.answer i = some r) : k.Finished cfg r (s.world.hist i) :=
  hr.holds.post hk hi

end Reachable

inductive Change (cfg : Config) (C : MayCache Key Json γ χ) (s : State γ) :
    Label Call (Choice χ) → World γ → Prop where
  | idle (l : Label Call (Choice χ)) (t : Time) (w : World γ) : s.world.clock ≤ t →
      w = s.world.setClock t → Change cfg C s l w
  | moved (i : Nat) (c : Choice χ) (k : Call) (β : Type) (e : Eff β)
      (f : Except Exc β → M Out) (r : Except Exc β) (w : World γ) :
      s.calls i = some (k, .op e f) → s.script i = some k → Moved C i (e.act r) s.world w →
      Lawful cfg k (s.world.hist i ++ [e.act r]) → Change cfg C s (.step i c) w

theorem Reachable.change {s s' : State γ} (hr : Reachable cfg C s) {l : Label Call (Choice χ)}
    (hs : (app cfg C).exec l s = some s') : Change cfg C s l s'.world := by
  have hh := hr.holds
  cases Service.exec_move _ hs with
  | call hn ha => exact .idle _ s.world.clock _ (Int.le_refl _) rfl
  | tick ht =>
    obtain ⟨hc, rfl⟩ := app_tick ht
    exact .idle _ _ _ hc rfl
  | @step i c s k β e f r w hc he =>
    obtain ⟨hmv, w₁, hh₁⟩ := semantics_step he
    have hk : s.script i = some k := by simp [Sys.script, hc]
    exact .moved i c k β e f r w hc hk hmv (hh.calls i k _ hc r (hh.inv.answer hh₁)).1

def symbolicJose : Jose where
  encode := .signed
  verify
    | .signed c => some c
    | .raw _ => none
  verify_encode _ := rfl
  encode_verify t c h := by
    cases t with
    | signed c' => rw [Option.some.inj h]
    | raw s => cases h

def sampleConfig : Config where
  accessTokenExpireMinutes := 15
  refreshTokenExpireDays := 7
  jose := symbolicJose
  hashpw _ password := .ok password
  checkpw password hashed := .ok (password = hashed)

def alice : UserModel where
  id := "alice"
  email := "alice@example.org"
  name := some "Alice"
  username := "alice"
  hashedPassword := "secret"
  status := .active
  role := .user
  deletedAt := none
  createdAt := 0
  updatedAt := 0

def sampleWorld : World (TimedStore Key Json) where
  db := { users := Keyed.empty.insert alice, sessions := .empty }
  pending _ := []
  locks _ := none
  cache := []
  clock := 0
  drawn _ := none
  minted := []
  hist _ := []

def bob : UserModel :=
  { alice with id := "bob", email := "bob@example.org", name := some "Bob", username := "bob" }

def twins : World (TimedStore Key Json) :=
  { sampleWorld with db := { users := (Keyed.empty.insert alice).insert bob, sessions := .empty } }

theorem sampleWorld_init : Init TimedStore.reliable sampleWorld := by
  refine ⟨rfl, ?_, fun _ => rfl, fun _ => rfl, ?_, fun _ => rfl, rfl, fun _ => rfl⟩
  · have hr : sampleWorld.db.users.rows = [alice] := Keyed.rows_insert rfl
    simp [hr, alice]
  · rintro key v ⟨e, he⟩
    simp [sampleWorld] at he

abbrev sampleApp : Service Eff Exc (World (TimedStore Key Json)) (Choice Unit) Call Out :=
  app sampleConfig TimedStore.reliable

def sampleState : State (TimedStore Key Json) := ⟨sampleWorld, fun _ => none⟩

theorem sampleState_reachable : Reachable sampleConfig TimedStore.reliable sampleState :=
  ⟨sampleWorld, [], sampleWorld_init, rfl⟩

def moment (t : Int) (u : String) : Choice Unit :=
  { time := seconds t, uuid := u, salt := "", rank := fun _ => 0, abort := false, cache := () }

def effects (i n : Nat) (t : Int) (u : String) : List (Label Call (Choice Unit)) :=
  List.replicate n (.step i (moment t u))

def signIn : List (Label Call (Choice Unit)) :=
  .call 0 (.authenticate "alice@example.org" "secret" none none) :: effects 0 14 1 "s1"

def signedIn : State (TimedStore Key Json) := sampleApp.afterwards signIn sampleState

theorem signedIn_reachable : Reachable sampleConfig TimedStore.reliable signedIn :=
  ⟨sampleWorld, signIn, sampleWorld_init, Service.execs_afterwards _ (by decide +kernel)⟩

def aliceSession : SessionModel where
  id := "s1"
  userId := "alice"
  deviceInfo := none
  ipAddress := none
  createdAt := seconds 1
  expiresAt := seconds 604801
  revokedAt := none
  previousSessionId := none

def accessToken (s : String) (exp : Int) : Token :=
  .signed { sub := "alice", exp := exp, type := .access, sid := some s, jti := none }

def refreshTokenOf (s : String) : Token :=
  .signed { sub := "alice", exp := 604801, type := .refresh, sid := none, jti := some s }

end AsyncPulse
