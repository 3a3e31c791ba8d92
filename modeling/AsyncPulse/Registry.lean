import Mathlib.Data.Set.Card
import Mathlib.Order.Basic
set_option autoImplicit false

/-! Accounts and the sessions opened for them, as a service that keeps them is meant to work. -/

namespace Registry

/-- Whose a session is, when it was opened and when it expires, which session it renews, and when
it was closed. -/
structure Session (U S T : Type) where
  owner : U
  opened : T
  expires : T
  renews : Option S
  closed : Option T

structure Book (U S P T : Type) where
  clock : T
  account : U → Option P
  session : S → Option (Session U S T)

/-- What the service holds its accounts to: who is in good standing, who may not both have an
account, what may become of one, how many sessions it may have at a time, and how long they last. -/
structure Policy (P T : Type) where
  standing : P → Prop
  clash : P → P → Prop
  revises : P → P → Prop
  limit : Nat
  expiry : T → T

variable {U S P T : Type}

namespace Book

variable (L : Book U S P T)

def Active [LT T] (u : U) (t : T) (s : S) : Prop :=
  ∃ e, L.session s = some e ∧ e.owner = u ∧ e.closed = none ∧ t < e.expires

def Free (π : Policy P T) (u : U) (p : P) : Prop :=
  ∀ u' p', u' ≠ u → L.account u' = some p' → ¬ π.clash p' p

def tick (t : T) : Book U S P T := { L with clock := t }

def enter [DecidableEq U] (u : U) (p : P) : Book U S P T :=
  { L with account := Function.update L.account u (some p) }

/-- The sessions that `E` has a time for are closed. -/
def close (E : S → Option T) : Book U S P T :=
  { L with session := fun s => (L.session s).map fun e => { e with closed := (E s).or e.closed } }

def add [DecidableEq S] (s : S) (e : Session U S T) : Book U S P T :=
  { L with session := Function.update L.session s (some e) }

def sweep [DecidableEq U] (u : U) (t : T) (s : S) : Option T :=
  (L.session s).bind fun e => if e.owner = u ∧ e.closed.isNone then some t else none

variable {L}

theorem close_session {E : S → Option T} {s : S} {e : Session U S T}
    (h : (L.close E).session s = some e) :
    ∃ e', L.session s = some e' ∧ e = { e' with closed := (E s).or e'.closed } := by
  obtain ⟨e', he, rfl⟩ := Option.map_eq_some_iff.mp h
  exact ⟨e', he, rfl⟩

theorem close_open {E : S → Option T} {s : S} {e : Session U S T}
    (h : (L.close E).session s = some e) (ho : e.closed = none) :
    L.session s = some e ∧ E s = none := by
  obtain ⟨e', he, rfl⟩ := close_session h
  obtain ⟨hs, hc⟩ := Option.or_eq_none_iff.mp ho
  refine ⟨?_, hs⟩
  rw [he, hs]
  rfl

theorem close_active [LT T] {E : S → Option T} {u : U} {t : T} {s : S}
    (h : (L.close E).Active u t s) : L.Active u t s ∧ E s = none := by
  obtain ⟨e, he, hu, ho, ht⟩ := h
  obtain ⟨he', hs⟩ := close_open he ho
  exact ⟨⟨e, he', hu, ho, ht⟩, hs⟩

theorem sweep_closes [DecidableEq U] {u : U} {t : T} {s : S} {e : Session U S T}
    (h : (L.close (L.sweep u t)).session s = some e) (hu : e.owner = u) : e.closed ≠ none := by
  intro ho
  obtain ⟨he, hs⟩ := close_open h ho
  simp [sweep, he, hu, ho] at hs

@[simp] theorem enter_self [DecidableEq U] (u : U) (p : P) : (L.enter u p).account u = some p :=
  Function.update_self ..

theorem enter_of_ne [DecidableEq U] {u u' : U} (hu : u' ≠ u) (p : P) :
    (L.enter u p).account u' = L.account u' := Function.update_of_ne hu ..

@[simp] theorem add_self [DecidableEq S] (s : S) (e : Session U S T) :
    (L.add s e).session s = some e := Function.update_self ..

theorem add_of_ne [DecidableEq S] {s s' : S} (hs : s' ≠ s) (e : Session U S T) :
    (L.add s e).session s' = L.session s' := Function.update_of_ne hs ..

theorem add_session [DecidableEq S] {s s' : S} {e e' : Session U S T}
    (h : (L.add s e).session s' = some e') : s' = s ∧ e' = e ∨ s' ≠ s ∧ L.session s' = some e' := by
  by_cases hs : s' = s
  · subst hs
    rw [add_self] at h
    exact .inl ⟨rfl, (Option.some.inj h).symm⟩
  · rw [add_of_ne hs] at h
    exact .inr ⟨hs, h⟩

end Book

inductive Event (U S P T : Type) where
  | idle
  | gone (s : S)
  | enrol (u : U) (p : P)
  | amend (u : U) (p p' : P)
  | expel (u : U) (p p' : P) (t : T)
  | signIn (u : U) (p : P) (s : S)
  | renew (s s' : S)
  | signOut (s : S) (t : T)
  | signOutAll (u : U) (t : T)

/-- A login of `u` closes `E` to make room for one more session: sessions active at `now`, as many
as needed, the oldest first. -/
structure Book.MakesRoom [LE T] [LT T] (L : Book U S P T) (limit : Nat) (u : U) (now : T)
    (E : S → Option T) : Prop where
  active : ∀ s, E s ≠ none → L.Active u now s
  room : {s | L.Active u now s ∧ E s = none}.encard < limit
  needed : (∃ s, E s ≠ none) → {s | L.Active u now s ∧ E s = none}.encard + 1 = limit
  oldest : ∀ s s' e e', E s ≠ none → L.session s = some e → L.Active u now s' → E s' = none →
    L.session s' = some e' → e.opened ≤ e'.opened

/-- What may happen to the book, and what it comes to. -/
inductive Step [DecidableEq U] [DecidableEq S] [LE T] [LT T] (π : Policy P T) (L : Book U S P T) :
    Event U S P T → Book U S P T → Prop where
  | idle {t : T} : L.clock ≤ t → Step π L .idle (L.tick t)
  | gone {s : S} {t : T} : L.clock ≤ t → (∀ e, L.session s = some e → e.closed ≠ none) →
      Step π L (.gone s) (L.tick t)
  | enrol {u : U} {p : P} {t : T} : L.clock ≤ t → L.account u = none → π.standing p →
      L.Free π u p → Step π L (.enrol u p) ((L.enter u p).tick t)
  | amend {u : U} {p p' : P} {t : T} : L.clock ≤ t → L.account u = some p → π.revises p p' →
      (π.standing p → π.standing p') → L.Free π u p' →
        Step π L (.amend u p p') ((L.enter u p').tick t)
  | expel {u : U} {p p' : P} {t₁ t : T} : L.clock ≤ t₁ → t₁ ≤ t → L.account u = some p →
      π.revises p p' → ¬ π.standing p' → L.Free π u p' →
      Step π L (.expel u p p' t₁) (((L.enter u p').close (L.sweep u t₁)).tick t)
  | signIn {u : U} {p : P} {s : S} {E : S → Option T} {now t₁ t₂ t : T} : L.clock ≤ now →
      now ≤ t₁ → t₁ ≤ t → t₂ ≤ t → (∀ s t₃, E s = some t₃ → L.clock ≤ t₃ ∧ t₃ ≤ t) →
      L.account u = some p → π.standing p → L.session s = none → L.MakesRoom π.limit u now E →
      Step π L (.signIn u p s) (((L.close E).add s
        { owner := u, opened := t₂, expires := π.expiry t₁, renews := none, closed := none }).tick t)
  | renew {s s' : S} {e : Session U S T} {p : P} {now t₁ t₂ t : T} : L.clock ≤ now →
      L.clock ≤ t₁ → t₁ ≤ t → t₂ ≤ t → L.session s = some e → e.closed = none → now ≤ e.expires →
      L.account e.owner = some p → π.standing p → L.session s' = none →
      Step π L (.renew s s') (((L.close (Function.update (fun _ => none) s (some t₁))).add s'
        { owner := e.owner, opened := t₂, expires := e.expires, renews := some s,
          closed := none }).tick t)
  | signOut {s : S} {e : Session U S T} {t₁ t : T} : L.clock ≤ t₁ → t₁ ≤ t →
      L.session s = some e → e.closed = none →
      Step π L (.signOut s t₁) ((L.close (Function.update (fun _ => none) s (some t₁))).tick t)
  | signOutAll {u : U} {t₁ t : T} : L.clock ≤ t₁ → t₁ ≤ t →
      Step π L (.signOutAll u t₁) ((L.close (L.sweep u t₁)).tick t)

inductive Run [DecidableEq U] [DecidableEq S] [LE T] [LT T] (π : Policy P T) (L : Book U S P T) :
    List (Event U S P T) → Book U S P T → Prop where
  | nil : Run π L [] L
  | snoc {es : List (Event U S P T)} {e : Event U S P T} {L₁ L₂ : Book U S P T} :
      Run π L es L₁ → Step π L₁ e L₂ → Run π L (es ++ [e]) L₂

/-- Every session belongs to an account, and to one in good standing unless it is closed. No
account has more active sessions than the limit, now or later. A session is renewed at most once,
is closed then, and hands on its owner and its expiry. No two accounts clash. -/
structure Sound [LE T] [LT T] (π : Policy P T) (L : Book U S P T) : Prop where
  owned : ∀ s e, L.session s = some e → L.account e.owner ≠ none
  barred : ∀ s e p, L.session s = some e → L.account e.owner = some p → ¬ π.standing p →
    e.closed ≠ none
  limited : ∀ u t, L.clock ≤ t → {s | L.Active u t s}.encard ≤ π.limit
  renewed : ∀ s e r, L.session s = some e → e.renews = some r →
    ∃ e', L.session r = some e' ∧ e'.owner = e.owner ∧ e'.expires = e.expires ∧ e'.closed ≠ none
  once : ∀ s s' e e' r, L.session s = some e → L.session s' = some e' → e.renews = some r →
    e'.renews = some r → s = s'
  apart : ∀ u u' p p', L.account u = some p → L.account u' = some p' → π.clash p p' → u = u'

namespace Sound

variable [LinearOrder T] {π : Policy P T} {L : Book U S P T}

theorem tick (h : Sound π L) {t : T} (ht : L.clock ≤ t) : Sound π (L.tick t) where
  owned := h.owned
  barred := h.barred
  limited u t' ht' := h.limited u t' (ht.trans ht')
  renewed := h.renewed
  once := h.once
  apart := h.apart

theorem close (h : Sound π L) (E : S → Option T) : Sound π (L.close E) where
  owned s e he := by
    obtain ⟨e', he', rfl⟩ := Book.close_session he
    exact h.owned s e' he'
  barred s e p he hp hn := by
    obtain ⟨e', he', rfl⟩ := Book.close_session he
    intro ho
    exact h.barred s e' p he' hp hn (Option.or_eq_none_iff.mp ho).2
  limited u t ht :=
    (Set.encard_le_encard fun _ hs => (Book.close_active hs).1).trans (h.limited u t ht)
  renewed s e r he hr := by
    obtain ⟨e', he', rfl⟩ := Book.close_session he
    obtain ⟨e₀, hr₀, ho, hx, hc⟩ := h.renewed s e' r he' hr
    refine ⟨{ e₀ with closed := (E r).or e₀.closed }, ?_, ho, hx, ?_⟩
    · simp [Book.close, hr₀]
    · intro hn
      exact hc (Option.or_eq_none_iff.mp hn).2
  once s s' e e' r he he' hr hr' := by
    obtain ⟨e₁, he₁, rfl⟩ := Book.close_session he
    obtain ⟨e₂, he₂, rfl⟩ := Book.close_session he'
    exact h.once s s' e₁ e₂ r he₁ he₂ hr hr'
  apart := h.apart

theorem enter [DecidableEq U] (h : Sound π L) {u : U} {p : P}
    (hsym : ∀ p p', π.clash p p' → π.clash p' p)
    (hfree : L.Free π u p)
    (hbar : ¬ π.standing p → ∀ s e, L.session s = some e → e.owner = u → e.closed ≠ none) :
    Sound π (L.enter u p) where
  owned s e he := by
    by_cases hu : e.owner = u
    · simp [hu]
    · rw [Book.enter_of_ne hu]
      exact h.owned s e he
  barred s e p' he hp hn := by
    by_cases hu : e.owner = u
    · rw [hu, Book.enter_self] at hp
      exact hbar (Option.some.inj hp ▸ hn) s e he hu
    · rw [Book.enter_of_ne hu] at hp
      exact h.barred s e p' he hp hn
  limited := h.limited
  renewed := h.renewed
  once := h.once
  apart u₁ u₂ p₁ p₂ h₁ h₂ hc := by
    by_contra hne
    by_cases hu₁ : u₁ = u
    · have hu₂ : u₂ ≠ u := fun hu => hne (hu₁.trans hu.symm)
      rw [hu₁, Book.enter_self] at h₁
      rw [Book.enter_of_ne hu₂] at h₂
      exact hfree u₂ p₂ hu₂ h₂ (hsym _ _ (Option.some.inj h₁ ▸ hc))
    · rw [Book.enter_of_ne hu₁] at h₁
      by_cases hu₂ : u₂ = u
      · rw [hu₂, Book.enter_self] at h₂
        exact hfree u₁ p₁ hu₁ h₁ (Option.some.inj h₂ ▸ hc)
      · rw [Book.enter_of_ne hu₂] at h₂
        exact hne (h.apart u₁ u₂ p₁ p₂ h₁ h₂ hc)

/-- A session may be opened for an account in good standing that has room for it. If it renews
another, that one is closed and has not been renewed. -/
theorem add [DecidableEq S] (h : Sound π L) {s : S} {e : Session U S T} {p : P}
    (hs : L.session s = none) (hp : L.account e.owner = some p) (hok : π.standing p)
    (hroom : ∀ t, L.clock ≤ t → t < e.expires → {s | L.Active e.owner t s}.encard < π.limit)
    (hrenews : ∀ r, e.renews = some r → ∃ e', L.session r = some e' ∧ e'.owner = e.owner ∧
      e'.expires = e.expires ∧ e'.closed ≠ none)
    (hfirst : ∀ r s' e', e.renews = some r → L.session s' = some e' → e'.renews ≠ some r) :
    Sound π (L.add s e) where
  owned s' e' he := by
    obtain ⟨-, rfl⟩ | ⟨-, he⟩ := Book.add_session he
    · rw [show (L.add s e').account = L.account from rfl, hp]
      exact Option.some_ne_none p
    · exact h.owned s' e' he
  barred s' e' p' he hp' hn := by
    obtain ⟨-, rfl⟩ | ⟨-, he⟩ := Book.add_session he
    · rw [show (L.add s e').account = L.account from rfl, hp] at hp'
      exact absurd (Option.some.inj hp' ▸ hok) hn
    · exact h.barred s' e' p' he hp' hn
  limited u t ht := by
    by_cases hnew : e.owner = u ∧ t < e.expires
    · obtain ⟨rfl, hlt⟩ := hnew
      have hsub : {s' | (L.add s e).Active e.owner t s'} ⊆ insert s {s' | L.Active e.owner t s'} := by
        intro s' hs'
        obtain ⟨e', he, hu, ho, ht'⟩ := hs'
        obtain ⟨rfl, -⟩ | ⟨-, he⟩ := Book.add_session he
        · exact Set.mem_insert _ _
        · exact Set.mem_insert_of_mem _ ⟨e', he, hu, ho, ht'⟩
      calc {s' | (L.add s e).Active e.owner t s'}.encard
          ≤ (insert s {s' | L.Active e.owner t s'}).encard := Set.encard_le_encard hsub
        _ ≤ {s' | L.Active e.owner t s'}.encard + 1 := Set.encard_insert_le _ _
        _ ≤ π.limit := Order.add_one_le_of_lt (hroom t ht hlt)
    · refine (Set.encard_le_encard fun s' hs' => ?_).trans (h.limited u t ht)
      obtain ⟨e', he, hu, ho, ht'⟩ := hs'
      obtain ⟨-, rfl⟩ | ⟨-, he⟩ := Book.add_session he
      · exact absurd ⟨hu, ht'⟩ hnew
      · exact ⟨e', he, hu, ho, ht'⟩
  renewed s' e' r he hr := by
    have hstill : ∀ e₀, L.session r = some e₀ → (L.add s e).session r = some e₀ := by
      intro e₀ he₀
      have hne : r ≠ s := by
        rintro rfl
        rw [hs] at he₀
        cases he₀
      rw [Book.add_of_ne hne, he₀]
    obtain ⟨-, rfl⟩ | ⟨-, he⟩ := Book.add_session he
    · obtain ⟨e₀, he₀, hrest⟩ := hrenews r hr
      exact ⟨e₀, hstill e₀ he₀, hrest⟩
    · obtain ⟨e₀, he₀, hrest⟩ := h.renewed s' e' r he hr
      exact ⟨e₀, hstill e₀ he₀, hrest⟩
  once s₁ s₂ e₁ e₂ r h₁ h₂ hr₁ hr₂ := by
    obtain ⟨rfl, rfl⟩ | ⟨-, hold₁⟩ := Book.add_session h₁
    · obtain ⟨rfl, -⟩ | ⟨-, hold₂⟩ := Book.add_session h₂
      · rfl
      · exact absurd hr₂ (hfirst r s₂ e₂ hr₁ hold₂)
    · obtain ⟨rfl, rfl⟩ | ⟨-, hold₂⟩ := Book.add_session h₂
      · exact absurd hr₁ (hfirst r s₁ e₁ hr₂ hold₁)
      · exact h.once s₁ s₂ e₁ e₂ r hold₁ hold₂ hr₁ hr₂
  apart := h.apart

theorem signIn [DecidableEq S] (h : Sound π L) {u : U} {p : P} {s : S} {E : S → Option T}
    {now t₁ t₂ : T} (hnow : L.clock ≤ now) (hp : L.account u = some p) (hok : π.standing p)
    (hs : L.session s = none) (hE : L.MakesRoom π.limit u now E) :
    Sound π (((L.tick now).close E).add s
      { owner := u, opened := t₂, expires := π.expiry t₁, renews := none, closed := none }) := by
  refine ((h.tick hnow).close E).add (by simp [Book.close, Book.tick, hs]) hp hok ?_ ?_ ?_
  · intro t ht _
    refine (Set.encard_le_encard fun s' hs' => ?_).trans_lt hE.room
    obtain ⟨⟨e, he, hu, ho, hlt⟩, hE'⟩ := Book.close_active hs'
    exact ⟨⟨e, he, hu, ho, lt_of_le_of_lt ht hlt⟩, hE'⟩
  · intro r hr
    cases hr
  · intro r s' e' hr
    cases hr

theorem renew [DecidableEq S] (h : Sound π L) {s s' : S} {e : Session U S T} {p : P} {t₁ t₂ : T}
    (he : L.session s = some e) (ho : e.closed = none) (hp : L.account e.owner = some p)
    (hok : π.standing p) (hs' : L.session s' = none) :
    Sound π ((L.close (Function.update (fun _ => none) s (some t₁))).add s'
      { owner := e.owner, opened := t₂, expires := e.expires, renews := some s,
        closed := none }) := by
  have hclosed : (L.close (Function.update (fun _ => none) s (some t₁))).session s =
      some { e with closed := some t₁ } := by
    simp [Book.close, he]
  refine (h.close _).add (by simp [Book.close, hs']) hp hok ?_ ?_ ?_
  · intro t ht hlt
    have hfinite : {x | L.Active e.owner t x}.Finite :=
      Set.finite_of_encard_le_coe (h.limited e.owner t ht)
    have hsub : {x | (L.close (Function.update (fun _ => none) s (some t₁))).Active e.owner t x} ⊂
        {x | L.Active e.owner t x} := by
      refine ⟨fun x hx => (Book.close_active hx).1, fun hall => ?_⟩
      obtain ⟨-, hn⟩ := Book.close_active (hall ⟨e, he, rfl, ho, hlt⟩)
      simp at hn
    exact ((hfinite.subset hsub.1).encard_lt_encard hsub).trans_le (h.limited e.owner t ht)
  · rintro r ⟨⟩
    exact ⟨_, hclosed, rfl, rfl, Option.some_ne_none t₁⟩
  · rintro r x e' ⟨⟩ hx hr
    obtain ⟨e₀, he₀, rfl⟩ := Book.close_session hx
    obtain ⟨e₁, he₁, -, -, hc⟩ := h.renewed x e₀ s he₀ hr
    rw [he] at he₁
    exact hc (Option.some.inj he₁ ▸ ho)

end Sound

section

variable [DecidableEq U] [DecidableEq S] [LinearOrder T] {π : Policy P T} {L L' : Book U S P T}

theorem Step.sound (hsym : ∀ p p', π.clash p p' → π.clash p' p) {e : Event U S P T}
    (hs : Step π L e L') (h : Sound π L) : Sound π L' := by
  cases hs with
  | idle ht => exact h.tick ht
  | gone ht _ => exact h.tick ht
  | enrol ht hnone hok hfree =>
    exact (h.enter hsym hfree fun hn => absurd hok hn).tick ht
  | @amend u p p' t ht hp _ hok hfree =>
    refine (h.enter hsym hfree fun hn s e he hu => ?_).tick ht
    exact h.barred s e p he (hu ▸ hp) fun hp => hn (hok hp)
  | @expel u p p' t₁ t ht₁ ht hp _ hn hfree =>
    have hswept : Sound π (L.close (L.sweep u t₁)) := h.close _
    exact (hswept.enter hsym hfree fun _ s e he hu => Book.sweep_closes he hu).tick (ht₁.trans ht)
  | signIn hnow h₁ h₂ _ _ hp hok hs hE =>
    exact (h.signIn hnow hp hok hs hE).tick (h₁.trans h₂)
  | renew _ h₁ h₂ _ hs ho _ hp hok hs' => exact (h.renew hs ho hp hok hs').tick (h₁.trans h₂)
  | signOut ht₁ ht _ _ => exact (h.close _).tick (ht₁.trans ht)
  | signOutAll ht₁ ht => exact (h.close _).tick (ht₁.trans ht)

theorem Run.sound (hsym : ∀ p p', π.clash p p' → π.clash p' p) {es : List (Event U S P T)}
    (hr : Run π L es L') (h : Sound π L) : Sound π L' := by
  induction hr with
  | nil => exact h
  | snoc _ hs ih => exact hs.sound hsym ih

end

end Registry
