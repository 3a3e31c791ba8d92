import AsyncPulse.Bookkeeping
import AsyncPulse.WriteOrder
set_option autoImplicit false

namespace AsyncPulse
open Effect Registry

variable {cfg : Config} {d : Database} {t₀ : Time} {h : List Act} {α β : Type}

theorem ledger_shift {l : List Act} (hl : ∀ a ∈ l, a.still = true) (h : List Act) :
    ledger (l ++ h) = ledger h := by
  induction h using List.reverseRecOn with
  | nil => simpa using ledger_still (h := []) hl
  | append_singleton h a ih => rw [← List.append_assoc, ledger_snoc, ledger_snoc, ih]

theorem Given.shift {l : List Act} (hl : ∀ a ∈ l, a.still = true) {e : Eff β} {r : Except Exc β}
    (hr : Given cfg d t₀ (l ++ h) e r) : Given cfg d t₀ h e r := by
  have hseen : seen d (l ++ h) = seen d h := by rw [seen, ledger_shift hl, seen]
  cases e with
  | now =>
    obtain ⟨t, he, h₀, ht⟩ := hr
    exact ⟨t, he, h₀, fun t' ht' => ht t' (List.mem_append_right _ ht')⟩
  | selectSessions q => simpa only [Given, hseen] using hr
  | selectUsers q => simpa only [Given, hseen] using hr
  | write v => simpa only [Given, hseen] using hr
  | _ => exact hr

theorem alone_shift {l : List Act} (hl : ∀ a ∈ l, a.still = true) {p : M α}
    {Q : Except Exc α → List Act → Prop} (hp : Alone cfg d t₀ p Q h) :
    Alone cfg d t₀ p (fun r h' => ∃ l', h' = l ++ l' ∧ Q r l') (l ++ h) := by
  induction p generalizing h with
  | ret r => exact ⟨h, rfl, hp⟩
  | op e k ih =>
    intro r hr
    obtain ⟨-, hk⟩ := hp r (hr.shift hl)
    refine ⟨trivial, ?_⟩
    rw [List.append_assoc]
    exact ih r hk

theorem Eff.Looks.still {e : Eff β} (he : e.Looks) (r : Except Exc β) :
    (e.act r).still = true := by
  cases e with
  | write v => exact he.elim
  | commit => exact he.elim
  | close => exact he.elim
  | _ => cases r <;> rfl

theorem alone_looks {p : M α} (hp : Only Eff.Looks p) :
    Alone cfg d t₀ p (fun _ l => ∀ a ∈ l, a.still = true) [] := by
  refine hp.wp (fun _ _ => trivial) (fun e h r he hi => ?_) (by simp)
  intro a ha
  rcases List.mem_append.mp ha with ha | ha
  · exact hi a ha
  · rw [List.mem_singleton.mp ha]
    exact he.still r

theorem alone_after {p : M β} {f : β → M α} (hp : Only Eff.Looks p)
    {Q R : Except Exc α → List Act → Prop} (hf : ∀ b, Alone cfg d t₀ (f b) R [])
    (hshift : ∀ r l l', (∀ a ∈ l, a.still = true) → R r l' → Q r (l ++ l'))
    (herr : ∀ x l, (∀ a ∈ l, a.still = true) → Q (.error x) l) :
    Alone cfg d t₀ (p >>= f) Q [] := by
  refine (Trace.wp_bind _ _ _ _ _).mpr (Trace.wp_mono _ (alone_looks hp) ?_)
  rintro (x | b) l hl
  · exact herr x l hl
  · have hrun := alone_shift hl (hf b)
    rw [List.append_nil] at hrun
    refine Trace.wp_mono _ hrun fun r h' hr => ?_
    obtain ⟨l', rfl, hr⟩ := hr
    exact hshift r l l' hl hr

def Did (cfg : Config) (d : Database) (l : List Act) (e : Event String String UserModel Time) :
    Prop :=
  ∀ t t', t ≤ t' → (∀ τ, .clock τ ∈ l → t ≤ τ ∧ τ ≤ t') →
    Step (policy cfg) (d.book t) e ((d.applyAll (ledger l).1).book t')

theorem did_idle {l : List Act} (hl : (ledger l).1 = []) : Did cfg d l .idle := by
  intro t t' ht _
  rw [hl]
  exact .idle ht

theorem did_gone {s : String} {l : List Act} (hl : (ledger l).1 = [])
    (hs : ∀ r, d.sessions.get s = some r → r.revokedAt ≠ none) : Did cfg d l (.gone s) := by
  intro t t' ht _
  rw [hl]
  refine .gone ht fun e he => ?_
  obtain ⟨r, hr, rfl⟩ := Option.map_eq_some_iff.mp he
  exact hs r hr

theorem Did.closed {l : List Act} {e : Event String String UserModel Time} (h : Did cfg d l e) :
    Did cfg d (l ++ [Act.closed]) e := by
  intro t t' ht hclock
  rw [ledger_closed]
  exact h t t' ht fun τ hτ => hclock τ (List.mem_append_left _ hτ)

theorem Did.shift {l l' : List Act} {e : Event String String UserModel Time}
    (h : Did cfg d l' e) (hl : ∀ a ∈ l, a.still = true) : Did cfg d (l ++ l') e := by
  intro t t' ht hclock
  rw [ledger_shift hl]
  exact h t t' ht fun τ hτ => hclock τ (List.mem_append_right _ hτ)

theorem ledger_of_still {l : List Act} (hl : ∀ a ∈ l, a.still = true) : ledger l = ([], []) := by
  simpa using ledger_still (h := []) hl

def Makes (d : Database) (x n : UserModel) (ws : List Write) : Prop :=
  n = x ∧ ws = [] ∨ d.admits (.updateUser x n) = true ∧ ws = [.updateUser x n]

theorem Makes.book {x n : UserModel} {ws : List Write} (h : Makes d x n ws)
    (hx : d.users.get x.id = some x) (hn : n.id = x.id) (t : Time) :
    (d.applyAll ws).book t = (d.book t).enter x.id n := by
  obtain ⟨rfl, rfl⟩ | ⟨-, rfl⟩ := h
  · exact book_same hx
  · exact book_change hx hn

theorem Makes.free {x n : UserModel} {ws : List Write} (h : Makes d x n ws)
    (hi : Indexed d.users) (hx : d.users.get x.id = some x) (hn : n.id = x.id) (t : Time) :
    (d.book t).Free (policy cfg) x.id n := by
  have hi' : Indexed (d.applyAll ws).users := by
    obtain ⟨-, rfl⟩ | ⟨ha, rfl⟩ := h
    · exact hi
    · exact hi.apply ha
  have haccount := congrArg Book.account (h.book hx hn t)
  have hself : (d.applyAll ws).users.get x.id = some n := by
    have hbook := congrFun haccount x.id
    rwa [Book.enter_self] at hbook
  intro u y hu hy hclash
  have hother : (d.applyAll ws).users.get u = some y := by
    have hbook := congrFun haccount u
    rwa [Book.enter_of_ne hu, hy] at hbook
  have hyn : y = n := by
    cases hclash with
    | inl he => exact hi'.email _ (Keyed.mem_of_get hother) _ (Keyed.mem_of_get hself) he
    | inr he => exact hi'.username _ (Keyed.mem_of_get hother) _ (Keyed.mem_of_get hself) he
  exact hu ((Keyed.key_of_get hother).symm.trans (hyn ▸ hn))

theorem did_amend {x n : UserModel} {ws : List Write} {l : List Act} (hl : (ledger l).1 = ws)
    (h : Makes d x n ws) (hi : Indexed d.users) (hx : d.users.get x.id = some x)
    (hrev : x.Revises n) (hok : x.InService → n.InService) :
    Did cfg d l (.amend x.id x n) := by
  intro t t' ht _
  rw [hl, h.book hx hrev.id]
  exact Step.amend (L := d.book t) ht hx hrev hok (h.free hi hx hrev.id t)

theorem did_expel {x n : UserModel} {ws : List Write} {l : List Act} {rank : String → Nat}
    {t₁ : Time} (hl : (ledger l).1 = ws ++
      shutdown ((SessionQuery.unrevokedOf x.id).eval rank (d.applyAll ws).sessions) t₁)
    (ht₁ : .clock t₁ ∈ l) (h : Makes d x n ws) (hi : Indexed d.users)
    (hx : d.users.get x.id = some x) (hrev : x.Revises n) (hout : ¬ n.InService) :
    Did cfg d l (.expel x.id x n t₁) := by
  intro t t' ht hclock
  obtain ⟨h₁, h₂⟩ := hclock t₁ ht₁
  rw [hl, Database.applyAll_append, book_shutdown, h.book hx hrev.id]
  exact Step.expel (L := d.book t) h₁ h₂ hx hrev hout (h.free hi hx hrev.id t)

theorem did_signOutAll {u : String} {l : List Act} {rank : String → Nat} {t₁ : Time}
    (hl : (ledger l).1 = shutdown ((SessionQuery.unrevokedOf u).eval rank d.sessions) t₁)
    (ht₁ : .clock t₁ ∈ l) : Did cfg d l (.signOutAll u t₁) := by
  intro t t' ht hclock
  obtain ⟨h₁, h₂⟩ := hclock t₁ ht₁
  rw [hl, book_shutdown]
  exact Step.signOutAll (L := d.book t) h₁ h₂

theorem did_signOut {x : SessionModel} {l : List Act} {t₁ : Time}
    (hl : (ledger l).1 = [eviction (x, t₁)]) (ht₁ : .clock t₁ ∈ l)
    (hx : d.sessions.get x.id = some x) (hlive : x.revokedAt = none) :
    Did cfg d l (.signOut x.id t₁) := by
  intro t t' ht hclock
  obtain ⟨h₁, h₂⟩ := hclock t₁ ht₁
  have hbook : (d.applyAll ([(x, t₁)].map eviction)).book t' =
      (d.book t').close (closings [(x, t₁)]) :=
    book_evictions (List.nodup_singleton _) (by simpa using hx)
  rw [List.map_singleton] at hbook
  rw [hl, hbook, closings_single]
  exact Step.signOut (L := d.book t) h₁ h₂ (book_session hx) hlive

theorem active_book {u : String} {now t : Time} {rank : String → Nat} {s : String} :
    (d.book t).Active u now s ↔
      ∃ r ∈ (SessionQuery.activeOf u now).eval rank d.sessions, r.id = s := by
  constructor
  · rintro ⟨e, he, hu, ho, ht⟩
    obtain ⟨r, hr, rfl⟩ := Option.map_eq_some_iff.mp he
    exact ⟨r, mem_activeOf.mpr ⟨Keyed.mem_of_get hr, hu, ho, ht⟩, Keyed.key_of_get hr⟩
  · rintro ⟨r, hr, rfl⟩
    obtain ⟨hmem, hu, ho, ht⟩ := mem_activeOf.mp hr
    exact ⟨r.entry, book_session (Keyed.get_of_mem hmem), hu, ho, ht⟩

theorem encard_ids {rows : List SessionModel} (hnd : (rows.map SessionModel.id).Nodup) :
    {s | ∃ r ∈ rows, r.id = s}.encard = rows.length := by
  have hset : {s | ∃ r ∈ rows, r.id = s} = ((rows.map SessionModel.id).toFinset : Set String) := by
    ext s
    simp
  rw [hset, Set.encard_coe_eq_coe_finsetCard, List.toFinset_card_of_nodup hnd, List.length_map]

theorem makesRoom {u : String} {now t : Time} {rank : String → Nat} {rows : List SessionModel}
    {evs : List (SessionModel × Time)}
    (hrows : rows = (SessionQuery.activeOf u now).eval rank d.sessions)
    (hevs : evs.map Prod.fst = surplus rows) : (d.book t).MakesRoom 5 u now (closings evs) := by
  have hids : (rows.map SessionModel.id).Nodup := hrows ▸ SessionQuery.nodup_eval _ _ _
  have hsplit := surplus_append_drop rows
  generalize hkept : rows.drop (surplus rows).length = kept at hsplit
  have hactive : ∀ s, (d.book t).Active u now s ↔ ∃ r ∈ rows, r.id = s := by
    intro s
    rw [hrows]
    exact active_book
  have hended : ∀ s, closings evs s ≠ none ↔ ∃ r ∈ surplus rows, r.id = s := by
    intro s
    rw [Ne, closings_eq_none, ← hevs]
    simp
  have hapart : ∀ a ∈ surplus rows, ∀ b ∈ kept, a.id ≠ b.id :=
    hkept ▸ surplus_pairwise (List.pairwise_map.mp hids)
  have hleft : {s | (d.book t).Active u now s ∧ closings evs s = none} =
      {s | ∃ r ∈ kept, r.id = s} := by
    ext s
    constructor
    · rintro ⟨hact, hnone⟩
      obtain ⟨r, hr, rfl⟩ := (hactive s).mp hact
      rw [← hsplit] at hr
      rcases List.mem_append.mp hr with hr | hr
      · exact absurd hnone ((hended r.id).mpr ⟨r, hr, rfl⟩)
      · exact ⟨r, hr, rfl⟩
    · rintro ⟨r, hr, rfl⟩
      refine ⟨(hactive r.id).mpr ⟨r, hsplit ▸ List.mem_append_right _ hr, rfl⟩, ?_⟩
      by_contra hsome
      obtain ⟨a, ha, hid⟩ := (hended r.id).mp hsome
      exact hapart a ha r hr hid
  have hcount : {s | (d.book t).Active u now s ∧ closings evs s = none}.encard = kept.length := by
    rw [hleft]
    refine encard_ids (hids.sublist ?_)
    rw [← hkept]
    exact (List.drop_sublist _ _).map _
  have hlength : kept.length = rows.length - (surplus rows).length := by
    rw [← hkept, List.length_drop]
  have hsurplus := length_surplus rows
  constructor
  · intro s hs
    obtain ⟨r, hr, rfl⟩ := (hended s).mp hs
    exact (hactive r.id).mpr ⟨r, hsplit ▸ List.mem_append_left _ hr, rfl⟩
  · rw [hcount]
    have hlt : kept.length < 5 := by
      rw [hlength, hsurplus]
      split <;> omega
    exact_mod_cast hlt
  · rintro ⟨s, hs⟩
    obtain ⟨r, hr, -⟩ := (hended s).mp hs
    have hpos := List.length_pos_of_mem hr
    have hfour : kept.length + 1 = 5 := by
      rw [hsurplus] at hpos
      rw [hlength, hsurplus]
      split at hpos
      · rw [if_pos ‹_›]
        omega
      · omega
    rw [hcount]
    exact_mod_cast hfour
  · intro s s' e e' hs he hact hs' he'
    obtain ⟨a, ha, rfl⟩ := (hended s).mp hs
    have hkeep : s' ∈ {s | (d.book t).Active u now s ∧ closings evs s = none} := ⟨hact, hs'⟩
    rw [hleft] at hkeep
    obtain ⟨b, hb, rfl⟩ := hkeep
    have hrow : ∀ r ∈ rows, d.sessions.get r.id = some r := fun r hr => by
      rw [hrows] at hr
      exact Keyed.get_of_mem (mem_activeOf.mp hr).1
    rw [book_session (hrow a (hsplit ▸ List.mem_append_left _ ha))] at he
    rw [book_session (hrow b (hsplit ▸ List.mem_append_right _ hb))] at he'
    obtain rfl := Option.some.inj he
    obtain rfl := Option.some.inj he'
    have hsorted := surplus_pairwise (hrows ▸ SessionQuery.activeOf_sorted u now rank d.sessions)
    exact hsorted a ha b (hkept ▸ hb)

theorem book_opened {evs : List (SessionModel × Time)} {r : SessionModel} {t : Time}
    (hnd : (evs.map fun x => x.1.id).Nodup)
    (hget : ∀ x ∈ evs, d.sessions.get x.1.id = some x.1) (hr : d.sessions.get r.id = none) :
    (d.applyAll (evs.map eviction ++ [.insertSession r])).book t =
      ((d.book t).close (closings evs)).add r.id r.entry := by
  have hnone : (d.applyAll (evs.map eviction)).sessions.get r.id = none := by
    rw [← Option.isNone_iff_eq_none, isNone_evictions, hr]
    rfl
  rw [Database.applyAll_append, ← book_evictions hnd hget, ← book_insert hnone]
  rfl

theorem did_signIn {x : UserModel} {dev ip : Option String} {u e p : String} {l : List Act}
    {now t₁ t₂ : Time} {rank : String → Nat} {evs : List (SessionModel × Time)}
    (hl : (ledger l).1 = evs.map eviction ++ [.insertSession (loginRow cfg x dev ip u t₁ t₂)])
    (hnow : .clock now ∈ l) (ht₁ : .clock t₁ ∈ l) (ht₂ : .clock t₂ ∈ l)
    (hevs : ∀ y ∈ evs, .clock y.2 ∈ l) (hle : now ≤ t₁)
    (hended : evs.map Prod.fst = surplus ((SessionQuery.activeOf x.id now).eval rank d.sessions))
    (hx : Credentials cfg d e p x) (hu : d.sessions.get u = none) :
    Did cfg d l (.signIn x.id x u) := by
  intro t t' ht hclock
  have hrow : ∀ y ∈ evs, d.sessions.get y.1.id = some y.1 := by
    intro y hy
    have hmem : y.1 ∈ surplus ((SessionQuery.activeOf x.id now).eval rank d.sessions) :=
      hended ▸ List.mem_map_of_mem hy
    exact Keyed.get_of_mem (mem_activeOf.mp ((surplus_sublist _).subset hmem)).1
  have hids : (evs.map fun y => y.1.id).Nodup := by
    have hnd := (SessionQuery.nodup_eval (.activeOf x.id now) rank d.sessions).sublist
      ((surplus_sublist _).map SessionModel.id)
    rwa [← hended, List.map_map] at hnd
  rw [hl, book_opened hids hrow hu]
  refine Step.signIn (L := d.book t) (hclock now hnow).1 hle (hclock t₁ ht₁).2 (hclock t₂ ht₂).2 ?_
    (Keyed.get_of_mem hx.mem) ⟨hx.present, hx.standing⟩ (book_session_none.mpr hu)
    (makesRoom rfl hended)
  intro s t₃ hs
  obtain ⟨y, hy, -, rfl⟩ := closings_eq_some hs
  exact hclock y.2 (hevs y hy)

theorem did_renew {token : Token} {c : Claims} {row : SessionModel} {x : UserModel}
    {ip : Option String} {s : String} {l : List Act} {t₀ now t₁ t₂ : Time}
    (hl : (ledger l).1 = [eviction (row, t₁), .insertSession (successor c.sub row ip s t₂)])
    (hnow : .clock now ∈ l) (ht₁ : .clock t₁ ∈ l) (ht₂ : .clock t₂ ∈ l)
    (hx : Renewable cfg d token t₀ now c row x) (hown : row.userId = c.sub)
    (hs : d.sessions.get s = none) : Did cfg d l (.renew row.id s) := by
  intro t t' ht hclock
  have hbook : (d.applyAll ([(row, t₁)].map eviction ++
      [.insertSession (successor c.sub row ip s t₂)])).book t' =
        ((d.book t').close (closings [(row, t₁)])).add s (successor c.sub row ip s t₂).entry :=
    book_opened (List.nodup_singleton _) (by simpa using hx.found) hs
  have haccount : d.users.get row.userId = some x := by rw [hown, hx.user]
  have hentry : (successor c.sub row ip s t₂).entry =
      { owner := row.entry.owner, opened := t₂, expires := row.entry.expires,
        renews := some row.id, closed := none } := by
    simp [SessionModel.entry, successor, hown]
  rw [List.map_singleton, List.singleton_append] at hbook
  rw [hl, hbook, closings_single, hentry]
  exact Step.renew (L := d.book t) (hclock now hnow).1 (hclock t₁ ht₁).1 (hclock t₁ ht₁).2
    (hclock t₂ ht₂).2 (book_session hx.found) hx.live hx.unexpired haccount hx.inService
    (book_session_none.mpr hs)

end AsyncPulse
