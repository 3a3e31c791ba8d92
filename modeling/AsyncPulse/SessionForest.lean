import AsyncPulse.Ancestry
import AsyncPulse.Lineage
set_option autoImplicit false

namespace AsyncPulse
open Effect

variable {γ χ : Type} {cfg : Config} {C : MayCache Key Json γ χ}

def Database.Succeeds (d : Database) (x z : SessionModel) : Prop :=
  x ∈ d.sessions.rows ∧ z ∈ d.sessions.rows ∧ x.previousSessionId = some z.id

theorem Database.succeeds_unique (d : Database) : Relator.RightUnique d.Succeeds := by
  rintro x z z' ⟨-, hz, hp⟩ ⟨-, hz', hp'⟩
  rw [hp] at hp'
  exact d.sessions.eq_of_key hz hz' (Option.some.inj hp')

theorem Descends.reaches {d : Database} {y x : SessionModel} (h : Descends d y x) :
    Relation.ReflTransGen d.Succeeds x y := by
  induction h with
  | refl _ => exact .refl
  | step hz hx hp ih => exact .head ⟨hx, hz.mem, hp⟩ ih

theorem top_of_login {d : Database} {y : SessionModel} (h : y.previousSessionId = none) :
    Ancestry.Top d.Succeeds y := by
  rintro z ⟨-, -, hp⟩
  rw [h] at hp
  cases hp

theorem Descends.grows {d d' : Database} (hd : d.Grows d') {y x : SessionModel}
    (h : Descends d y x) : ∃ y' x', y'.core = y.core ∧ x'.core = x.core ∧
      d'.sessions.get x.id = some x' ∧ Descends d' y' x' := by
  induction h with
  | refl hy =>
    obtain ⟨y', hy', hc, -⟩ := hd.sessions _ _ (Keyed.get_of_mem hy)
    exact ⟨y', y', hc, hc, hy', .refl (Keyed.mem_of_get hy')⟩
  | step _ hx hp ih =>
    obtain ⟨y', z', hyc, hzc, -, hdesc⟩ := ih
    obtain ⟨x', hx', hxc, -⟩ := hd.sessions _ _ (Keyed.get_of_mem hx)
    refine ⟨y', x', hyc, hxc, hx', .step hdesc (Keyed.mem_of_get hx') ?_⟩
    rw [SessionModel.core_previous hxc, hp, SessionModel.core_id hzc]

/-- Every session goes back to a login. -/
def Database.Rooted (d : Database) : Prop :=
  ∀ x ∈ d.sessions.rows, ∃ y, y.previousSessionId = none ∧ Descends d y x

namespace Provenance

variable {m : Nat → Option Call} {w : World γ} {i : Nat}

/-- What a commit inserts is a login, or it succeeds a session that was committed before. -/
theorem view_rooted (h : Provenance cfg C m w) (ho : Open (w.hist i)) (hd : w.db.Rooted) :
    (w.view i).Rooted := by
  intro x hx
  have hgrow := h.grows_view i
  rcases h.view_origin ho (Keyed.get_of_mem hx) with ⟨y, hy, hc⟩ | ⟨r, hr, hid, hc⟩
  · obtain ⟨z, hz, hdesc⟩ := hd y (Keyed.mem_of_get hy)
    obtain ⟨z', x', hzc, -, hx', hdesc'⟩ := hdesc.grows hgrow
    rw [Keyed.key_of_get hy, Keyed.get_of_mem hx] at hx'
    cases hx'
    exact ⟨z', (SessionModel.core_previous hzc).trans hz, hdesc'⟩
  · obtain ⟨k, h₁, h₂, -, he, -, -, hop⟩ := h.wrote hr
    cases hop.origin with
    | login e p d ip t t' rows _ hp _ _ _ _ =>
      exact ⟨x, (SessionModel.core_previous hc).trans hp, .refl hx⟩
    | rotation row rows t hp _ hread hrow _ _ _ _ _ _ =>
      obtain ⟨z, hz, -⟩ := h.saw i row ⟨_, rows, he ▸ List.mem_append_left _ hread, hrow⟩
      obtain ⟨y, hy, hdesc⟩ := hd z (Keyed.mem_of_get hz)
      obtain ⟨y', z', hyc, hzc, -, hdesc'⟩ := hdesc.grows hgrow
      refine ⟨y', (SessionModel.core_previous hyc).trans hy, .step hdesc' hx ?_⟩
      rw [SessionModel.core_previous hc, hp, SessionModel.core_id hzc, Keyed.key_of_get hz]

theorem user_of_row (h : Provenance cfg C m w) {x : SessionModel} (hx : x ∈ w.db.sessions.rows) :
    ∃ u, w.db.users.get x.userId = some u := by
  obtain ⟨j, k, r, h₁, -, -, hc, -, hsub, hop⟩ := h.inserted hx
  obtain ⟨z, ⟨q, rows, hm, hz⟩, hid, -⟩ := hop.user
  obtain ⟨u, hu, -⟩ := h.sawUser j z ⟨q, rows, hsub hm, hz⟩
  exact ⟨u, by rw [SessionModel.core_userId hc, ← hid, hu]⟩

end Provenance

theorem Reachable.rooted_exec {s s' : State γ} {l : Label Call (Choice χ)}
    (hr : Reachable cfg C s) (h : s.world.db.Rooted) (hs : (app cfg C).exec l s = some s') :
    s'.world.db.Rooted := by
  generalize hw : s'.world = w'
  cases hw ▸ hr.change hs with
  | idle _ t w _ hw =>
    rw [hw]
    exact h
  | moved i c k β e f r w _ _ hmv hl =>
    rw [hmv.db]
    split
    · rename_i hc
      have hlaw := (Lawful.snoc_iff.mp hl).2
      rw [hc] at hlaw
      exact hr.provenance.view_rooted hlaw.1 h
    · exact h

theorem Reachable.rooted {s : State γ} (hr : Reachable cfg C s) : s.world.db.Rooted := by
  obtain ⟨w, ls, hw, hs⟩ := hr
  have hstart : Reachable cfg C ⟨w, fun _ => none⟩ := ⟨w, [], hw, rfl⟩
  refine ((app cfg C).execs_invariant (P := fun s => Reachable cfg C s ∧ s.world.db.Rooted)
    (A := fun _ _ => True) (fun l s s' h _ hs => ⟨h.1.exec hs, h.1.rooted_exec h.2 hs⟩)
    ⟨hstart, ?_⟩ (app cfg C).along_trivial hs).2
  intro x hx
  rw [hw.noSession] at hx
  cases hx

/-- In every interleaving the committed sessions form a forest: each belongs to a user in the
table, goes back to exactly one login, and no session goes back to itself. -/
theorem session_forest {s : State γ} (hr : Reachable cfg C s) :
    (∀ x ∈ s.world.db.sessions.rows, (∃ u, s.world.db.users.get x.userId = some u) ∧
      ∃! y, y.previousSessionId = none ∧ Descends s.world.db y x) ∧
    WellFounded fun z x => s.world.db.Succeeds x z := by
  have hunique := s.world.db.succeeds_unique
  refine ⟨fun x hx => ⟨hr.provenance.user_of_row hx, ?_⟩, ?_⟩
  · obtain ⟨y, hy, hdesc⟩ := hr.rooted x hx
    refine ⟨y, ⟨hy, hdesc⟩, fun y' hy' => ?_⟩
    exact Ancestry.top_unique hunique hy'.2.reaches (top_of_login hy'.1) hdesc.reaches
      (top_of_login hy)
  · refine Ancestry.wellFounded hunique fun x => ?_
    by_cases hx : x ∈ s.world.db.sessions.rows
    · obtain ⟨y, hy, hdesc⟩ := hr.rooted x hx
      exact ⟨y, hdesc.reaches, top_of_login hy⟩
    · exact ⟨x, .refl, fun z hz => hx hz.1⟩

theorem session_forest_refreshed :
    (∃ u, (sampleApp.afterwards refreshOnce signedIn).world.db.users.get "alice" = some u) ∧
    ∃! y, y.previousSessionId = none ∧
      Descends (sampleApp.afterwards refreshOnce signedIn).world.db y (aliceSuccessor 3) := by
  have hr : Reachable sampleConfig TimedStore.reliable
    (sampleApp.afterwards refreshOnce signedIn) :=
    signedIn_reachable.execs (sampleApp.execs_afterwards (by decide +kernel))
  exact (session_forest hr).1 (aliceSuccessor 3) (by decide +kernel)

end AsyncPulse
