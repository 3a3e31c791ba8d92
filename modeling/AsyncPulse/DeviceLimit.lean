import AsyncPulse.Finality
set_option autoImplicit false

namespace AsyncPulse
open Effect

variable {γ χ : Type} {cfg : Config} {C : MayCache Key Json γ χ}

def SessionModel.live (u : String) (t : Time) (r : SessionModel) : Bool :=
  r.userId = u && r.revokedAt.isNone && t ≤ r.expiresAt

def Database.liveIds (d : Database) (u : String) (t : Time) : List String :=
  (d.sessions.rows.filter (SessionModel.live u t)).map SessionModel.id

theorem Database.mem_liveIds {d : Database} {u s : String} {t : Time} :
    s ∈ d.liveIds u t ↔ ∃ x, d.sessions.get s = some x ∧ x.userId = u ∧ x.revokedAt = none ∧
      t ≤ x.expiresAt := by
  unfold liveIds
  constructor
  · intro h
    obtain ⟨x, hx, rfl⟩ := List.mem_map.mp h
    obtain ⟨hm, hlive⟩ := List.mem_filter.mp hx
    refine ⟨x, Keyed.get_of_mem hm, ?_⟩
    simpa [SessionModel.live, and_assoc] using hlive
  · intro h
    obtain ⟨x, hx, hlive⟩ := h
    refine List.mem_map.mpr ⟨x, List.mem_filter.mpr ⟨Keyed.mem_of_get hx, ?_⟩, Keyed.key_of_get hx⟩
    simpa [SessionModel.live, and_assoc] using hlive

theorem Database.liveIds_length_le {d : Database} {u : String} {t : Time} {l : List String}
    (h : ∀ s ∈ d.liveIds u t, s ∈ l) : (d.liveIds u t).length ≤ l.length := by
  have hn : (d.liveIds u t).Nodup :=
    (List.filter_sublist.map SessionModel.id).nodup d.sessions.nodup
  exact (List.subperm_of_subset hn h).length_le

theorem Database.liveIds_anti {d : Database} {u s : String} {t t' : Time} (ht : t ≤ t')
    (h : s ∈ d.liveIds u t') : s ∈ d.liveIds u t := by
  obtain ⟨x, hx, hu, hr, he⟩ := mem_liveIds.mp h
  exact mem_liveIds.mpr ⟨x, hx, hu, hr, Int.le_trans ht he⟩

theorem kept_length (l : List UserSession) : (l.drop (l.length - 4)).length ≤ 4 := by
  rw [List.length_drop]
  omega

theorem mem_toRevoke_or_kept {l : List UserSession} {s : UserSession} (hs : s ∈ l) :
    s ∈ toRevoke l ∨ s ∈ l.drop (l.length - 4) := by
  unfold toRevoke
  split
  · rw [← List.mem_append, List.take_append_drop]
    exact hs
  · rw [show l.length - 4 = 0 by omega]
    exact .inr hs

/-- A login has read every live session of its user as active, and the parent of a rotation is
still unrevoked. -/
def Write.timely (u : String) (w : World γ) (i : Nat) : Write → Bool
  | .insertSession r => r.userId ≠ u ||
    match r.previousSessionId with
    | none => w.db.sessions.rows.all fun x =>
        !x.live u w.clock || (w.hist i).all (Act.showsActive x)
    | some p => w.db.unrevoked p
  | _ => true

def Serialised (u : String) : Label Call (Choice χ) → State γ → Prop
  | .step i _, s => s.Next i fun _ e => e.isCommit = true →
      (s.world.pending i).all (Write.timely u s.world i) = true
  | _, _ => True

instance (u : String) (l : Label Call (Choice χ)) (s : State γ) : Decidable (Serialised u l s) :=
  match l with
  | .step i _ => inferInstanceAs (Decidable (s.Next i _))
  | .call _ _ | .tick _ => .isTrue trivial

namespace Provenance

variable {m : Nat → Option Call} {w : World γ} {i : Nat}

section
variable (h : Provenance cfg C m w) (ho : Open (w.hist i))
include h ho

theorem view_ended {s : String} (he : Ended (w.hist i) s) {x : SessionModel}
    (hx : (w.view i).sessions.get s = some x) : x.revokedAt ≠ none := by
  have hwrote : ∀ l n, .wrote (.updateSession l n) ∈ w.hist i → l.id = s → x.revokedAt ≠ none := by
    intro l n hl hid
    obtain ⟨y, hy, hyr⟩ := h.view_took ho hl
    rw [hid, hx] at hy
    cases hy
    exact hyr
  cases he with
  | inl hw =>
    obtain ⟨l, n, hl, hid⟩ := hw
    exact hwrote l n hl hid
  | inr hsaw =>
    obtain ⟨z, hz, hid, hzr⟩ := hsaw
    obtain ⟨y, hy, -, hyr⟩ := h.saw i z hz
    cases hyr hzr with
    | inl hyr =>
      obtain ⟨x', hx', -, hr⟩ := (h.grows_view i).sessions _ y hy
      rw [hid, hx] at hx'
      cases hx'
      exact hr hyr
    | inr hw =>
      obtain ⟨l, n, hl, hlid⟩ := hw
      exact hwrote l n hl (hlid.trans hid)

theorem view_live {u s : String} {t : Time} (hs : s ∈ (w.view i).liveIds u t) :
    s ∈ w.db.liveIds u t ∨ ∃ r, .wrote (.insertSession r) ∈ w.hist i ∧ r.id = s ∧ r.userId = u ∧
      t ≤ r.expiresAt := by
  obtain ⟨x, hx, hu, hr, he⟩ := Database.mem_liveIds.mp hs
  cases h.view_origin ho hx with
  | inl hold =>
    obtain ⟨y, hy, hxy⟩ := hold
    obtain ⟨x', hx', -, hyr⟩ := (h.grows_view i).sessions s y hy
    rw [hx] at hx'
    cases hx'
    refine .inl (Database.mem_liveIds.mpr ⟨y, hy, ?_, ?_, ?_⟩)
    · exact (SessionModel.core_userId hxy).symm.trans hu
    · by_contra hn
      exact hyr hn hr
    · rw [← SessionModel.core_expiresAt hxy]
      exact he
  | inr hnew =>
    obtain ⟨r, hw, hid, hxr⟩ := hnew
    refine .inr ⟨r, hw, hid, (SessionModel.core_userId hxr).symm.trans hu, ?_⟩
    rw [← SessionModel.core_expiresAt hxr]
    exact he

theorem view_live_insert {n : SessionModel} (hn : .wrote (.insertSession n) ∈ w.hist i)
    {u s : String} {t : Time} (hs : s ∈ (w.view i).liveIds u t) :
    s ∈ w.db.liveIds u t ∨ s = n.id := by
  cases h.view_live ho hs with
  | inl hold => exact .inl hold
  | inr hnew =>
    obtain ⟨n', hn', hid, -⟩ := hnew
    obtain ⟨k, -, hl⟩ := h.lawful_of_mem hn
    rw [hl.insert_unique hn' hn] at hid
    exact .inr hid.symm

/-- A login that has read every live session keeps at most four of them. -/
theorem login_limit {n : SessionModel} (hn : .wrote (.insertSession n) ∈ w.hist i) {u : String}
    {t t' : Time} {rows : List SessionModel} (hread : .readSessions (.activeOf u t') rows ∈ w.hist i)
    (hend : ∀ s ∈ toRevoke (rows.map SessionModel.toEntity), Ended (w.hist i) s.id)
    (hseen : ∀ x ∈ w.db.sessions.rows, x.live u w.clock = true →
      (w.hist i).all (Act.showsActive x) = true) (ht : w.clock ≤ t) :
    ((w.view i).liveIds u t).length ≤ 5 := by
  have hsub : ∀ x ∈ (w.view i).liveIds u t, x ∈ n.id ::
      ((rows.map SessionModel.toEntity).drop
        ((rows.map SessionModel.toEntity).length - 4)).map UserSession.id := by
    intro x hx
    cases h.view_live_insert ho hn hx with
    | inr hid => simp [hid]
    | inl hold =>
      obtain ⟨y, hy, hyu, hyr, hye⟩ := Database.mem_liveIds.mp (Database.liveIds_anti ht hold)
      have hshow := List.all_eq_true.mp
        (hseen y (Keyed.mem_of_get hy) (by simp [SessionModel.live, hyu, hyr, hye])) _ hread
      obtain ⟨a, ha, hay⟩ : ∃ a ∈ rows, a.id = y.id := by simpa [Act.showsActive, hyu] using hshow
      have hax : a.toEntity.id = x := hay.trans (Keyed.key_of_get hy)
      refine List.mem_cons_of_mem _ (List.mem_map.mpr ⟨a.toEntity, ?_, hax⟩)
      cases mem_toRevoke_or_kept (List.mem_map_of_mem (f := SessionModel.toEntity) ha) with
      | inr hkept => exact hkept
      | inl hrev =>
        obtain ⟨z, hz, -, hzr, -⟩ := Database.mem_liveIds.mp hx
        exact absurd hzr (h.view_ended ho (hax ▸ hend _ hrev) hz)
  have hlen := Database.liveIds_length_le hsub
  have hkept := kept_length (rows.map SessionModel.toEntity)
  simp only [List.length_cons, List.length_map] at hlen hkept ⊢
  omega

/-- A rotation of a session that is still unrevoked puts the new session in its place. -/
theorem rotation_limit {n : SessionModel} (hn : .wrote (.insertSession n) ∈ w.hist i) {p : String}
    (hprev : n.previousSessionId = some p) (hlive : w.db.unrevoked p = true) {t : Time} :
    ((w.view i).liveIds n.userId t).length ≤ (w.db.liveIds n.userId t).length := by
  by_cases hin : n.id ∈ (w.view i).liveIds n.userId t
  · obtain ⟨k, h₁, h₂, hm, he, -, -, hop⟩ := h.wrote hn
    cases hop.origin with
    | login _ _ _ _ _ _ _ _ hnone _ _ _ _ =>
      rw [hprev] at hnone
      cases hnone
    | rotation row rows t' hp hk hread hrow _ _ _ _ hexp hend =>
      rw [hprev] at hp
      cases hp
      have hsaw : Saw (w.hist i) row := ⟨_, rows, he ▸ List.mem_append_left _ hread, hrow⟩
      obtain ⟨y, hy, hyc, -⟩ := h.saw i row hsaw
      have hend' : Ended (w.hist i) row.id := by
        rw [he]
        exact hend.mono _
      have hparent : row.id ∈ w.db.liveIds n.userId t := by
        refine Database.mem_liveIds.mpr ⟨y, hy, h.refreshed_owner hm hk hy, ?_, ?_⟩
        · simpa [Database.unrevoked, hy] using hlive
        · cases h.view_live ho hin with
          | inl hold =>
            obtain ⟨z, hz, -⟩ := Database.mem_liveIds.mp hold
            rw [h.unused ho hn] at hz
            cases hz
          | inr hnew =>
            obtain ⟨n', hn', -, -, ht⟩ := hnew
            obtain ⟨_, -, hl⟩ := h.lawful_of_mem hn
            rw [hl.insert_unique hn' hn, hexp, ← SessionModel.core_expiresAt hyc] at ht
            exact ht
      have hsub : ∀ x ∈ (w.view i).liveIds n.userId t,
          x ∈ n.id :: (w.db.liveIds n.userId t).erase row.id := by
        intro x hx
        cases h.view_live_insert ho hn hx with
        | inr hid => simp [hid]
        | inl hold =>
          refine List.mem_cons_of_mem _ ((List.mem_erase_of_ne ?_).mpr hold)
          intro hid
          obtain ⟨z, hz, -, hzr, -⟩ := Database.mem_liveIds.mp hx
          exact h.view_ended ho hend' (hid ▸ hz) hzr
      have hlen := Database.liveIds_length_le hsub
      have hpos := List.length_pos_of_mem hparent
      rw [List.length_cons, List.length_erase_of_mem hparent] at hlen
      omega
  · refine Database.liveIds_length_le fun x hx => ?_
    cases h.view_live_insert ho hn hx with
    | inl hold => exact hold
    | inr hid => exact absurd (hid ▸ hx) hin

end

end Provenance

theorem Serialised.exec {u : String} {s s' : State γ} {l : Label Call (Choice χ)}
    (hr : Reachable cfg C s) (hu : Serialised u l s) (hs : (app cfg C).exec l s = some s')
    (h : (s.world.db.liveIds u s.world.clock).length ≤ 5) :
    (s'.world.db.liveIds u s'.world.clock).length ≤ 5 := by
  have hp := hr.provenance
  have hkeep : s.world.clock ≤ s'.world.clock →
      (s.world.db.liveIds u s'.world.clock).length ≤ 5 := fun ht =>
    Nat.le_trans (Database.liveIds_length_le fun x hx => Database.liveIds_anti ht hx) h
  cases hr.change hs with
  | idle _ t _ ht hw =>
    rw [hw] at hkeep ⊢
    exact hkeep ht
  | moved i c k β e f r _ hc _ hmv hl =>
    have hold := hkeep hmv.clock
    by_cases hcom : e.act r = .committed
    · have hlaw := (Lawful.snoc_iff.mp hl).2
      rw [hcom] at hlaw
      have ho : Open (s.world.hist i) := hlaw.1
      rw [hmv.db, if_pos hcom]
      by_cases hins : ∃ n, .wrote (.insertSession n) ∈ s.world.hist i ∧ n.userId = u
      · obtain ⟨n, hn, rfl⟩ := hins
        have htimely := List.all_eq_true.mp (Sys.Next.apply hu hc (Eff.isCommit_of_act hcom))
          (.insertSession n) (by rw [hp.pending_eq ho, mem_written]; exact hn)
        obtain ⟨k', h₁, h₂, -, he, -, -, hop⟩ := hp.wrote hn
        cases hprev : n.previousSessionId with
        | none =>
          simp only [Write.timely, hprev, ne_eq, not_true_eq_false, decide_false,
            Bool.false_or] at htimely
          cases hop.origin with
          | rotation row _ _ hp' _ _ _ _ _ _ _ _ _ =>
            rw [hprev] at hp'
            cases hp'
          | login _ _ _ _ _ t' rows _ _ _ _ hread hend =>
            refine hp.login_limit ho hn (he ▸ List.mem_append_left _ hread) (fun x hx => ?_)
              (fun x hx hlive => ?_) hmv.clock
            · rw [he]
              exact (hend x hx).mono _
            · simpa [hlive] using List.all_eq_true.mp htimely x hx
        | some p =>
          simp only [Write.timely, hprev, ne_eq, not_true_eq_false, decide_false,
            Bool.false_or] at htimely
          exact Nat.le_trans (hp.rotation_limit ho hn hprev htimely) hold
      · refine Nat.le_trans (Database.liveIds_length_le fun x hx => ?_) hold
        cases hp.view_live ho hx with
        | inl hx' => exact hx'
        | inr hnew =>
          obtain ⟨n, hn, -, hnu, -⟩ := hnew
          exact absurd ⟨n, hn, hnu⟩ hins
    · rw [hmv.db, if_neg hcom]
      exact hold

/-- Starting from no sessions, a user never has more than five live ones, as long as logins see
each other's sessions and a session is rotated once. -/
theorem device_limit {u : String} {w : World γ} {s : State γ} {ls : List (Label Call (Choice χ))}
    (hw : Init C w) (hu : (app cfg C).Along (Serialised u) ls ⟨w, fun _ => none⟩)
    (hs : (app cfg C).execs ls ⟨w, fun _ => none⟩ = some s) :
    (s.world.db.sessions.rows.filter (SessionModel.live u s.world.clock)).length ≤ 5 := by
  have h₀ : (w.db.liveIds u w.clock).length ≤ 5 := by simp [Database.liveIds, hw.noSession]
  have hrun := (app cfg C).execs_invariant
    (P := fun s => Reachable cfg C s ∧ (s.world.db.liveIds u s.world.clock).length ≤ 5)
    (fun l s s' hi hl hs => ⟨hi.1.exec hs, hl.exec hi.1 hs hi.2⟩) ⟨⟨w, [], hw, rfl⟩, h₀⟩ hu hs
  simpa [Database.liveIds] using hrun.2

def signInTimes (n : Nat) : List (Label Call (Choice Unit)) :=
  (List.range n).flatMap fun i =>
    .call i (.authenticate "alice@example.org" "secret" none none) ::
      effects i 14 (i + 1) (toString i)

theorem device_limit_sixth :
    ((sampleApp.afterwards (signInTimes 6) sampleState).world.db.sessions.rows.filter
      (SessionModel.live "alice"
        (sampleApp.afterwards (signInTimes 6) sampleState).world.clock)).length ≤ 5 :=
  device_limit sampleWorld_init (by decide +kernel) (Service.execs_afterwards _ (by decide +kernel))

/-- Six logins of alice that all count before any of them commits. -/
def signInTogether : List (Label Call (Choice Unit)) :=
  ((List.range 6).flatMap fun i =>
    .call i (.authenticate "alice@example.org" "secret" none none) ::
      effects i 11 1 (toString i)) ++ (List.range 6).flatMap fun i => effects i 3 2 ""

theorem six_devices : ∃ s, sampleApp.execs signInTogether sampleState = some s ∧
    (s.world.db.sessions.rows.filter (SessionModel.live "alice" s.world.clock)).length = 6 := by
  refine ⟨_, Service.execs_afterwards _ (by decide +kernel), by decide +kernel⟩

end AsyncPulse
