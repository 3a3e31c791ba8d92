import AsyncPulse.EffectFailures
import AsyncPulse.Shutdown
set_option autoImplicit false

namespace AsyncPulse
open Effect

variable {γ χ : Type} {cfg : Config} {C : MayCache Key Json γ χ}

/-- What the route has done for session `s`, whatever has failed. -/
structure LogoutTrail (cfg : Config) (k : Call) (s : String) (h : List Act) : Prop where
  lawful : Lawful cfg k h
  wrote : ∀ v, .wrote v ∈ h → ∃ l n, v = .updateSession l n ∧ Saw h l ∧ l.id = s
  ended : .committed ∈ h → Ended h s
  unset : ∀ key v ttl, .cacheSet key v ttl ∉ h

namespace LogoutTrail

variable {k : Call} {s : String} {h : List Act}

theorem nil : LogoutTrail cfg k s [] := ⟨.nil, by simp, by simp, by simp⟩

theorem snoc (hh : LogoutTrail cfg k s h) {a : Act} (ha : a.Lawful cfg k h)
    (hwrote : ∀ v, a = .wrote v → ∃ l n, v = .updateSession l n ∧ Saw h l ∧ l.id = s)
    (hended : a = .committed → Ended h s) (hunset : ∀ key v ttl, a ≠ .cacheSet key v ttl) :
    LogoutTrail cfg k s (h ++ [a]) where
  lawful := hh.lawful.snoc ha
  wrote v hv := by
    have hmono : ∀ {l n}, v = .updateSession l n ∧ Saw h l ∧ l.id = s →
        ∃ l n, v = .updateSession l n ∧ Saw (h ++ [a]) l ∧ l.id = s :=
      fun ⟨hv, hl, hs⟩ => ⟨_, _, hv, hl.mono, hs⟩
    rcases List.mem_append.mp hv with hv | hv
    · obtain ⟨l, n, hl⟩ := hh.wrote v hv
      exact hmono hl
    · obtain ⟨l, n, hl⟩ := hwrote v (List.mem_singleton.mp hv).symm
      exact hmono hl
  ended hc := by
    rcases List.mem_append.mp hc with hc | hc
    · exact (hh.ended hc).mono _
    · exact (hended (List.mem_singleton.mp hc).symm).mono _
  unset key v ttl hm := by
    rcases List.mem_append.mp hm with hm | hm
    · exact hh.unset key v ttl hm
    · exact hunset key v ttl (List.mem_singleton.mp hm).symm

theorem deleted (hh : LogoutTrail cfg k s h) (key : Key) :
    LogoutTrail cfg k s (h ++ [Act.cacheDeleted key]) :=
  hh.snoc trivial (by simp) (by simp) (by simp)

theorem clock (hh : LogoutTrail cfg k s h) (t : Time) : LogoutTrail cfg k s (h ++ [Act.clock t]) :=
  hh.snoc trivial (by simp) (by simp) (by simp)

theorem read (hh : LogoutTrail cfg k s h) (ho : Open h) {s' : String} (rows : List SessionModel) :
    LogoutTrail cfg k s (h ++ [Act.readSessions (.byId s') rows]) := by
  refine hh.snoc ⟨ho, fun r hr => ?_, by simp, by simp⟩ (by simp) (by simp) (by simp)
  obtain ⟨l, n, hv, -⟩ := hh.wrote _ hr
  cases hv

end LogoutTrail

def Eff.Deletes : {β : Type} → Eff β → Prop
  | _, .cacheDelete _ => True
  | _, _ => False

section

variable {α β : Type} {k : Call} {s : String} {h : List Act}

abbrev Failing (cfg : Config) (k : Call) (s : String) (p : M α) (h : List Act) : Prop :=
  (records cfg).faultyWp (LogoutTrail cfg k s) p (fun _ => LogoutTrail cfg k s) h

theorem failing_perform {e : Eff β} {f : β → M α} (hh : LogoutTrail cfg k s h)
    (hok : ∀ r, Answer cfg h e r → LogoutTrail cfg k s (h ++ [e.act r]) ∧
      ∀ b, r = .ok b → Failing cfg k s (f b) (h ++ [e.act r])) :
    Failing cfg k s (.perform e >>= f) h := by
  refine Trace.faultyWp_perform (fun _ => hh) fun r hr => ?_
  obtain ⟨ht, hf⟩ := hok r hr
  exact ⟨ht, fun _ => ht, hf⟩

theorem failing_now {f : Time → M α} (hh : LogoutTrail cfg k s h)
    (hf : ∀ t, Failing cfg k s (f t) (h ++ [Act.clock t])) : Failing cfg k s (now >>= f) h := by
  refine failing_perform hh fun r hr => ?_
  obtain ⟨t, rfl, -⟩ := hr
  refine ⟨hh.clock t, fun t' ht' => ?_⟩
  obtain rfl := Except.ok.inj ht'
  exact hf t

theorem failing_raiseIf {c : Prop} [Decidable c] {x : Exc} {f : Unit → M α}
    (hh : LogoutTrail cfg k s h) (hok : ¬ c → Failing cfg k s (f ()) h) :
    Failing cfg k s (Prog.raiseIf c x >>= f) h := by
  unfold Prog.raiseIf
  split
  · exact hh
  · rename_i hc
    exact hok hc

theorem failing_purge (hh : LogoutTrail cfg k s h) : Failing cfg k s (do
    Prog.suppress (cacheDelete (.session s))
    Prog.suppress (cacheDelete (.grace s))) h := by
  have honly : Only Eff.Deletes (do
      Prog.suppress (cacheDelete (.session s))
      Prog.suppress (cacheDelete (.grace s))) :=
    (Only.suppress (Only.perform trivial)).bind fun _ => Only.suppress (Only.perform trivial)
  refine honly.faultyWp (fun _ => id) (fun e h r he hr hi => ?_) hh
  cases e with
  | cacheDelete key =>
    obtain rfl : r = .ok () := hr
    exact hi.deleted key
  | _ => exact he.elim

theorem failing_save {x : SessionModel} {e : UserSession} (hh : LogoutTrail cfg k s h)
    (ho : Open h) (hmass : ∀ u rows, .readSessions (.unrevokedOf u) rows ∉ h)
    (hw : ∀ v, .wrote v ∉ h) (hx : Saw h x) (hid : x.id = s) (hcore : e.toModel.core = x.core)
    {t : Time} (ht : e.revokedAt = some t)
    (htime : .clock t ∈ h ∧ x.revokedAt = none ∨ x.revokedAt = some t)
    (hauth : ∀ h' l n, l.id = s → k.Authorised cfg h' (.updateSession l n))
    (hend : ∀ h' l, l.id = s → k.Ends cfg h' l) : Failing cfg k s (do
      updateSession e
      commit
      Prog.suppress (cacheDelete (.session s))
      Prog.suppress (cacheDelete (.grace s))) h := by
  have heid : e.id = s := (SessionModel.core_id hcore).trans hid
  have hcommit : ∀ h', LogoutTrail cfg k s h' → Open h' →
      (∀ u rows, .readSessions (.unrevokedOf u) rows ∉ h') → Ended h' s →
        Failing cfg k s (do
          commit
          Prog.suppress (cacheDelete (.session s))
          Prog.suppress (cacheDelete (.grace s))) h' := by
    intro h' hh' ho' hmass' hended
    refine failing_perform hh' fun r hr => ?_
    obtain rfl : r = .ok () := hr
    have hcommitted : LogoutTrail cfg k s (h' ++ [Act.committed]) := by
      refine hh'.snoc ⟨ho', fun u rows hm => absurd hm (hmass' u rows), fun l n hm => ?_⟩ (by simp)
        (fun _ => hended) (by simp)
      obtain ⟨l', n', hv, -⟩ := hh'.wrote _ hm
      cases hv
    exact ⟨hcommitted, fun _ _ => failing_purge hcommitted⟩
  unfold updateSession
  rw [bind_assoc]
  refine failing_perform hh fun r hr => ?_
  obtain ⟨rows, rfl, hrows⟩ := hr
  have hread : LogoutTrail cfg k s (h ++ [Act.readSessions (.byId e.id) rows]) := hh.read ho rows
  have ho' : Open (h ++ [Act.readSessions (.byId e.id) rows]) := by simpa [Open] using ho
  have hmass' : ∀ u rows', .readSessions (.unrevokedOf u) rows' ∉
      h ++ [Act.readSessions (.byId e.id) rows] := by simp [hmass]
  refine ⟨hread, fun rows' hrows' => ?_⟩
  obtain rfl := Except.ok.inj hrows'
  obtain ⟨hagain, hne⟩ := hrows.again ho (fun r => hw _) x hx
  rw [hid] at hne hagain
  rw [heid] at hne
  rcases rows with _ | ⟨y, rest⟩
  · exact absurd rfl (hne rfl)
  -- The row that is loaded for the merge is the one that was read, or it has been revoked since.
  have hyid : y.id = s := by
    have hsel := hrows.selects y (by simp)
    rw [heid] at hsel
    simpa [SessionQuery.selects] using hsel
  obtain ⟨hycore, hyrev⟩ := hagain y (by simp) hyid
  have hsaw : Saw (h ++ [Act.readSessions (.byId e.id) (y :: rest)]) y :=
    ⟨.byId e.id, y :: rest, by simp, by simp⟩
  simp only
  split
  · rename_i hsame
    refine hcommit _ hread ho' hmass' (.inr ⟨y, hsaw, hyid, ?_⟩)
    rw [← hsame]
    simp [UserSession.toModel, ht]
  · rename_i hne'
    have hrevokes : Revokes cfg k (h ++ [Act.readSessions (.byId e.id) (y :: rest)]) y
        e.toModel := by
      refine ⟨hsaw, hcore.trans hycore.symm, fun hrev => hne' ?_, ⟨t, ht, ?_⟩, hend _ y hyid⟩
      · exact SessionModel.eq_of_core (hcore.trans hycore.symm) hrev
      · rcases htime with ⟨hclock, hlive⟩ | hrev
        · exact .inl ⟨by simp [hclock], x, hx.mono, hid.trans hyid.symm, hlive⟩
        · exact .inr ⟨x, hx.mono, hid.trans hyid.symm, hrev⟩
    refine failing_perform hread fun r hr => ?_
    rcases hr with rfl | ⟨e', -, rfl⟩
    · have hwrote : LogoutTrail cfg k s (h ++ [Act.readSessions (.byId e.id) (y :: rest)] ++
          [Act.wrote (.updateSession y e.toModel)]) := by
        refine hread.snoc ⟨ho', hauth _ y _ hyid, hrevokes⟩ (fun v hv => ?_) (by simp) (by simp)
        cases hv
        exact ⟨y, e.toModel, rfl, hsaw, hyid⟩
      have hopen : Open (h ++ [Act.readSessions (.byId e.id) (y :: rest)] ++
          [Act.wrote (.updateSession y e.toModel)]) := by simpa [Open] using ho
      have hrest := hcommit _ hwrote hopen (by simp [hmass]) (.inl ⟨y, e.toModel, by simp, hyid⟩)
      exact ⟨hwrote, fun _ _ => hrest⟩
    · have hrefused : LogoutTrail cfg k s (h ++ [Act.readSessions (.byId e.id) (y :: rest)] ++
          [Act.refused (.updateSession y e.toModel)]) :=
        hread.snoc trivial (by simp) (by simp) (by simp)
      exact ⟨hrefused, by simp⟩

theorem failing_logout {t₀ : Time} (hauth : ∀ h' l n, l.id = s →
      k.Authorised cfg h' (.updateSession l n))
    (hend : ∀ h' l, l.id = s → k.Ends cfg h' l) : Failing cfg k s (logout s) [.clock t₀] := by
  have h₀ : LogoutTrail cfg k s [.clock t₀] := LogoutTrail.nil.clock t₀
  unfold logout getSessionById
  rw [bind_assoc]
  refine failing_perform h₀ fun r hr => ?_
  obtain ⟨rows, rfl, hrows⟩ := hr
  have h₁ : LogoutTrail cfg k s [.clock t₀, .readSessions (.byId s) rows] :=
    h₀.read (by simp [Open]) rows
  refine ⟨h₁, fun rows' hrows' => ?_⟩
  obtain rfl := Except.ok.inj hrows'
  rcases rows with _ | ⟨x, _ | ⟨x', rest⟩⟩
  · exact h₁
  · have hid : x.id = s := by simpa [SessionQuery.selects] using hrows.selects x (by simp)
    have hsaw : Saw [.clock t₀, .readSessions (.byId s) [x]] x := ⟨.byId s, [x], by simp, by simp⟩
    change Failing cfg k s (x.toEntity.revoke >>= fun session => do
      updateSession session
      commit
      Prog.suppress (cacheDelete (.session s))
      Prog.suppress (cacheDelete (.grace s))) [.clock t₀, .readSessions (.byId s) [x]]
    unfold UserSession.revoke
    cases hrev : x.revokedAt with
    | some t =>
      simp only [show x.toEntity.revokedAt = some t from hrev, pure_bind]
      exact failing_save h₁ (by simp [Open]) (by simp) (by simp) hsaw hid rfl hrev (.inr hrev)
        hauth hend
    | none =>
      simp only [show x.toEntity.revokedAt = none from hrev]
      rw [bind_assoc]
      refine failing_now h₁ fun t => ?_
      exact failing_save (h₁.clock t) (by simp [Open]) (by simp) (by simp) hsaw.mono hid rfl rfl
        (.inl ⟨by simp, hrev⟩) hauth hend
  · exact h₁

theorem failing_logoutRoute {token : Token} {c : Claims} (hv : cfg.jose.verify token = some c)
    (hs : c.sid = some s) (hne : s ≠ "") :
    Failing cfg (.logoutRoute token) s (logoutRoute cfg token) [] := by
  have hp : (Call.logoutRoute token).Presents cfg c := ⟨token, by simp [Call.tokens], hv⟩
  have hsid : c.sid.filter (· ≠ "") = some s := by simp [hs, hne]
  refine (Trace.faultyWp_tryCatch _ _ _ _).mpr ?_
  refine Trace.faultyWp_mono (Q := fun _ => LogoutTrail cfg (.logoutRoute token) s) ?_
    (fun _ => id) ?_
  · unfold decodeToken
    rw [hv]
    simp only
    rw [bind_assoc]
    refine failing_now .nil fun t => ?_
    rw [bind_assoc]
    refine failing_raiseIf (LogoutTrail.nil.clock t) fun _ => ?_
    rw [pure_bind, hsid]
    exact failing_logout (fun _ l n hid _ => ⟨c, hp, .inr (.inr ⟨l, n, rfl, .inl (hid ▸ hs)⟩)⟩)
      fun _ l hid => .logoutRoute token c rfl hv (hid ▸ hs)
  · rintro (x | a) h hh <;> exact hh

theorem failing_prog {token : Token} {c : Claims} (hv : cfg.jose.verify token = some c)
    (hs : c.sid = some s) (hne : s ≠ "") :
    (records cfg).faultyWp (Lawful cfg (.logoutRoute token)) (Call.prog cfg (.logoutRoute token))
      (fun _ => LogoutTrail cfg (.logoutRoute token) s) [] := by
  refine (Trace.faultyWp_ensure _ _ _ _).mpr ((Trace.faultyWp_map _ _ _ _).mpr ?_)
  refine Trace.faultyWp_mono (failing_logoutRoute hv hs hne) (fun _ hh => hh.lawful) ?_
  intro r h hh
  refine ⟨fun _ => hh, fun x hx => ?_⟩
  obtain rfl : x = .ok () := hx
  have hclosed : LogoutTrail cfg (.logoutRoute token) s (h ++ [Act.closed]) :=
    hh.snoc trivial (by simp) (by simp) (by simp)
  exact ⟨hclosed.lawful, hclosed, fun _ => hclosed⟩

end

structure Struck (cfg : Config) (C : MayCache Key Json γ χ) (m : Nat → Option Call) (n : Nat)
    (k : Call) (start : Time) (w w' : World γ) : Prop where
  before : Between cfg C m n w
  provenance : Provenance cfg C (Function.update m n (some k)) w'
  alone : Solitary C n (w.setClock start) w'
  others : ∀ j, j ≠ n → w'.hist j = w.hist j

theorem Between.struck {m : Nat → Option Call} {n : Nat} {k : Call} {w w' : World γ}
    {start : Time} {cs : List (Fault Exc × Choice χ)} {r : Except Exc Out}
    {Q : Except Exc Out → List Act → Prop} (h : Between cfg C m n w) (hstart : w.clock ≤ start)
    (ha : (app cfg C).accepts k w = true)
    (hp : (records cfg).faultyWp (Lawful cfg k) (k.prog cfg) Q [])
    (hr : (semantics cfg C).faulty.run n cs (k.prog cfg) (w.setClock start) = some (r, w')) :
    Struck cfg C m n k start w w' ∧ Q r (w'.hist n) := by
  have hnone := h.unmade n (Nat.le_refl n)
  have hnil : w.hist n = [] := h.provenance.idle n hnone
  have hprov := (h.provenance.tick hstart).call hnone ha
  have hvacant : Vacant (w.setClock start) n := ⟨h.pending n, h.locks⟩
  obtain ⟨hprov', hq, hothers, halone⟩ := audit_kept.faulty_run
    (J := Solitary C n (w.setClock start))
    (fun e c s r s' hinv hs he hl => hs.moved hinv (semantics_step he).1 hl)
    (by simp) hprov (hvacant.solitary hnil) (hnil ▸ hp) hr
  exact ⟨⟨h, hprov', halone, hothers⟩, hq⟩

namespace Struck

variable {m : Nat → Option Call} {n : Nat} {k : Call} {start : Time} {w w' : World γ} {s : String}
  (h : Struck cfg C m n k start w w')
include h

theorem old {j : Nat} {a : Act} (ha : a ∈ w.hist j) : a ∈ w'.hist j := by
  have hne : j ≠ n := by
    rintro rfl
    rw [h.before.provenance.idle j (h.before.unmade j (Nat.le_refl j))] at ha
    cases ha
  rw [h.others j hne]
  exact ha

theorem revoked (hc : .committed ∈ w'.hist n) (he : Ended (w'.hist n) s) :
    ∃ y, w'.db.sessions.get s = some y ∧ y.revokedAt ≠ none := by
  have htook : ∀ l new, .wrote (.updateSession l new) ∈ w'.hist n → l.id = s →
      ∃ y, w'.db.sessions.get s = some y ∧ y.revokedAt ≠ none := by
    rintro l new hw rfl
    exact h.provenance.took n _ hw hc
  rcases he with ⟨l, new, hw, hid⟩ | ⟨x, hx, rfl, hrev⟩
  · exact htook l new hw hid
  · obtain ⟨y, hy, -, hyrev⟩ := h.provenance.saw n x hx
    rcases hyrev hrev with hyrev | ⟨l, new, hw, hid⟩
    · exact ⟨y, hy, hyrev⟩
    · exact htook l new hw hid

theorem unknown (ht : LogoutTrail cfg k s (w'.hist n)) (hnone : w.db.sessions.get s = none) :
    w'.db.sessions.get s = none := by
  cases hx : w'.db.sessions.get s with
  | none => rfl
  | some x =>
    obtain ⟨i, r, hw, hc, hid, -⟩ := h.provenance.row s x hx
    by_cases hi : i = n
    · subst hi
      obtain ⟨l, new, hv, -⟩ := ht.wrote _ hw
      cases hv
    · rw [h.others i hi] at hw hc
      obtain ⟨y, hy, -⟩ := h.before.provenance.took i _ hw hc
      rw [hid, hnone] at hy
      cases hy

theorem done (ht : LogoutTrail cfg k s (w'.hist n))
    (hdone : w.db.sessions.get s = none ∨ .committed ∈ w'.hist n) :
    Between cfg C (Function.update m n (some k)) (n + 1) w' := by
  refine h.before.next h.provenance h.others h.alone ?_
  rw [h.provenance.pending n]
  split
  · rename_i ho
    rcases hdone with hnone | hc
    · by_contra hne
      obtain ⟨v, hv⟩ := List.exists_mem_of_ne_nil _ hne
      obtain ⟨l, new, -, hsaw, hid⟩ := ht.wrote v (mem_written.mp hv)
      obtain ⟨y, hy, -⟩ := h.provenance.saw n l hsaw
      rw [hid, h.unknown ht hnone] at hy
      cases hy
    · exact absurd hc ho.1
  · rfl

theorem isOver (ht : LogoutTrail cfg k s (w'.hist n)) (hdrawn : ∃ j, w.drawn s = some j)
    (hdone : w.db.sessions.get s = none ∨ .committed ∈ w'.hist n) : Over w' s := by
  refine ⟨hdrawn.imp fun j hj => ?_, fun x hx => ?_⟩
  · exact (h.provenance.drawn s j).mpr (h.old ((h.before.provenance.drawn s j).mp hj))
  · rcases hdone with hnone | hc
    · rw [h.unknown ht hnone] at hx
      cases hx
    · obtain ⟨y, hy, hrev⟩ := h.revoked hc (ht.ended hc)
      rw [hx] at hy
      cases hy
      exact hrev

theorem emptied (hcoh : Coherent C w) (hex : C.Exact) (ht : LogoutTrail cfg k s (w'.hist n))
    (hdel : w.db.sessions.get s = none ∨ .cacheDeleted (.session s) ∈ w'.hist n) (v : Json) :
    ¬ C.holds w'.cache (.session s) v := by
  rcases hdel with hnone | hdel
  · intro hv
    obtain ⟨hold, -⟩ | ⟨ttl, l₁, l₂, hset, -⟩ := h.alone.played.holds _ v hv
    · obtain ⟨x, -, hx, -⟩ := hcoh.session s v hold
      rw [hnone] at hx
      cases hx
    · have hm : .cacheSet (.session s) v ttl ∈ w'.hist n := hset ▸ by simp
      exact ht.unset _ _ _ hm
  · exact h.alone.played.gone hex hdel (fun v ttl => ht.unset _ v ttl) v

end Struck

end AsyncPulse
