import AsyncPulse.Isolation
import AsyncPulse.Review
set_option autoImplicit false

namespace AsyncPulse
open Effect

variable {γ χ : Type} {cfg : Config} {C : MayCache Key Json γ χ}

/-- The role of user `u`. Who is not in the table has, or would get, the default. -/
def Database.roleOf (d : Database) (u : String) : UserRole :=
  ((d.users.get u).map UserModel.role).getD .user

theorem Database.roleOf_of_get {d : Database} {u : String} {x : UserModel}
    (hx : d.users.get u = some x) : d.roleOf u = x.role := by
  rw [roleOf, hx, Option.map_some, Option.getD_some]

def Write.Ordinary : Write → Prop
  | .insertUser r => r.role = .user
  | _ => True

theorem Database.apply_roleOf {d : Database} {v : Write} (hs : v.Sound d) (ho : v.Ordinary)
    (u : String) : (d.apply v).roleOf u = d.roleOf u := by
  cases hx : d.users.get u with
  | some x =>
    obtain ⟨x', hx', hr⟩ := (Database.apply_grows hs).users u x hx
    rw [roleOf_of_get hx, roleOf_of_get hx', hr]
  | none =>
    cases hx' : (d.apply v).users.get u with
    | none => rw [roleOf, roleOf, hx, hx']
    | some x' =>
      cases v with
      | insertUser r =>
        obtain ⟨rfl, -⟩ := Keyed.get_of_get_insert hx hx'
        rw [roleOf_of_get hx', roleOf, hx]
        exact ho
      | updateUser l n =>
        rw [apply, Keyed.get_modify, hx] at hx'
        split at hx' <;> cases hx'
      | insertSession r =>
        rw [apply, hx] at hx'
        cases hx'
      | updateSession l n =>
        rw [apply, hx] at hx'
        cases hx'

theorem Database.applyAll_roleOf {d : Database} {ws : List Write} (hs : ∀ v ∈ ws, v.Sound d)
    (ho : ∀ v ∈ ws, v.Ordinary) (u : String) : (d.applyAll ws).roleOf u = d.roleOf u := by
  induction ws generalizing d with
  | nil => rfl
  | cons v ws ih =>
    have hv := hs v (by simp)
    have hgrow := Database.apply_grows hv
    rw [applyAll_cons, ih (fun v' hv' => (hs v' (by simp [hv'])).grows hgrow)
      fun v' hv' => ho v' (by simp [hv'])]
    exact apply_roleOf hv (ho v (by simp)) u

theorem Provenance.ordinary {m : Nat → Option Call} {w : World γ} (h : Provenance cfg C m w)
    {i : Nat} {v : Write} (hv : .wrote v ∈ w.hist i) : v.Ordinary := by
  obtain ⟨k, h₁, h₂, -, -, -, -, hlaw⟩ := h.wrote hv
  cases v with
  | insertUser r => exact hlaw.2.1
  | _ => trivial

theorem Provenance.view_roleOf {m : Nat → Option Call} {w : World γ} (h : Provenance cfg C m w)
    (i : Nat) (u : String) : (w.view i).roleOf u = w.db.roleOf u := by
  exact Database.applyAll_roleOf (h.sound_pending i) (fun v hv => h.ordinary (h.of_pending hv).2) u

theorem Reachable.roleOf_exec {s s' : State γ} {l : Label Call (Choice χ)}
    (hr : Reachable cfg C s) (hs : (app cfg C).exec l s = some s') :
    s'.world.db.roleOf = s.world.db.roleOf := by
  generalize hw : s'.world = w'
  cases hw ▸ hr.change hs with
  | idle _ t w _ hw => rw [hw, World.setClock_db]
  | moved i c k β e f r w _ _ hmv _ =>
    rw [hmv.db]
    split
    · exact funext (hr.provenance.view_roleOf i)
    · rfl

theorem Init.roleOf {w : World γ} (hw : Init C w) {s : State γ} {ls : List (Label Call (Choice χ))}
    (hs : (app cfg C).execs ls ⟨w, fun _ => none⟩ = some s) : s.world.db.roleOf = w.db.roleOf := by
  have hstart : Reachable cfg C ⟨w, fun _ => none⟩ := ⟨w, [], hw, rfl⟩
  exact ((app cfg C).execs_invariant
    (P := fun s => Reachable cfg C s ∧ s.world.db.roleOf = w.db.roleOf) (A := fun _ _ => True)
    (fun l s s' h _ hs => ⟨h.1.exec hs, (h.1.roleOf_exec hs).trans h.2⟩) ⟨hstart, rfl⟩
    (app cfg C).along_trivial hs).2

theorem User.role_of_toDict {x y : User} (h : x.toDict = y.toDict) : x.role = y.role := by
  have hx := fromDict_toDict x
  rw [h, fromDict_toDict] at hx
  exact (congrArg User.role (Except.ok.inj hx)).symm

theorem Provenance.lookup_role {m : Nat → Option Call} {w : World γ} (h : Provenance cfg C m w)
    {i : Nat} {u : String} {x : User} {l : List Act} (hl : UserLookup u (some x) l)
    (hsub : l ⊆ w.hist i) : x.role = w.db.roleOf u := by
  cases hl with
  | hit y hid =>
    obtain ⟨j, ttl, hset⟩ := h.got i (.user u) y.toDict (hsub (by simp))
    obtain ⟨k, -, hlaw⟩ := h.lawful_of_mem hset
    obtain ⟨h₁, h₂, he, z, rfl, hdict, -, -, rows, hread, hz⟩ := hlaw.of_mem hset
    obtain ⟨a, ha, hrole⟩ := h.sawUser j z ⟨_, rows, he ▸ List.mem_append_left _ hread, hz⟩
    rw [Database.roleOf_of_get ha, hrole]
    exact User.role_of_toDict hdict
  | warm y hid _ =>
    obtain ⟨a, ha, hrole⟩ := h.sawUser i y ⟨.byId u, [y], hsub (by simp), by simp⟩
    rw [hid] at ha
    rw [Database.roleOf_of_get ha, hrole]
    rfl

def Call.Entitled (cfg : Config) (k : Call) (r : Except Exc Out) (h : List Act) : Prop :=
  (∃ o, r = .ok o) → match k with
    | .deleteUserRoute token _ => ∃ c, cfg.jose.verify token = some c ∧ SawSuperuser h c.sub
    | .updateUserRoute token u _ =>
      ∃ c, cfg.jose.verify token = some c ∧ (c.sub = u ∨ SawSuperuser h c.sub)
    | _ => True

theorem Call.Entitled.mono {k : Call} {r : Except Exc Out} {h : List Act}
    (he : k.Entitled cfg r h) (l : List Act) : k.Entitled cfg r (h ++ l) := by
  intro ho
  have he := he ho
  cases k with
  | deleteUserRoute token u =>
    obtain ⟨c, hv, hs⟩ := he
    exact ⟨c, hv, hs.mono⟩
  | updateUserRoute token u p =>
    obtain ⟨c, hv, hs⟩ := he
    exact ⟨c, hv, hs.imp_right fun hs => hs.mono⟩
  | _ => trivial

theorem entitled_body (k : Call) : Traced cfg k (k.body cfg) (k.Entitled cfg) [] := by
  have hraised : ∀ (k : Call) {β : Type} {f : β → Out} (x : Exc) h,
      k.Entitled cfg ((.error x : Except Exc β).map f) h := fun k β f x h ho => by
    obtain ⟨o, ho⟩ := ho
    cases ho
  cases k with
  | deleteUserRoute token u =>
    refine (Trace.wp_map _ _ _ _ _).mpr ?_
    refine traced_gated rfl (by simp [Call.tokens]) (fun c x l hp hid hs hread hl => ?_)
      fun e l _ => hraised _ _ _
    unfold requireRole
    refine traced_raiseIf (fun _ => hraised _ _ _) fun hrole => ?_
    have hsuper : x.role = .superuser := by
      cases hr : x.role <;> simp [hr, UserRole.rank] at hrole ⊢
    refine Trace.wp_mono _ (Trace.wp_record _ hl (traced_deleteUser hl rfl hread
      (fun v _ => ⟨c, hp, .inr (.inl (hs hsuper))⟩) fun _ _ _ => id)) ?_
    rintro r h ⟨⟨-, l', rfl⟩, -⟩ -
    obtain ⟨t, ht, hv⟩ := hp
    rw [List.mem_singleton.mp ht] at hv
    exact ⟨c, hv, (hs hsuper).mono⟩
  | updateUserRoute token u p =>
    refine (Trace.wp_map _ _ _ _ _).mpr ?_
    refine traced_gated rfl (by simp [Call.tokens]) (fun c x l hp hid hs hread hl => ?_)
      fun e l _ => hraised _ _ _
    refine traced_raiseIf (fun _ => hraised _ _ _) fun hown => ?_
    have hright : c.sub = u ∨ SawSuperuser l c.sub := by
      by_cases hu : x.id = u
      · exact .inl (hid.symm.trans hu)
      · exact .inr (hs (by simpa [hu] using hown))
    refine Trace.wp_mono _ (Trace.wp_record _ hl (traced_updateUser hl hread
      (fun a n ha _ => ⟨c, hp, hright.imp (fun h => ha.trans h.symm) .inl⟩) fun _ _ _ => id)) ?_
    rintro r h ⟨⟨-, l', rfl⟩, -⟩ -
    obtain ⟨t, ht, hv⟩ := hp
    rw [List.mem_singleton.mp ht] at hv
    exact ⟨c, hv, hright.imp_right fun hs => hs.mono⟩
  | _ => exact Trace.wp_mono _ (traced_body _) fun _ _ _ _ => trivial

theorem entitled_prog (k : Call) : Traced cfg k (k.prog cfg) (k.Entitled cfg) [] := by
  refine (Trace.wp_ensure _ _ _ _ _).mpr
    (Trace.wp_mono _ (Trace.wp_record _ .nil (entitled_body k)) ?_)
  rintro r h ⟨⟨hl, -⟩, he⟩ r' ⟨⟩
  exact ⟨hl.snoc trivial, he.mono _⟩

theorem Provenance.superuser_roleOf {m : Nat → Option Call} {w : World γ}
    (h : Provenance cfg C m w) {i : Nat} {u : String} (hs : SawSuperuser (w.hist i) u) :
    w.db.roleOf u = .superuser := by
  obtain ⟨x, hx, hr⟩ := h.superuser hs
  rw [Database.roleOf_of_get hx, hr]

/-- In no interleaving does anybody get another role, not even in the eyes of a gate that goes by
the cache; so only those who were superusers from the start act on the accounts of others. -/
theorem roles_never_change {w : World γ} {s : State γ} {ls : List (Label Call (Choice χ))}
    (hw : Init C w) (hs : (app cfg C).execs ls ⟨w, fun _ => none⟩ = some s) :
    s.world.db.roleOf = w.db.roleOf ∧
    (∀ i token z, s.script i = some (.getCurrentUser token) → s.answer i = some (.ok (.user z)) →
      z.role = w.db.roleOf z.id) ∧
    (∀ i token u o, s.script i = some (.deleteUserRoute token u) → s.answer i = some (.ok o) →
      ∃ c, cfg.jose.verify token = some c ∧ w.db.roleOf c.sub = .superuser) ∧
    ∀ i token u p o, s.script i = some (.updateUserRoute token u p) → s.answer i = some (.ok o) →
      ∃ c, cfg.jose.verify token = some c ∧ (c.sub = u ∨ w.db.roleOf c.sub = .superuser) := by
  have hr : Reachable cfg C s := ⟨w, ls, hw, hs⟩
  have hprov := hr.provenance
  have hrole := hw.roleOf hs
  refine ⟨hrole, fun i token z hk hi => ?_, fun i token u o hk hi => ?_,
    fun i token u p o hk hi => ?_⟩
  · obtain ⟨h₀, hh, -, -, r, hr', hd⟩ := hr.finished hk hi
    obtain ⟨x, rfl, hx⟩ := map_eq_ok hr'.symm
    cases hx
    rw [← hrole]
    cases hd with
    | ran c s' r' l _ _ _ _ _ hrun =>
      cases hrun with
      | passed t t' l₁ l₂ v x _ _ _ _ _ hu _ =>
        rw [hu.superuser.1]
        refine hprov.lookup_role (i := i) hu fun a ha => ?_
        rw [hh]
        simp [ha]
  · obtain ⟨c, hv, hsaw⟩ := hr.ends entitled_prog hk hi ⟨o, rfl⟩
    exact ⟨c, hv, hrole ▸ hprov.superuser_roleOf hsaw⟩
  · obtain ⟨c, hv, hsaw⟩ := hr.ends entitled_prog hk hi ⟨o, rfl⟩
    exact ⟨c, hv, hsaw.imp_right fun hsaw => hrole ▸ hprov.superuser_roleOf hsaw⟩

def root : UserModel :=
  { alice with id := "root", email := "root@example.org", username := "root",
               name := some "Root", role := .superuser }

def staffed : World (TimedStore Key Json) :=
  { sampleWorld with db := { users := (Keyed.empty.insert alice).insert root, sessions := .empty } }

theorem staffed_init : Init TimedStore.reliable staffed :=
  { sampleWorld_init with userIds := by decide }

def rootToken : Token :=
  .signed { sub := "root", exp := 901, type := .access, sid := some "s1", jti := none }

def removeAlice : List (Label Call (Choice Unit)) :=
  .call 0 (.authenticate "root@example.org" "secret" none none) :: effects 0 14 1 "s1" ++
    .call 1 (.deleteUserRoute rootToken "alice") :: effects 1 18 2 ""

theorem roles_never_change_root : ∃ (s : State (TimedStore Key Json)) (c : Claims),
    sampleApp.execs removeAlice ⟨staffed, fun _ => none⟩ = some s ∧
    sampleConfig.jose.verify rootToken = some c ∧ staffed.db.roleOf c.sub = .superuser := by
  have hs : sampleApp.execs removeAlice ⟨staffed, fun _ => none⟩ =
      some (sampleApp.afterwards removeAlice ⟨staffed, fun _ => none⟩) :=
    sampleApp.execs_afterwards (by decide +kernel)
  obtain ⟨c, hc⟩ := (roles_never_change staffed_init hs).2.2.1 1 rootToken "alice" .done
    (by decide +kernel) (by decide +kernel)
  exact ⟨_, c, hs, hc⟩

end AsyncPulse
