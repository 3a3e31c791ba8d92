import AsyncPulse.Audit
import AsyncPulse.Routes
import AsyncPulse.SortedPages
set_option autoImplicit false

namespace AsyncPulse
open Effect

/-- A page size that `PageParams` accepts. -/
structure PageSize where
  size : Nat
  pos : 1 ≤ size
  le : size ≤ 100

/-- Page `p + 1`. -/
def PageSize.request (s : PageSize) (p : Nat) : PageParams :=
  { page := p + 1, pageSize := s.size, page_pos := by omega, size_pos := s.pos, size_le := s.le }

def live (t : Users) : List UserModel := t.rows.filter fun r => r.deletedAt.isNone

/-- The users in the order in which the database returns them for a page. -/
def listed (rank : String → Nat) (t : Users) : List UserModel :=
  (live t).insertionSort fun a b => (UserQuery.page 0 0).before rank a b

theorem listed_perm (rank : String → Nat) (t : Users) : (listed rank t).Perm (live t) :=
  List.perm_insertionSort _ _

theorem live_nodup (t : Users) : (live t).Nodup := t.nodup.of_map.filter _

theorem listed_sorted (rank : String → Nat) (t : Users) : (listed rank t).Pairwise fun a b =>
    b.createdAt < a.createdAt ∨ a.createdAt = b.createdAt ∧ rank a.id ≤ rank b.id := by
  have hsorted := pairwise_insertionSort_key ((UserQuery.page 0 0).before rank)
    (fun a => -a.createdAt) (fun a => rank a.id) (by
      intro a b
      simp only [UserQuery.before, Bool.or_eq_true, Bool.and_eq_true, decide_eq_true_eq,
        Int.neg_lt_neg_iff, Int.neg_inj]) (live t)
  apply hsorted.imp
  intro a b hab
  simpa only [Int.neg_lt_neg_iff, Int.neg_inj] using hab

theorem listed_descending (rank : String → Nat) (t : Users) :
    (listed rank t).Pairwise fun a b => b.createdAt ≤ a.createdAt := by
  apply (listed_sorted rank t).imp
  intro a b hab
  cases hab with
  | inl hlt => exact Int.le_of_lt hlt
  | inr heq => exact Int.le_of_eq heq.1.symm

theorem eval_page (s : PageSize) (p : Nat) (rank : String → Nat) (t : Users) :
    (UserQuery.page (s.request p).offset s.size).eval rank t =
      Paged.page s.size p (listed rank t) := by
  unfold PageParams.offset PageSize.request
  rw [Nat.add_sub_cancel]
  rfl

variable {γ χ : Type} {cfg : Config} {C : MayCache Key Json γ χ}

def listing (rank : String → Nat) (t : Users) (q : PageParams) : Out :=
  .page (((UserQuery.page q.offset q.pageSize).eval rank t).map UserModel.toEntity) (live t).length

/-- Nobody has anything to commit. -/
def AtRest (w : World γ) : Prop := ∀ i, w.pending i = []

structure Listed (q : PageParams) (rank : String → Nat) (r : Except Exc Out) (w w' : World γ) :
    Prop where
  answer : r = .ok (listing rank w.db.users q)
  db : w'.db = w.db
  rest : AtRest w'

variable {i : Nat} {w w' : World γ} {q : PageParams} {r : Except Exc Out}

def looked (i : Nat) (q : PageParams) (rank : String → Nat) (w : World γ) : World γ :=
  (((w.log i .counted).log i (.readUsers (.page q.offset q.pageSize)
    ((UserQuery.page q.offset q.pageSize).eval rank w.db.users))).release i).log i .closed

theorem atRest_looked (hw : AtRest w) (rank : String → Nat) : AtRest (looked i q rank w) := by
  intro j
  change Function.update w.pending i [] j = []
  by_cases hj : j = i
  · rw [hj, Function.update_self]
  · rw [Function.update_of_ne hj, hw j]

theorem run_listUsers (hw : AtRest w) (c₁ c₂ c₃ : Choice χ) (cs : List (Choice χ)) :
    (semantics cfg C).run i (c₁ :: c₂ :: c₃ :: cs) (Call.prog cfg q.call) w =
      some (.ok (listing c₂.rank w.db.users q), looked i q c₂.rank w) := by
  have hview : w.view i = w.db := by
    rw [World.view, hw i]
    rfl
  unfold listing looked
  rw [← hview]
  refine (Sem.run_op (e := Eff.countUsers) (r := .ok _) rfl).trans ?_
  refine (Sem.run_op (e := Eff.selectUsers (.page q.offset q.pageSize)) (r := .ok _) rfl).trans ?_
  refine (Sem.run_op (e := Eff.close) (r := .ok ()) rfl).trans ?_
  exact Sem.run_ret _ _ _

theorem listed_of_run (hw : AtRest w) {cs : List (Choice χ)}
    (hr : (semantics cfg C).run i cs (Call.prog cfg q.call) w = some (r, w')) :
    ∃ rank, Listed q rank r w w' := by
  match cs with
  | [] | [_] | [_, _] => cases hr
  | c₁ :: c₂ :: c₃ :: cs =>
    rw [run_listUsers hw] at hr
    cases hr
    exact ⟨c₂.rank, rfl, rfl, atRest_looked hw c₂.rank⟩

def tour (s : PageSize) (n : Nat) : List Call := (List.range n).map fun p => (s.request p).call

theorem tour_succ (s : PageSize) (n : Nat) : tour s (n + 1) = tour s n ++ [(s.request n).call] := by
  simp [tour, List.range_succ]

/-- The clock may stand still between two requests. -/
def Whenever (_ _ : World γ) : Prop := True

theorem AtRest.tour {s : PageSize} {n m k : Nat} {log : List (Call × Except Exc Out)}
    (hw : AtRest w) (hs : (app cfg C).Seq Whenever n w log m w')
    (hlog : log.map Prod.fst = tour s k) : AtRest w' ∧ w'.db = w.db ∧
      ∃ rank : Nat → String → Nat, log.map Prod.snd =
        (List.range k).map fun p => .ok (listing (rank p) w.db.users (s.request p)) := by
  induction hs generalizing k with
  | nil w =>
    refine ⟨hw, rfl, fun _ _ => 0, ?_⟩
    have hk : k = 0 := by simpa [AsyncPulse.tour] using (congrArg List.length hlog).symm
    rw [hk]
    rfl
  | @snoc m w w₁ w₂ log call r _ hc ih =>
    cases k with
    | zero => simp [AsyncPulse.tour] at hlog
    | succ k =>
      rw [List.map_append, tour_succ] at hlog
      obtain ⟨hinit, hlast⟩ := List.append_inj' hlog rfl
      obtain rfl : call = (s.request k).call := (List.cons.inj hlast).1
      obtain ⟨hw₁, hdb, rank, hrank⟩ := ih hw hinit
      obtain ⟨c, w₃, cs, ht, -, -, hr⟩ := hc
      obtain ⟨-, rfl⟩ := app_tick ht
      obtain ⟨rank', hl⟩ := listed_of_run (show AtRest (w₁.setClock c.time) from hw₁) hr
      refine ⟨hl.rest, hl.db.trans hdb, Function.update rank k rank', ?_⟩
      rw [List.map_append, hrank, List.range_succ, List.map_append]
      congr 1
      · apply List.map_congr_left
        intro p hp
        rw [Function.update_of_ne (Nat.ne_of_lt (List.mem_range.mp hp))]
      · rw [List.map_singleton, List.map_singleton, Function.update_self, hl.answer,
          World.setClock_db, hdb]

/-- Whatever order the database picks for each page, there is a run in which it does. -/
theorem AtRest.exists_tour (cfg : Config) (C : MayCache Key Json γ χ) [Inhabited χ] (s : PageSize)
    (rank : Nat → String → Nat) (hw : AtRest w) (n k : Nat) :
    ∃ w', (app cfg C).Seq Whenever n w ((List.range k).map fun p =>
      ((s.request p).call, .ok (listing (rank p) w.db.users (s.request p)))) (n + k) w' ∧
        AtRest w' ∧ w'.db = w.db := by
  induction k with
  | zero => exact ⟨w, .nil n w, hw, rfl⟩
  | succ k ih =>
    obtain ⟨w₁, hseq, hw₁, hdb⟩ := ih
    let c : Choice χ := ⟨w₁.clock, "", "", rank k, false, default⟩
    have hrest : AtRest (w₁.setClock c.time) := hw₁
    have hcomp : (app cfg C).Completed Whenever (n + k) (s.request k).call
        (.ok (listing (rank k) w.db.users (s.request k))) w₁
        (looked (n + k) (s.request k) (rank k) (w₁.setClock c.time)) := by
      refine ⟨c, w₁.setClock c.time, [c, c, c], if_pos (Int.le_refl _), trivial, rfl, ?_⟩
      rw [← hdb]
      exact run_listUsers hrest c c c []
    refine ⟨looked (n + k) (s.request k) (rank k) (w₁.setClock c.time), ?_,
      atRest_looked hrest (rank k), hdb⟩
    rw [List.range_succ, List.map_append]
    exact .snoc hseq hcomp

/-- The users on a page. A reply without a page shows nobody. -/
def Reply.items (r : Reply) : List UserRead :=
  match r.body with
  | .success { data := .paged items _ _ _, .. } => items
  | _ => []

def Reply.total? (r : Reply) : Option Nat :=
  match r.body with
  | .success { data := .paged _ total _ _, .. } => some total
  | _ => none

/-- What `list_users` sends of a row. Nothing when `pydantic` refuses the user. -/
def UserModel.read (emailStr : String → Option String) (u : UserModel) : Option UserRead :=
  UserRead.modelValidate emailStr u.toEntity

theorem UserModel.read_id {emailStr : String → Option String} {u : UserModel} {x : UserRead}
    (h : u.read emailStr = some x) : x.id = u.id := by
  simp only [read, UserRead.modelValidate, Option.bind_eq_bind, Option.bind_eq_some_iff,
    Option.pure_def, Option.some.injEq] at h
  obtain ⟨-, -, -, -, -, -, -, -, rfl⟩ := h
  rfl

/-- The replies show every user who is not deleted once, and nobody else. Pages are full, except
for the last. -/
structure VisitsEveryone (emailStr : String → Option String) (t : Users) (size : Nat)
    (replies : List Reply) : Prop where
  users : ((replies.flatMap Reply.items).map some).Perm ((live t).map (UserModel.read emailStr))
  full : ∀ p a, p + 1 < replies.length → replies[p]? = some a → a.items.length = size
  total : ∀ a ∈ replies, a.total? = some (live t).length

theorem listed_distinct (rank : String → Nat) (t : Users) :
    (listed rank t).Pairwise fun a b => a.id ≠ b.id := by
  have hids : ((listed rank t).map UserModel.id).Nodup :=
    ((listed_perm rank t).map _).nodup_iff.mpr (t.nodup.sublist (List.filter_sublist.map _))
  exact List.pairwise_map.mp hids

theorem listed_first {rank : String → Nat} {t : Users} {u : UserModel}
    (hr : ∀ s, s ≠ u.id → rank u.id < rank s) :
    (listed rank t).Pairwise fun a b => b = u → a.createdAt ≠ u.createdAt := by
  apply ((listed_sorted rank t).and (listed_distinct rank t)).imp
  intro a b hab hb heq
  subst hb
  obtain ⟨hsorted, hne⟩ := hab
  cases hsorted with
  | inl hlt => exact absurd heq (Int.ne_of_gt hlt)
  | inr hle => exact absurd hle.2 (Nat.not_le.mpr (hr a.id hne))

theorem listed_last {rank : String → Nat} {t : Users} {u : UserModel}
    (hr : ∀ s, s ≠ u.id → rank s < rank u.id) :
    (listed rank t).Pairwise fun a b => a = u → b.createdAt ≠ u.createdAt := by
  apply ((listed_sorted rank t).and (listed_distinct rank t)).imp
  intro a b hab ha heq
  subst ha
  obtain ⟨hsorted, hne⟩ := hab
  cases hsorted with
  | inl hlt => exact absurd heq (Int.ne_of_lt hlt)
  | inr hle => exact absurd hle.2 (Nat.not_le.mpr (hr b.id (Ne.symm hne)))

section Replies

variable (upper : String → String) (emailStr : String → Option String) (path : String)
  (handled left : Nat → String)

def replies (s : PageSize) (answers : List (Except Exc Out)) : List Reply :=
  answers.mapIdx fun p r =>
    (Request.listUsers (s.request p)).reply upper emailStr path (handled p) (left p) r

variable {upper emailStr path handled left} {t : Users} {s : PageSize}

theorem replies_map (s : PageSize) (n : Nat) (f : Nat → Except Exc Out) :
    replies upper emailStr path handled left s ((List.range n).map f) = (List.range n).map fun p =>
      (Request.listUsers (s.request p)).reply upper emailStr path (handled p) (left p) (f p) := by
  apply List.ext_getElem
  · simp [replies]
  · intro p _ _
    simp [replies]

theorem mapM_read {l : List UserModel} (h : ∀ u ∈ l, (u.read emailStr).isSome = true) :
    (l.map UserModel.toEntity).mapM (UserRead.modelValidate emailStr) =
      some (l.filterMap (UserModel.read emailStr)) := by
  induction l with
  | nil => rfl
  | cons u l ih =>
    rw [List.forall_mem_cons] at h
    obtain ⟨x, hx⟩ := Option.isSome_iff_exists.mp h.1
    have hx' : UserRead.modelValidate emailStr u.toEntity = some x := hx
    simp [ih h.2, hx, hx']

theorem map_some_filterMap {α β : Type} {f : α → Option β} {l : List α}
    (h : ∀ a ∈ l, (f a).isSome = true) : (l.filterMap f).map some = l.map f := by
  induction l with
  | nil => rfl
  | cons a l ih =>
    rw [List.forall_mem_cons] at h
    obtain ⟨b, hb⟩ := Option.isSome_iff_exists.mp h.1
    simp [hb, ih h.2]

theorem read_page (hv : ∀ u ∈ live t, (u.read emailStr).isSome = true) (size p : Nat)
    (rank : String → Nat) :
    ∀ u ∈ Paged.page size p (listed rank t), (u.read emailStr).isSome = true := fun u hu =>
  hv u ((listed_perm rank t).mem_iff.mp ((Paged.page_sublist size p _).subset hu))

theorem reply_listing (hv : ∀ u ∈ live t, (u.read emailStr).isSome = true) (s : PageSize) (p : Nat)
    (rank : String → Nat) :
    (Request.listUsers (s.request p)).reply upper emailStr path (handled p) (left p)
      (.ok (listing rank t (s.request p))) =
    { statusCode := 200
      body := .success
        { message := "Users retrieved successfully"
          data := .paged ((Paged.page s.size p (listed rank t)).filterMap (UserModel.read emailStr))
            (live t).length (p + 1) s.size
          timestamp := handled p } } := by
  have hdata : (Request.listUsers (s.request p)).data emailStr (listing rank t (s.request p)) =
      some (.paged ((Paged.page s.size p (listed rank t)).filterMap (UserModel.read emailStr))
        (live t).length (p + 1) s.size) := by
    unfold listing Request.data
    rw [show (s.request p).pageSize = s.size from rfl, eval_page]
    simp only [mapM_read (read_page hv _ _ _), Option.map_some]
    rfl
  simp only [Request.reply, Request.message, hdata]
  rfl

theorem flatMap_items (hv : ∀ u ∈ live t, (u.read emailStr).isSome = true) (n : Nat)
    (rank : Nat → String → Nat) :
    (replies upper emailStr path handled left s
      ((List.range n).map fun p => .ok (listing (rank p) t (s.request p)))).flatMap Reply.items =
    ((List.range n).flatMap fun p => Paged.page s.size p (listed (rank p) t)).filterMap
      (UserModel.read emailStr) := by
  rw [replies_map, List.flatMap_map, List.filterMap_flatMap]
  apply List.flatMap_congr
  intro p _
  rw [reply_listing hv]
  rfl

theorem visitsEveryone_of_unsplit
    (hu : Paged.Unsplit UserModel.createdAt s.size (live t))
    (hv : ∀ u ∈ live t, (u.read emailStr).isSome = true) (rank : Nat → String → Nat) :
    VisitsEveryone emailStr t s.size (replies upper emailStr path handled left s
      ((List.range (Paged.pages s.size (live t).length)).map
        fun p => .ok (listing (rank p) t (s.request p)))) where
  users := by
    rw [flatMap_items hv, ← map_some_filterMap hv]
    exact ((Paged.flatMap_pages_perm s.pos (live_nodup t) hu (fun p => listed_perm (rank p) t)
      fun p => listed_descending (rank p) t).filterMap _).map _
  full p a hp ha := by
    rw [replies_map] at hp ha
    rw [List.length_map, List.length_range, Paged.lt_pages s.pos] at hp
    rw [List.getElem?_map, Option.map_eq_some_iff] at ha
    obtain ⟨q, hq, rfl⟩ := ha
    obtain ⟨hlt, rfl⟩ := List.getElem?_eq_some_iff.mp hq
    rw [List.getElem_range, reply_listing hv]
    have hlen : ((Paged.page s.size p (listed (rank p) t)).filterMap
        (UserModel.read emailStr)).length = (Paged.page s.size p (listed (rank p) t)).length := by
      rw [← List.length_map (f := some), map_some_filterMap (read_page hv _ _ _), List.length_map]
    refine hlen.trans (Paged.length_page ?_)
    rw [(listed_perm _ t).length_eq]
    exact Nat.le_of_lt hp
  total a ha := by
    rw [replies_map] at ha
    obtain ⟨p, -, rfl⟩ := List.mem_map.mp ha
    rw [reply_listing hv]
    rfl

theorem VisitsEveryone.valid {size : Nat} {rs : List Reply}
    (h : VisitsEveryone emailStr t size rs) :
    ∀ u ∈ live t, (u.read emailStr).isSome = true := by
  intro u hu
  have hmem : u.read emailStr ∈ (rs.flatMap Reply.items).map some :=
    h.users.mem_iff.mpr (List.mem_map_of_mem hu)
  obtain ⟨x, -, hx⟩ := List.mem_map.mp hmem
  rw [← hx]
  rfl

theorem VisitsEveryone.nodup {size : Nat} {rs : List Reply}
    (h : VisitsEveryone emailStr t size rs) :
    (rs.flatMap Reply.items).Nodup := by
  refine List.Nodup.of_map some (h.users.nodup_iff.mpr ?_)
  have hids : ((live t).map UserModel.id).Nodup := t.nodup.sublist (List.filter_sublist.map _)
  refine (List.nodup_map_iff_inj_on (live_nodup t)).mpr fun a ha b hb hab => ?_
  obtain ⟨x, hx⟩ := Option.isSome_iff_exists.mp (h.valid a ha)
  have hid : a.id = b.id := (UserModel.read_id hx).symm.trans (UserModel.read_id (hab ▸ hx))
  exact (List.nodup_map_iff_inj_on (live_nodup t)).mp hids a ha b hb hid

/-- A user whose ties are split can be made to come twice. -/
theorem not_visitsEveryone (hu : ¬ Paged.Unsplit UserModel.createdAt s.size (live t)) :
    ∃ rank : Nat → String → Nat,
      ¬ VisitsEveryone emailStr t s.size (replies upper emailStr path handled left s
        ((List.range (Paged.pages s.size (live t).length)).map
          fun p => .ok (listing (rank p) t (s.request p)))) := by
  simp only [Paged.Unsplit, not_forall] at hu
  obtain ⟨u, hmem, hsplit⟩ := hu
  let first (id : String) : Nat := if id = u.id then 0 else 1
  let last (id : String) : Nat := if id = u.id then 1 else 0
  let rank (p : Nat) : String → Nat :=
    if p = Paged.ahead UserModel.createdAt (live t) u / s.size then first else last
  refine ⟨rank, fun h => ?_⟩
  have hsome : ∀ u ∈ (List.range (Paged.pages s.size (live t).length)).flatMap
      (fun p => Paged.page s.size p (listed (rank p) t)), (u.read emailStr).isSome = true := by
    intro u hu
    obtain ⟨p, -, hp⟩ := List.mem_flatMap.mp hu
    exact read_page h.valid _ p _ u hp
  have hnd := h.nodup.map (Option.some_injective _)
  rw [flatMap_items h.valid, map_some_filterMap hsome] at hnd
  refine Paged.not_nodup_of_split s.pos (live_nodup t) hmem hsplit
    (fun p => listed_perm (rank p) t) (fun p => listed_descending (rank p) t) ?_ ?_ hnd.of_map
  · apply listed_first
    intro id hid
    simp [rank, first, hid]
  · apply listed_last
    intro id hid
    simp [rank, last, hid, Ne.symm hsplit]

/-- With nobody writing, the replies visit everyone once just when no group of users created at
one time is split between two pages and every user can be sent. -/
theorem pages_visit_everyone_iff [Inhabited χ] (hw : AtRest w) (s : PageSize) :
    (∀ n m log w', (app cfg C).Seq Whenever n w log m w' →
      log.map Prod.fst = tour s (Paged.pages s.size (live w.db.users).length) →
        VisitsEveryone emailStr w.db.users s.size
          (replies upper emailStr path handled left s (log.map Prod.snd))) ↔
    Paged.Unsplit UserModel.createdAt s.size (live w.db.users) ∧
      ∀ u ∈ live w.db.users, (u.read emailStr).isSome = true := by
  constructor
  · intro h
    have hall : ∀ rank : Nat → String → Nat, VisitsEveryone emailStr w.db.users s.size
        (replies upper emailStr path handled left s
          ((List.range (Paged.pages s.size (live w.db.users).length)).map
            fun p => .ok (listing (rank p) w.db.users (s.request p)))) := by
      intro rank
      obtain ⟨w', hseq, -⟩ := hw.exists_tour cfg C s rank 0
        (Paged.pages s.size (live w.db.users).length)
      have hvisits := h _ _ _ _ hseq (by rw [List.map_map]; rfl)
      rw [List.map_map] at hvisits
      exact hvisits
    refine ⟨?_, (hall fun _ _ => 0).valid⟩
    by_contra hu
    obtain ⟨rank, hrank⟩ := not_visitsEveryone hu
    exact hrank (hall rank)
  · rintro ⟨hu, hv⟩ n m log w' hseq hlog
    obtain ⟨-, -, rank, hrank⟩ := hw.tour hseq hlog
    rw [hrank]
    exact visitsEveryone_of_unsplit hu hv rank

end Replies

abbrev sampleReplies (s : PageSize) (log : List (Call × Except Exc Out)) : List Reply :=
  replies id some "/api/v1/users/" (fun _ => "") (fun _ => "") s (log.map Prod.snd)

abbrev onePerPage : PageSize := ⟨1, by decide, by decide⟩

abbrev twoPerPage : PageSize := ⟨2, by decide, by decide⟩

def trio : World (TimedStore Key Json) :=
  let carol := { alice with id := "carol", email := "carol@example.org", username := "carol" }
  { sampleWorld with
    db :=
      { users := ((Keyed.empty.insert alice).insert { bob with createdAt := seconds 1 }).insert
          { carol with createdAt := seconds 2 }
        sessions := .empty } }

theorem pages_visit_everyone_sample :
    Paged.Unsplit UserModel.createdAt 2 (live trio.db.users) ∧
    (∀ n m log w', sampleApp.Seq Whenever n trio log m w' →
      log.map Prod.fst = tour twoPerPage 2 →
        VisitsEveryone some trio.db.users 2 (sampleReplies twoPerPage log)) ∧
    ∃ log w', sampleApp.Seq Whenever 0 trio log 2 w' ∧ log.map Prod.fst = tour twoPerPage 2 ∧
      (sampleReplies twoPerPage log).map (fun r => r.items.map UserRead.id) =
        [["carol", "bob"], ["alice"]] := by
  have hrest : AtRest trio := fun _ => rfl
  have hunsplit : Paged.Unsplit UserModel.createdAt 2 (live trio.db.users) := by decide +kernel
  have hvalid : ∀ u ∈ live trio.db.users, (u.read some).isSome = true := by decide +kernel
  obtain ⟨w', hseq, -⟩ := hrest.exists_tour sampleConfig TimedStore.reliable twoPerPage
    (fun _ _ => 0) 0 2
  exact ⟨hunsplit, (pages_visit_everyone_iff hrest twoPerPage).mpr ⟨hunsplit, hvalid⟩,
    _, w', hseq, by decide +kernel, by decide +kernel⟩

/-- The database returns alice first, and in the other order when it is asked again. -/
def swapped (p : Nat) (id : String) : Nat := if (id = "alice") = (p = 0) then 0 else 1

def anonymous : World (TimedStore Key Json) :=
  { sampleWorld with
    db := { users := Keyed.empty.insert { alice with name := none }, sessions := .empty } }

/-- With one user on a page alice comes twice, and bob does not come at all. A page with a user
who has no name is refused. -/
theorem bob_is_skipped :
    (∃ log w', sampleApp.Seq Whenever 0 twins log 2 w' ∧ log.map Prod.fst = tour onePerPage 2 ∧
      (sampleReplies onePerPage log).map (fun r => r.items.map UserRead.id) =
        [["alice"], ["alice"]] ∧
      ¬ VisitsEveryone some twins.db.users 1 (sampleReplies onePerPage log)) ∧
    ∃ log w', sampleApp.Seq Whenever 0 anonymous log 1 w' ∧
      log.map Prod.fst = tour onePerPage 1 ∧
      (sampleReplies onePerPage log).map Reply.statusCode = [500] ∧
      ¬ VisitsEveryone some anonymous.db.users 1 (sampleReplies onePerPage log) := by
  have htwins : AtRest twins := fun _ => rfl
  have hanonymous : AtRest anonymous := fun _ => rfl
  have hlive : { alice with name := none } ∈ live anonymous.db.users := by decide +kernel
  have hunread : ¬ (UserModel.read some { alice with name := none }).isSome = true := by
    decide +kernel
  obtain ⟨w₁, hseq₁, -⟩ :=
    htwins.exists_tour sampleConfig TimedStore.reliable onePerPage swapped 0 2
  obtain ⟨w₂, hseq₂, -⟩ := hanonymous.exists_tour sampleConfig TimedStore.reliable onePerPage
    swapped 0 1
  refine ⟨⟨_, w₁, hseq₁, by decide +kernel, by decide +kernel, fun h => absurd h.nodup ?_⟩,
    _, w₂, hseq₂, by decide +kernel, by decide +kernel, fun h => hunread (h.valid _ hlive)⟩
  decide +kernel

end AsyncPulse
