import AsyncPulse.Exceptions
import AsyncPulse.Overtaking
import AsyncPulse.Routes
import AsyncPulse.Saving
set_option autoImplicit false

namespace AsyncPulse
open Effect

namespace Request

end Request

def Exc.statusCode : Exc → Int
  | .app c _ => c.base.2
  | _ => 500

theorem Exc.response_statusCode (upper : String → String) (path handled left : String) (x : Exc) :
    (x.response upper path handled left).statusCode = x.statusCode := by
  cases x with
  | app c m =>
    simp only [response, AppError.response, Exc.statusCode]
    cases c <;> rfl
  | _ => rfl

theorem Exc.response_content (upper : String → String) (path handled left : String) (x : Exc) :
    ∃ m c t, (x.response upper path handled left).content = errorResponse m c t := by
  cases x with
  | app c m =>
    simp only [response, AppError.response, catchStarletteErrors]
    split
    · exact ⟨_, _, _, rfl⟩
    · split
      · exact ⟨_, _, _, rfl⟩
      · exact ⟨_, _, _, rfl⟩
  | _ => exact ⟨_, _, _, rfl⟩

section

variable {cfg : Config} {upper : String → String} {emailStr : String → Option String}
  {path handled left : String} {q : Request}

theorem Exc.statusCode_ge (x : Exc) : 400 ≤ x.statusCode := by
  cases x with
  | app c m => cases c <;> simp [Exc.statusCode, ErrorClass.base]
  | _ => simp [Exc.statusCode]

namespace Request

theorem statusCode_lt (q : Request) : q.statusCode < 400 := by
  cases q <;> simp [statusCode]

theorem reply_flag (r : Except Exc Out) {b : Bool}
    (hb : (q.reply upper emailStr path handled left r).body.flag = some b) :
    b = true ↔ (q.reply upper emailStr path handled left r).statusCode < 400 := by
  have hrefused : ∀ x : Exc, Body.flag (.error (x.response upper path handled left).content) =
      some b → (b = true ↔ (x.response upper path handled left).statusCode < 400) := by
    intro x hx
    obtain ⟨m, c, t, hm⟩ := x.response_content upper path handled left
    rw [hm] at hx
    obtain rfl : false = b := Option.some.inj hx
    have hge := x.statusCode_ge
    rw [Exc.response_statusCode]
    simp only [Bool.false_eq_true, false_iff]
    omega
  cases r with
  | error x => exact hrefused x hb
  | ok o =>
    cases hm : q.message with
    | none => simp [reply, hm, Body.flag] at hb
    | some m =>
      cases hd : q.data emailStr o with
      | none =>
        simp only [reply, hm, hd] at hb ⊢
        exact hrefused .validationError hb
      | some d =>
        have hlt := q.statusCode_lt
        simp only [reply, hm, hd, Body.flag, Option.some.injEq] at hb ⊢
        simp [← hb, hlt]

end Request

end

def Call.Fits : Call → Out → Prop
  | .listUsers _ _, o => ∃ users total, o = .page users total
  | .authenticate _ _ _ _, o => ∃ r, o = .login r
  | .refreshToken _ _, o | .refreshRoute _ _ _, o => ∃ p, o = .pair p
  | .deleteUser _, o | .logout _, o | .logoutAll _, o | .logoutRoute _, o | .logoutAllRoute _, o
  | .deleteUserRoute _ _, o => o = .done
  | _, o => ∃ u, o = .user u

def Out.users : Out → List User
  | .user u => [u]
  | .page users _ => users
  | _ => []

section

variable {cfg : Config} {α : Type}

theorem fits_of_body {k : Call} {p : M α} {f : α → Out} (hk : k.body cfg = f <$> p)
    (hf : ∀ a, k.Fits (f a)) :
    (records cfg).wp (fun _ => True) (k.body cfg) (fun r _ => ∀ o, r = .ok o → k.Fits o) [] := by
  rw [hk]
  refine (Trace.wp_map _ _ _ _ _).mpr (Trace.wp_of_forall _ (fun _ => trivial) ?_ _ _)
  intro r _ o ho
  obtain ⟨a, -, rfl⟩ := map_eq_ok ho
  exact hf a

theorem fits_body (k : Call) :
    (records cfg).wp (fun _ => True) (k.body cfg) (fun r _ => ∀ o, r = .ok o → k.Fits o) [] := by
  cases k with
  | listUsers offset limit =>
    have hbody : (Call.listUsers offset limit).body cfg =
        (fun x : List User × Nat => Out.page x.1 x.2) <$> listRows offset limit := by
      rw [map_eq_pure_bind]
      rfl
    exact fits_of_body hbody fun x => ⟨x.1, x.2, rfl⟩
  | createUser p => exact fits_of_body rfl fun u => ⟨u, rfl⟩
  | getUser u => exact fits_of_body rfl fun u => ⟨u, rfl⟩
  | updateUser u p => exact fits_of_body rfl fun u => ⟨u, rfl⟩
  | setPassword u pw => exact fits_of_body rfl fun u => ⟨u, rfl⟩
  | changeStatus u st => exact fits_of_body rfl fun u => ⟨u, rfl⟩
  | getCurrentUser t => exact fits_of_body rfl fun u => ⟨u, rfl⟩
  | updateUserRoute t u p => exact fits_of_body rfl fun u => ⟨u, rfl⟩
  | authenticate e pw d ip => exact fits_of_body rfl fun r => ⟨r, rfl⟩
  | refreshToken t ip => exact fits_of_body rfl fun p => ⟨p, rfl⟩
  | refreshRoute b c ip => exact fits_of_body rfl fun p => ⟨p, rfl⟩
  | deleteUser u => exact fits_of_body rfl fun _ => rfl
  | logout s => exact fits_of_body rfl fun _ => rfl
  | logoutAll u => exact fits_of_body rfl fun _ => rfl
  | logoutRoute t => exact fits_of_body rfl fun _ => rfl
  | logoutAllRoute t => exact fits_of_body rfl fun _ => rfl
  | deleteUserRoute t u => exact fits_of_body rfl fun _ => rfl

theorem Reachable.fits {γ χ : Type} {C : MayCache Key Json γ χ} {s : State γ}
    (hr : Reachable cfg C s) {i : Nat} {k : Call} {o : Out} (hk : s.script i = some k)
    (hi : s.answer i = some (.ok o)) : k.Fits o := by
  have hprog : ∀ k : Call, (records cfg).wp (fun _ => True) (k.prog cfg)
      (fun r _ => ∀ o, r = .ok o → k.Fits o) [] := by
    intro k
    refine (Trace.wp_ensure _ _ _ _ _).mpr (Trace.wp_mono _ (fits_body k) fun r h hf => ?_)
    exact fun _ _ => ⟨trivial, hf⟩
  exact hr.leaves hprog hk hi o rfl

end

/-- Every statement on the record is followed by a commit. -/
def Saved (h : List Act) : Prop :=
  ∀ l a l', h = l ++ a :: l' → a.writes = true → .committed ∈ l'

section

variable {cfg : Config} {emailStr : String → Option String} {k : Call} {q : Request} {h : List Act}

theorem Outcome.saved {o : Out} (ho : Outcome cfg k (.ok o) h) : Saved h := by
  intro l a l' hh ha
  have hapart : ∀ c, (marks cfg).wrote c → ¬ (marks cfg).committed c := by
    rintro c hw ⟨⟩
    exact Bool.false_ne_true hw
  obtain ⟨c, hc, rfl⟩ := Works.Marks.Outcome.followed ho hapart hh ha
  exact hc

theorem Outcome.uncommitted {x : Exc} (ho : Outcome cfg k (.error x) h) :
    .committed ∉ h ∨ k.Late x := by
  cases ho with
  | unsaved hc _ => exact .inl fun hm => hc _ hm rfl
  | saved _ _ _ _ _ _ _ hS => exact .inr (hS x rfl)

end

section Runs

variable {cfg : Config} {γ χ : Type} {C : MayCache Key Json γ χ} {w : World γ} {s : State γ}
  {ls : List (Label Call (Choice χ))}

end Runs

end AsyncPulse
