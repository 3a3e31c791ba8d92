import Mathlib.Logic.Basic
set_option autoImplicit false

namespace Effect

/-- A program over a signature `E` of effects. It returns or raises, or it performs one
effect and continues with the outcome, which may itself be an exception. -/
inductive Prog (E : Type → Type) (ε α : Type) : Type 1 where
  | ret : Except ε α → Prog E ε α
  | op {β : Type} : E β → (Except ε β → Prog E ε α) → Prog E ε α

namespace Prog

variable {E : Type → Type} {ε α β γ : Type}

protected def bind : Prog E ε α → (α → Prog E ε β) → Prog E ε β
  | .ret (.ok a), f => f a
  | .ret (.error e), _ => .ret (.error e)
  | .op e k, f => .op e fun r => (k r).bind f

protected def tryCatch : Prog E ε α → (ε → Prog E ε α) → Prog E ε α
  | .ret (.ok a), _ => .ret (.ok a)
  | .ret (.error e), h => h e
  | .op e k, h => .op e fun r => (k r).tryCatch h

instance : Monad (Prog E ε) where
  pure a := .ret (.ok a)
  bind := Prog.bind

instance : MonadExcept ε (Prog E ε) where
  throw e := .ret (.error e)
  tryCatch := Prog.tryCatch

def perform (e : E α) : Prog E ε α := .op e .ret

/-- `if c: raise e`, as a statement of its own. -/
def raiseIf (c : Prop) [Decidable c] (e : ε) : Prog E ε Unit :=
  if c then throw e else pure ()

def suppress (p : Prog E ε Unit) : Prog E ε Unit :=
  tryCatch p fun _ => pure ()

/-- Runs `cleanup` once `p` has returned or raised, and passes the outcome on. -/
def ensure : Prog E ε α → E Unit → Prog E ε α
  | .ret r, cleanup => .op cleanup fun _ => .ret r
  | .op e k, cleanup => .op e fun r => (k r).ensure cleanup

@[simp] theorem ret_ok_bind (a : α) (f : α → Prog E ε β) :
    (Prog.ret (.ok a) >>= f) = f a := rfl

@[simp] theorem ret_error_bind (e : ε) (f : α → Prog E ε β) :
    (Prog.ret (.error e) >>= f) = .ret (.error e) := rfl

@[simp] theorem op_bind (e : E γ) (k : Except ε γ → Prog E ε α) (f : α → Prog E ε β) :
    (Prog.op e k >>= f) = .op e fun r => k r >>= f := rfl

theorem pure_eq (a : α) : (pure a : Prog E ε α) = .ret (.ok a) := rfl

protected theorem bind_pure (p : Prog E ε α) : p >>= pure = p := by
  induction p with
  | ret r => cases r <;> rfl
  | op e k ih =>
    rw [op_bind]
    congr 1
    funext r
    exact ih r

protected theorem bind_assoc (p : Prog E ε α) (f : α → Prog E ε β) (g : β → Prog E ε γ) :
    (p >>= f) >>= g = p >>= fun a => f a >>= g := by
  induction p with
  | ret r => cases r <;> rfl
  | op e k ih =>
    simp only [op_bind]
    congr 1
    funext r
    exact ih r

instance : LawfulMonad (Prog E ε) :=
  LawfulMonad.mk' _ Prog.bind_pure (fun _ _ => rfl) Prog.bind_assoc

end Prog

end Effect
