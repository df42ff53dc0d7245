import Bracket.Eval.RuntimeError

/-!
# Bracket.Eval.Outcome

How a computation on a state ends: with a result, with an error, or not within the rounds it was
given. An error keeps the state reached when it arose.
-/

namespace Bracket

inductive Outcome (ε σ α : Type) where
  | done (result : α) (state : σ)
  | failed (error : ε) (state : σ)
  | unfinished

namespace Outcome

variable {ε σ α β : Type}

/-- Goes on from a result; an error or an unfinished computation stays what it is. -/
def andThen (o : Outcome ε σ α) (f : α → σ → Outcome ε σ β) : Outcome ε σ β :=
  match o with
  | .done a s => f a s
  | .failed e s => .failed e s
  | .unfinished => .unfinished

/-- Changes the state however the computation ended. -/
def afterwards (o : Outcome ε σ α) (f : σ → σ) : Outcome ε σ α :=
  match o with
  | .done a s => .done a (f s)
  | .failed e s => .failed e (f s)
  | .unfinished => .unfinished

def onFailure (o : Outcome ε σ α) (f : σ → σ) : Outcome ε σ α :=
  match o with
  | .done a s => .done a s
  | .failed e s => .failed e (f s)
  | .unfinished => .unfinished

end Outcome

def Eval (σ α : Type) := σ → Outcome RuntimeError σ α

namespace Eval

variable {σ α β : Type}

def fail (e : RuntimeError) : Eval σ α := fun s => .failed e s

def modify (f : σ → σ) : Eval σ Unit := fun s => .done () (f s)

def ofExcept : Except RuntimeError α → Eval σ α
  | .ok a => fun s => .done a s
  | .error e => fail e

instance : Monad (Eval σ) where
  pure a := fun s => .done a s
  bind x f := fun s => (x s).andThen fun a => f a

instance : LawfulMonad (Eval σ) := LawfulMonad.mk' (Eval σ)
  (by
    intro α x
    funext s
    show Outcome.andThen (x s) _ = x s
    cases x s <;> rfl)
  (by intros; rfl)
  (by
    intro α β γ x f g
    funext s
    show Outcome.andThen (Outcome.andThen (x s) _) _ = Outcome.andThen (x s) _
    cases x s <;> rfl)

theorem bind_apply (x : Eval σ α) (f : α → Eval σ β) (s : σ) :
    (x >>= f) s = (x s).andThen fun a => f a := rfl

theorem fail_bind (e : RuntimeError) (f : α → Eval σ β) :
    (fail e : Eval σ α) >>= f = fail e := rfl

theorem some_injective {x y : Eval σ α}
    (h : (x >>= fun a => pure (some a)) = y >>= fun a => pure (some a)) : x = y := by
  funext s
  have hs := congrFun h s
  rw [bind_apply, bind_apply] at hs
  cases hx : x s <;> cases hy : y s <;> rw [hx, hy] at hs <;> cases hs <;> rfl

end Eval

end Bracket
