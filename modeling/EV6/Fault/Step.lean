import EV6.Fault.Breach
/-!
Steps of a unit that has a state. A step answers; or it fails, and the unit is left in the state
that the step reached; or it breaks a contract, after which there is no state.
-/

namespace EV6

inductive Outcome (σ ε α : Type) where
  | done (answer : α) (state : σ)
  | failed (error : ε) (state : σ)
  | broken (breach : Breach)

namespace Outcome

variable {σ ε α : Type}

def state? : Outcome σ ε α → Option σ
  | done _ s => some s
  | failed _ s => some s
  | broken _ => none

end Outcome

def Step (σ ε α : Type) : Type := σ → Outcome σ ε α

namespace Step

variable {σ τ ε δ α β : Type}

def answer (a : α) : Step σ ε α := fun s => .done a s

def andThen (x : Step σ ε α) (f : α → Step σ ε β) : Step σ ε β := fun s =>
  match x s with
  | .done a s => f a s
  | .failed e s => .failed e s
  | .broken b => .broken b

instance : Monad (Step σ ε) where
  pure := answer
  bind := andThen

@[simp] theorem pure_apply (a : α) (s : σ) : (pure a : Step σ ε α) s = .done a s := rfl

theorem bind_apply (x : Step σ ε α) (f : α → Step σ ε β) (s : σ) :
    (x >>= f) s =
      match x s with
      | .done a s => f a s
      | .failed e s => .failed e s
      | .broken b => .broken b := rfl

instance : MonadStateOf σ (Step σ ε) where
  get := fun s => .done s s
  set := fun s _ => .done () s
  modifyGet f := fun s => .done (f s).1 (f s).2

@[simp] theorem get_apply (s : σ) : (get : Step σ ε σ) s = .done s s := rfl

@[simp] theorem set_apply (s t : σ) : (set s : Step σ ε Unit) t = .done () s := rfl

@[simp] theorem modify_apply (f : σ → σ) (s : σ) :
    (modify f : Step σ ε Unit) s = .done () (f s) := rfl

@[simp] theorem modifyGet_apply (f : σ → α × σ) (s : σ) :
    (modifyGet f : Step σ ε α) s = .done (f s).1 (f s).2 := rfl

instance : MonadExceptOf ε (Step σ ε) where
  throw e := fun s => .failed e s
  tryCatch x handler := fun s =>
    match x s with
    | .failed e s => handler e s
    | other => other

theorem tryCatch_apply (x : Step σ ε α) (handler : ε → Step σ ε α) (s : σ) :
    (tryCatch x handler : Step σ ε α) s =
      match x s with
      | .failed e s => handler e s
      | other => other := rfl

def check (x : Except Breach α) : Step σ ε α := fun s =>
  match x with
  | .ok a => .done a s
  | .error b => .broken b

def ofExcept (x : Except ε α) : Step σ ε α := fun s =>
  match x with
  | .ok a => .done a s
  | .error e => .failed e s

def mapError (f : ε → δ) (x : Step σ ε α) : Step σ δ α := fun s =>
  match x s with
  | .done a s => .done a s
  | .failed e s => .failed (f e) s
  | .broken b => .broken b

def onPart (read : σ → τ) (write : τ → σ → σ) (x : Step τ ε α) : Step σ ε α := fun s =>
  match x (read s) with
  | .done a t => .done a (write t s)
  | .failed e t => .failed e (write t s)
  | .broken b => .broken b

end Step

end EV6
