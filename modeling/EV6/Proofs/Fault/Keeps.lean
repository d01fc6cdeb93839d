import EV6.Proofs.Fault.Ends

namespace EV6.Step

open Outcome

variable {σ τ ε δ α β γ : Type} {f : σ → γ}

def Keeps (f : σ → γ) (x : Step σ ε α) : Prop :=
  ∀ s, (x s).Ends (fun _ t => f t = f s) (fun _ t => f t = f s) True

theorem keeps_pure (a : α) : Keeps f (pure a : Step σ ε α) := fun _ => rfl

theorem keeps_get : Keeps f (get : Step σ ε σ) := fun _ => rfl

theorem keeps_throw (e : ε) : Keeps f (throw e : Step σ ε α) := fun _ => rfl

theorem keeps_modify {g : σ → σ} (h : ∀ s, f (g s) = f s := by intro s; rfl) :
    Keeps f (modify g : Step σ ε Unit) := h

theorem keeps_modifyGet {g : σ → α × σ} (h : ∀ s, f (g s).2 = f s := by intro s; rfl) :
    Keeps f (modifyGet g : Step σ ε α) := h

theorem keeps_check (x : Except Breach α) : Keeps f (check x : Step σ ε α) := by
  intro s
  cases x with
  | ok a => rfl
  | error b => trivial

theorem keeps_ofExcept (x : Except ε α) : Keeps f (ofExcept x : Step σ ε α) := by
  intro s
  cases x with
  | ok a => rfl
  | error e => rfl

theorem Keeps.bind {x : Step σ ε α} {g : α → Step σ ε β} (hx : Keeps f x)
    (hg : ∀ a, Keeps f (g a)) : Keeps f (x >>= g) := by
  intro s
  refine ends_bind (hx s) fun a t ht => ?_
  exact (hg a t).mono (fun _ _ h => h.trans ht) (fun _ _ h => h.trans ht) id

theorem Keeps.map {x : Step σ ε α} (hx : Keeps f x) (g : γ → τ) : Keeps (fun s => g (f s)) x :=
  fun s => (hx s).mono (fun _ _ h => congrArg g h) (fun _ _ h => congrArg g h) id

theorem Keeps.discard {x : Step σ ε α} (hx : Keeps f x) : Keeps f (discard x) :=
  hx.bind fun _ => keeps_pure ()

theorem Keeps.mapError {x : Step σ ε α} (hx : Keeps f x) (g : ε → δ) :
    Keeps f (x.mapError g) := fun s => ends_mapError (hx s)

theorem keeps_onPart {read : σ → τ} {write : τ → σ → σ} (h : ∀ t s, f (write t s) = f s)
    (x : Step τ ε α) : Keeps f (onPart read write x) := by
  intro s
  refine (ends_onPart (ends_any _)).mono ?_ ?_ id
  · rintro _ _ ⟨t, -, rfl⟩
    exact h t s
  · rintro _ _ ⟨t, -, rfl⟩
    exact h t s

end EV6.Step
