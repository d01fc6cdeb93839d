import EV6.Fault.Step
/-!
What a step ends in. `Ends Q E B` holds of an outcome whose answer and state satisfy `Q`, whose
failure and state satisfy `E`, and which is a breach only if `B`.
-/

namespace EV6

namespace Outcome

variable {σ τ ε δ α β : Type} {Q Q' : α → σ → Prop} {E E' : ε → σ → Prop} {B B' : Prop}
  {o : Outcome σ ε α}

def Ends (Q : α → σ → Prop) (E : ε → σ → Prop) (B : Prop) : Outcome σ ε α → Prop
  | done a s => Q a s
  | failed e s => E e s
  | broken _ => B

theorem Ends.mono (h : o.Ends Q E B) (hQ : ∀ a s, Q a s → Q' a s) (hE : ∀ e s, E e s → E' e s)
    (hB : B → B') : o.Ends Q' E' B' := by
  cases o with
  | done a s => exact hQ a s h
  | failed e s => exact hE e s h
  | broken b => exact hB h

theorem Ends.and (h : o.Ends Q E B) (h' : o.Ends Q' E' B') :
    o.Ends (fun a s => Q a s ∧ Q' a s) (fun e s => E e s ∧ E' e s) (B ∧ B') := by
  cases o <;> exact ⟨h, h'⟩

theorem ends_any (o : Outcome σ ε α) : o.Ends (fun _ _ => True) (fun _ _ => True) True := by
  cases o <;> trivial

theorem ends_self (o : Outcome σ ε α) :
    o.Ends (fun a s => o = done a s) (fun e s => o = failed e s) (∃ b, o = broken b) := by
  cases o with
  | done a s => rfl
  | failed e s => rfl
  | broken b => exact ⟨b, rfl⟩

theorem Ends.with_done (h : o.Ends Q E B) : o.Ends (fun a s => o = done a s ∧ Q a s) E B := by
  cases o with
  | done a s => exact ⟨rfl, h⟩
  | failed e s => exact h
  | broken b => exact h

theorem Ends.of_state (h : o.Ends Q E B) {s : σ} (hs : o.state? = some s) :
    (∃ a, Q a s) ∨ ∃ e, E e s := by
  cases o with
  | done a t =>
    cases hs
    exact .inl ⟨a, h⟩
  | failed e t =>
    cases hs
    exact .inr ⟨e, h⟩
  | broken b => cases hs

theorem Ends.not_broken (h : o.Ends Q E B) (hB : ¬B) (b : Breach) : o ≠ broken b := by
  rintro rfl
  exact hB h

theorem Ends.of_sure (h : o.Ends Q (fun _ _ => False) B) : o.Ends Q E B :=
  h.mono (fun _ _ hq => hq) (fun _ _ he => he.elim) id

theorem Ends.sure (h : o.Ends Q E B) (hE : ∀ e s, ¬E e s) (hB : ¬B) :
    o.Ends Q (fun _ _ => False) False :=
  h.mono (fun _ _ hq => hq) hE hB

theorem Ends.exists_done (h : o.Ends Q (fun _ _ => False) False) :
    ∃ a s, o = done a s ∧ Q a s := by
  cases o with
  | done a s => exact ⟨a, s, rfl, h⟩
  | failed e s => exact h.elim
  | broken b => exact h.elim

end Outcome

namespace Step

open Outcome

variable {σ τ ε δ α β : Type} {Q : β → σ → Prop} {E : ε → σ → Prop} {B : Prop} {s : σ}

theorem ends_bind {P : α → σ → Prop} {x : Step σ ε α} {f : α → Step σ ε β}
    (hx : (x s).Ends P E B) (hf : ∀ a t, P a t → (f a t).Ends Q E B) :
    ((x >>= f) s).Ends Q E B := by
  rw [bind_apply]
  cases h : x s with
  | done a t =>
    rw [h] at hx
    exact hf a t hx
  | failed e t =>
    rw [h] at hx
    exact hx
  | broken b =>
    rw [h] at hx
    exact hx

theorem bind_done {x : Step σ ε α} {f : α → Step σ ε β} {a : α} {t : σ} (h : x s = .done a t) :
    (x >>= f) s = f a t := by
  rw [bind_apply, h]

theorem bind_failed {x : Step σ ε α} {f : α → Step σ ε β} {e : ε} {t : σ} (h : x s = .failed e t) :
    (x >>= f) s = .failed e t := by
  rw [bind_apply, h]

theorem bind_eq_done {x : Step σ ε α} {f : α → Step σ ε β} {b : β} {u : σ}
    (h : (x >>= f) s = .done b u) : ∃ a t, x s = .done a t ∧ f a t = .done b u := by
  rw [bind_apply] at h
  cases hx : x s with
  | done a t =>
    rw [hx] at h
    exact ⟨a, t, rfl, h⟩
  | failed e t =>
    rw [hx] at h
    cases h
  | broken b =>
    rw [hx] at h
    cases h

theorem ends_onPart {P : β → τ → Prop} {F : ε → τ → Prop} {read : σ → τ} {write : τ → σ → σ}
    {x : Step τ ε β} (hx : (x (read s)).Ends P F B) :
    (onPart read write x s).Ends (fun a s' => ∃ t, P a t ∧ s' = write t s)
      (fun e s' => ∃ t, F e t ∧ s' = write t s) B := by
  unfold onPart
  cases h : x (read s) with
  | done a t =>
    rw [h] at hx
    exact ⟨t, hx, rfl⟩
  | failed e t =>
    rw [h] at hx
    exact ⟨t, hx, rfl⟩
  | broken b =>
    rw [h] at hx
    exact hx

theorem ends_tryCatch {F : ε → σ → Prop} {x : Step σ ε β} {handler : ε → Step σ ε β}
    (hx : (x s).Ends Q F B) (hf : ∀ e t, F e t → (handler e t).Ends Q E B) :
    ((tryCatch x handler : Step σ ε β) s).Ends Q E B := by
  rw [tryCatch_apply]
  cases h : x s with
  | done a t =>
    rw [h] at hx
    exact hx
  | failed e t =>
    rw [h] at hx
    exact hf e t hx
  | broken b =>
    rw [h] at hx
    exact hx

theorem ends_mapError {F : δ → σ → Prop} {g : ε → δ} {x : Step σ ε β}
    (hx : (x s).Ends Q (fun e => F (g e)) B) : (mapError g x s).Ends Q F B := by
  unfold mapError
  cases h : x s with
  | done a t =>
    rw [h] at hx
    exact hx
  | failed e t =>
    rw [h] at hx
    exact hx
  | broken b =>
    rw [h] at hx
    exact hx

theorem onPart_done {read : σ → τ} {write : τ → σ → σ} {x : Step τ ε β} {b : β} {t : τ}
    (h : x (read s) = .done b t) : onPart read write x s = .done b (write t s) := by
  unfold onPart
  rw [h]

theorem state_onPart (read : σ → τ) (write : τ → σ → σ) (x : Step τ ε β) (s : σ) :
    (onPart read write x s).state? = (x (read s)).state?.map (write · s) := by
  unfold onPart
  cases x (read s) <;> rfl

@[simp] theorem check_ok (a : α) : (check (.ok a) : Step σ ε α) s = .done a s := rfl

theorem ends_check (x : Except Breach α) :
    (check x s : Outcome σ ε α).Ends (fun _ _ => True) (fun _ _ => False) True := by
  cases x <;> trivial

@[simp] theorem check_error (b : Breach) : (check (.error b) : Step σ ε α) s = .broken b := rfl

end Step

end EV6
