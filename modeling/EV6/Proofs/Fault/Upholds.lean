import EV6.Proofs.Fault.Ends
/-!
Steps that preserve an invariant of the state, however they end, and give answers of some kind; they
break a contract only if `B`.
-/

namespace EV6.Step

open Outcome

variable {σ τ ε δ α β : Type} {I : σ → Prop} {J : τ → Prop} {P : α → Prop} {Q : β → Prop} {B : Prop}

def Upholds (I : σ → Prop) (B : Prop) (P : α → Prop) (x : Step σ ε α) : Prop :=
  ∀ s, I s → (x s).Ends (fun a t => I t ∧ P a) (fun _ t => I t) B

theorem upholds_pure {a : α} (h : P a) : Upholds I B P (pure a : Step σ ε α) := fun _ hs => ⟨hs, h⟩

theorem upholds_throw (e : ε) : Upholds I B P (throw e : Step σ ε α) := fun _ hs => hs

theorem upholds_get : Upholds I B I (get : Step σ ε σ) := fun _ hs => ⟨hs, hs⟩

theorem upholds_set {t : σ} (h : I t) : Upholds I B (fun _ => True) (set t : Step σ ε Unit) :=
  fun _ _ => ⟨h, trivial⟩

theorem upholds_any (x : Step σ ε α) : Upholds (fun _ => True) True (fun _ => True) x := fun s _ =>
  (ends_any (x s)).mono (fun _ _ _ => ⟨trivial, trivial⟩) (fun _ _ _ => trivial) id

theorem upholds_modify {g : σ → σ} (h : ∀ s, I s → I (g s)) :
    Upholds I B (fun _ => True) (modify g : Step σ ε Unit) := fun s hs => ⟨h s hs, trivial⟩

theorem upholds_modifyGet {g : σ → α × σ} (h : ∀ s, I s → I (g s).2 ∧ P (g s).1) :
    Upholds I B P (modifyGet g : Step σ ε α) := h

theorem upholds_ofExcept (x : Except ε α) :
    Upholds I B (fun _ => True) (ofExcept x : Step σ ε α) := by
  intro s hs
  cases x with
  | ok a => exact ⟨hs, trivial⟩
  | error e => exact hs

theorem upholds_check {x : Except Breach α} (h : ∀ a, x = .ok a → P a) (hB : ∀ b, x = .error b → B) :
    Upholds I B P (check x : Step σ ε α) := by
  intro s hs
  cases x with
  | ok a => exact ⟨hs, h a rfl⟩
  | error b => exact hB b rfl

theorem upholds_check_any (x : Except Breach α) :
    Upholds I True (fun _ => True) (check x : Step σ ε α) :=
  upholds_check (fun _ _ => trivial) fun _ _ => trivial

theorem upholds_unless {p : Prop} [Decidable p] (b : Breach) {x : Step σ ε α}
    (hx : Upholds I True P x) :
    Upholds I True P (if p then check (.error b) >>= fun (_ : Unit) => x else x) := by
  split
  · exact fun _ _ => trivial
  · exact hx

theorem Upholds.bind {x : Step σ ε α} {f : α → Step σ ε β} (hx : Upholds I B P x)
    (hf : ∀ a, P a → Upholds I B Q (f a)) : Upholds I B Q (x >>= f) := fun s hs =>
  ends_bind (hx s hs) fun a t ht => hf a ht.2 t ht.1

theorem Upholds.tryCatch {x : Step σ ε α} {handler : ε → Step σ ε α} (hx : Upholds I B P x)
    (hf : ∀ e, Upholds I B P (handler e)) : Upholds I B P (tryCatch x handler) := fun s hs =>
  ends_tryCatch (hx s hs) fun e t ht => hf e t ht

theorem Upholds.mapError {x : Step σ ε α} (hx : Upholds I B P x) (g : ε → δ) :
    Upholds I B P (x.mapError g) := fun s hs => ends_mapError (hx s hs)

theorem Upholds.discard {x : Step σ ε α} (hx : Upholds I B P x) :
    Upholds I B (fun _ => True) (discard x) := hx.bind fun _ _ => upholds_pure trivial

theorem Upholds.onPart {read : σ → τ} {write : τ → σ → σ} {x : Step τ ε α}
    (hread : ∀ s, I s → J (read s)) (hwrite : ∀ t s, I s → J t → I (write t s))
    (hx : Upholds J B P x) : Upholds I B P (onPart read write x) := by
  intro s hs
  refine (ends_onPart (hx (read s) (hread s hs))).mono ?_ ?_ id
  · rintro a _ ⟨t, ⟨ht, ha⟩, rfl⟩
    exact ⟨hwrite t s hs ht, ha⟩
  · rintro _ _ ⟨t, ht, rfl⟩
    exact hwrite t s hs ht

theorem Upholds.not_broken {x : Step σ ε α} (hx : Upholds I False P x) {s : σ} (hs : I s)
    (b : Breach) : x s ≠ .broken b := (hx s hs).not_broken id b

theorem Upholds.of_state {x : Step σ ε α} (hx : Upholds I B P x) {s t : σ} (hs : I s)
    (ht : (x s).state? = some t) : I t := by
  rcases (hx s hs).of_state ht with ⟨_, h, -⟩ | ⟨_, h⟩ <;> exact h

end EV6.Step
