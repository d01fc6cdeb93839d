import EV6.Proofs.Core.Lock
import EV6.Proofs.Core.Stable

namespace EV6.Core

variable {π γ : Type} {f : Core π → γ}

theorem stable_of_same (k : γ) (statistics : ∀ c statistics, f { c with statistics } = f c)
    (mbox : ∀ c mbox, f { c with mbox } = f c)
    (translation : ∀ c translation, f { c with translation } = f c)
    (lock : ∀ c lock, f { c with lock } = f c)
    (latch : ∀ c fault opcode write, f { c with iprs := c.iprs.latch fault opcode write } = f c)
    (tick : ∀ c cycles, f { c with iprs := c.iprs.tick cycles } = f c)
    (flag : ∀ c interruptFlag, f { c with interruptFlag } = f c := by intros; rfl) :
    Stable fun c => f c = k := by
  have count (c : Core π) (g : Statistics → Statistics) : f (c.count g) = f c := statistics c _
  constructor
  case mbox => exact fun m hc _ => (mbox _ m).trans hc
  case translation => exact fun t hc => (translation _ t).trans hc
  case lock => exact fun l hc => (lock _ l).trans hc
  case flag => exact fun b hc => (flag _ b).trans hc
  case latch => exact fun fault opcode write hc => (latch _ fault opcode write).trans hc
  case tick => exact fun cycles hc => (tick _ cycles).trans hc
  case count => exact fun g _ hc => (count _ g).trans hc
  case load =>
    exact fun _ hc =>
      (countAccess_same _ _ count).trans ((countWhen_same _ _ _ count).trans ((count _ _).trans hc))
  case store => exact fun _ hc => (countAccess_same _ _ count).trans ((count _ _).trans hc)
  case fetch => exact fun _ hc => (countFetch_same _ _ _ count).trans hc

structure Apart (f : Core π → γ) : Prop where
  mbox : ∀ c mbox, f { c with mbox } = f c := by intros; rfl
  iprs : ∀ c iprs, f { c with iprs } = f c := by intros; rfl
  translation : ∀ c translation, f { c with translation } = f c := by intros; rfl
  lock : ∀ c lock, f { c with lock } = f c := by intros; rfl
  statistics : ∀ c statistics, f { c with statistics } = f c := by intros; rfl

theorem Apart.stable (hf : Apart f) (k : γ)
    (flag : ∀ c interruptFlag, f { c with interruptFlag } = f c := by intros; rfl) :
    Stable fun c => f c = k :=
  stable_of_same k hf.statistics hf.mbox hf.translation hf.lock (fun c _ _ _ => hf.iprs c _)
    (fun c _ => hf.iprs c _) flag

end EV6.Core
