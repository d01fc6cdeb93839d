import EV6.Core.Basic
import EV6.Proofs.Word.Line

namespace EV6

theorem isPowerOfTwo_iff {n : Nat} : isPowerOfTwo n = true ↔ ∃ k, n = 1 <<< k := by
  simp only [isPowerOfTwo, Bool.and_eq_true, bne_iff_ne, beq_iff_eq]
  constructor
  · rintro ⟨_, h⟩
    exact ⟨_, h⟩
  · rintro ⟨k, rfl⟩
    rw [Nat.one_shiftLeft, Nat.log2_two_pow, Nat.one_shiftLeft]
    exact ⟨Nat.ne_of_gt (Nat.two_pow_pos k), rfl⟩

namespace ConfigFailure

variable {α β : Type} {a : α}

theorem bind_eq_ok_iff {x : Except ConfigFailure β} {f : β → Except ConfigFailure α} :
    (x >>= f) = .ok a ↔ ∃ b, x = .ok b ∧ f b = .ok a := by
  cases x <;> simp [bind, Except.bind]

theorem bind_eq_ok {x : Except ConfigFailure β} {f : β → Except ConfigFailure α}
    (h : (x >>= f) = .ok a) : ∃ b, x = .ok b ∧ f b = .ok a :=
  bind_eq_ok_iff.mp h

theorem require_eq_ok_iff {ok : Bool} {error : ConfigError} {u : Unit} :
    require ok error = .ok u ↔ ok = true := by
  cases ok <;> simp [require]

theorem require_then {ok : Bool} {error : ConfigError} {f : Unit → Except ConfigFailure α}
    (h : (require ok error >>= f) = .ok a) : ok = true ∧ f () = .ok a := by
  obtain ⟨_, hok, h⟩ := bind_eq_ok h
  exact ⟨require_eq_ok_iff.mp hok, h⟩

@[simp] theorem ofBreach_ok (a : α) : ofBreach (.ok a) = .ok a := rfl

@[simp] theorem ofBreach_error (b : Breach) :
    ofBreach (.error b : Except Breach α) = .error (.breach b) := rfl

theorem ofBreach_eq_ok_iff {x : Except Breach α} : ofBreach x = .ok a ↔ x = .ok a := by
  cases x <;> simp

theorem ofBreach_then {x : Except Breach β} {f : β → Except ConfigFailure α}
    (h : (ofBreach x >>= f) = .ok a) : ∃ b, x = .ok b ∧ f b = .ok a := by
  obtain ⟨b, hb, h⟩ := bind_eq_ok h
  exact ⟨b, ofBreach_eq_ok_iff.mp hb, h⟩

end ConfigFailure

open ConfigFailure

namespace CacheConfig

structure Valid (c : CacheConfig) : Prop where
  lineSize : LineSize c.lineBytes
  ways_pos : 0 < c.ways
  sets_pos : 0 < c.sets

theorem valid_of_validate {c : CacheConfig} {name : String} (h : c.validate name = .ok ()) :
    c.Valid := by
  obtain ⟨hline, h⟩ := require_then h
  obtain ⟨hways, h⟩ := require_then h
  obtain ⟨wayBytes, hmul, h⟩ := ofBreach_then h
  obtain ⟨rest, hrem, h⟩ := ofBreach_then h
  obtain ⟨hsize, h⟩ := require_then h
  have hsets := require_eq_ok_iff.mp h
  simp only [Bool.and_eq_true, decide_eq_true_eq, bne_iff_ne, isPowerOfTwo_iff] at hline hways hsets
  obtain ⟨⟨k, hk⟩, h8⟩ := hline
  obtain ⟨j, hj⟩ := hsets
  have hways : 0 < c.ways := Nat.pos_of_ne_zero hways
  refine ⟨⟨h8, k, ?_, hk⟩, hways, ?_⟩
  · obtain ⟨rfl, hlt⟩ := Machine.mul_eq_ok_iff.mp hmul
    have hle : c.lineBytes ≤ c.lineBytes * c.ways := Nat.le_mul_of_pos_right _ hways
    have hlt := Nat.lt_of_le_of_lt hle hlt
    rw [hk, Nat.one_shiftLeft] at hlt
    exact (Nat.pow_lt_pow_iff_right Nat.one_lt_two).mp (show 2 ^ k < 2 ^ 64 from hlt)
  · rw [hj, Nat.one_shiftLeft]
    exact Nat.two_pow_pos j

end CacheConfig

namespace Config

structure Valid (c : Config) : Prop where
  icache : c.cache.icache.Valid
  dcache : c.cache.dcache.Valid
  bcache : c.cache.bcache.Valid
  icacheLine : c.cache.icache.lineBytes = c.cache.dcache.lineBytes
  bcacheLine : c.cache.bcache.lineBytes = c.cache.dcache.lineBytes

structure Uniform (c : Config) (lineBytes : Nat) : Prop where
  icache : c.cache.icache.lineBytes = lineBytes
  dcache : c.cache.dcache.lineBytes = lineBytes
  bcache : c.cache.bcache.lineBytes = lineBytes

theorem Valid.uniform {c : Config} (h : c.Valid) : c.Uniform c.cache.dcache.lineBytes :=
  ⟨h.icacheLine, rfl, h.bcacheLine⟩

theorem valid_of_validate {c : Config} (h : c.validate = .ok ()) : c.Valid := by
  obtain ⟨_, hicache, h⟩ := bind_eq_ok h
  obtain ⟨_, hdcache, h⟩ := bind_eq_ok h
  obtain ⟨_, hbcache, h⟩ := bind_eq_ok h
  obtain ⟨hiline, h⟩ := require_then h
  obtain ⟨hbline, _⟩ := require_then h
  exact ⟨CacheConfig.valid_of_validate hicache, CacheConfig.valid_of_validate hdcache,
    CacheConfig.valid_of_validate hbcache, beq_iff_eq.mp hiline, beq_iff_eq.mp hbline⟩

end Config

namespace Core

variable {π : Type} {config : Config} {port : π} {c : Core π}

structure Fresh (config : Config) (port : π) (c : Core π) : Prop where
  valid : config.validate = .ok ()
  mbox : Mbox.ofConfig config port = .ok c.mbox
  translation : TranslationUnit.build config.memory.itbSize config.memory.dtbSize = .ok c.translation
  palBase : c.iprs.palBase = 0
  lock : c.lock = .released
  control : c.control = .reset
  statistics : c.statistics = .zero

theorem fresh_ofConfig (h : ofConfig config port = .ok c) : Fresh config port c := by
  obtain ⟨_, hvalid, h⟩ := bind_eq_ok h
  obtain ⟨_, hmbox, h⟩ := bind_eq_ok h
  obtain ⟨_, htranslation, h⟩ := ofBreach_then h
  cases h
  exact ⟨hvalid, hmbox, htranslation, rfl, rfl, rfl, rfl⟩

end Core

end EV6
