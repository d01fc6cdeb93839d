import EV6.Proofs.Config.Valid
import Mathlib.Algebra.Ring.Nat
/-!
Validation is exact: the configurations that it accepts are the sound ones. It is not total: where a
line size and a number of ways pass their own checks but have a product beyond 64 bits, it stops at
that product, and nowhere else.
-/

namespace EV6

namespace ConfigFailure

variable {α β : Type} {b : Breach}

theorem bind_eq_breach_iff {x : Except ConfigFailure β} {f : β → Except ConfigFailure α} :
    (x >>= f) = .error (.breach b) ↔
      x = .error (.breach b) ∨ ∃ u, x = .ok u ∧ f u = .error (.breach b) := by
  cases x <;> simp [bind, Except.bind]

theorem require_ne_breach {ok : Bool} {error : ConfigError} :
    require ok error ≠ .error (.breach b) := by
  cases ok <;> simp [require]

theorem ofBreach_eq_breach_iff {x : Except Breach α} :
    ofBreach x = .error (.breach b) ↔ x = .error b := by
  cases x <;> simp

end ConfigFailure

open ConfigFailure

theorem isPowerOfTwo_iff_pow {n : Nat} : isPowerOfTwo n = true ↔ ∃ k, n = 2 ^ k := by
  simp only [isPowerOfTwo_iff, Nat.one_shiftLeft]

namespace CacheConfig

variable {c : CacheConfig} {name : String}

structure Sound (c : CacheConfig) : Prop where
  line_pow : ∃ k, c.lineBytes = 2 ^ k
  eight_le_line : 8 ≤ c.lineBytes
  ways_pos : 0 < c.ways
  sets_pow : ∃ k, c.sets = 2 ^ k
  size_eq : c.sets * c.ways * c.lineBytes = c.sizeBytes

structure Overflows (c : CacheConfig) : Prop where
  line_pow : ∃ k, c.lineBytes = 2 ^ k
  eight_le_line : 8 ≤ c.lineBytes
  ways_pos : 0 < c.ways
  limit_le : 2 ^ 64 ≤ c.lineBytes * c.ways

theorem Sound.not_overflows (h : c.Sound) (hsize : c.sizeBytes < 2 ^ 64) : ¬c.Overflows := by
  intro hover
  obtain ⟨k, hk⟩ := h.sets_pow
  have hsets : 0 < c.sets := hk ▸ Nat.two_pow_pos k
  have hle : c.lineBytes * c.ways ≤ c.sets * (c.lineBytes * c.ways) := Nat.le_mul_of_pos_left _ hsets
  have heq : c.sets * (c.lineBytes * c.ways) = c.sizeBytes := by
    rw [← h.size_eq, Nat.mul_assoc, Nat.mul_comm c.ways]
  have := hover.limit_le
  omega

theorem mod_eq_zero_iff (hline : 8 ≤ c.lineBytes) (hways : 0 < c.ways) :
    c.sizeBytes % (c.lineBytes * c.ways) = 0 ↔ c.sets * c.ways * c.lineBytes = c.sizeBytes := by
  have hpos : 0 < c.lineBytes * c.ways := Nat.mul_pos (by omega) hways
  have hsets : c.sets * c.ways * c.lineBytes =
      c.sizeBytes / (c.lineBytes * c.ways) * (c.lineBytes * c.ways) := by
    rw [sets, Nat.max_eq_left hpos, Nat.mul_assoc, Nat.mul_comm c.ways]
  rw [hsets, ← Nat.dvd_iff_div_mul_eq, Nat.dvd_iff_mod_eq_zero]

theorem validate_eq_ok_iff (hsize : c.sizeBytes < 2 ^ 64) :
    c.validate name = .ok () ↔ c.Sound := by
  simp only [validate, bind_eq_ok_iff, require_eq_ok_iff, ofBreach_eq_ok_iff, exists_const,
    Machine.mul_eq_ok_iff, Machine.rem_eq_ok_iff, Bool.and_eq_true, isPowerOfTwo_iff_pow,
    decide_eq_true_eq, bne_iff_ne, beq_iff_eq]
  constructor
  · rintro ⟨⟨hline, h8⟩, hways, _, ⟨rfl, -⟩, _, ⟨-, rfl⟩, hrest, hsets⟩
    have hways := Nat.pos_of_ne_zero hways
    exact ⟨hline, h8, hways, hsets, (mod_eq_zero_iff h8 hways).mp hrest⟩
  · intro h
    have hfits : c.lineBytes * c.ways < 2 ^ 64 := Nat.lt_of_not_le fun hover =>
      h.not_overflows hsize ⟨h.line_pow, h.eight_le_line, h.ways_pos, hover⟩
    have hne : c.lineBytes * c.ways ≠ 0 := by
      have := Nat.mul_pos (show 0 < c.lineBytes by have := h.eight_le_line; omega) h.ways_pos
      omega
    exact ⟨⟨h.line_pow, h.eight_le_line⟩, Nat.ne_of_gt h.ways_pos, _, ⟨rfl, hfits⟩, _, ⟨hne, rfl⟩,
      (mod_eq_zero_iff h.eight_le_line h.ways_pos).mpr h.size_eq, h.sets_pow⟩

theorem validate_eq_breach_iff {b : Breach} :
    c.validate name = .error (.breach b) ↔ b = .overflow .multiply ∧ c.Overflows := by
  simp only [validate, bind_eq_breach_iff, require_eq_ok_iff, require_ne_breach, false_or, or_false,
    ofBreach_eq_ok_iff, ofBreach_eq_breach_iff, exists_const, Machine.mul_eq_ok_iff,
    Machine.mul_eq_error_iff, Machine.rem_eq_error_iff, Bool.and_eq_true, isPowerOfTwo_iff_pow,
    decide_eq_true_eq, bne_iff_ne, and_false]
  constructor
  · rintro ⟨⟨hline, h8⟩, hways, ⟨hb, hover⟩ | ⟨_, ⟨rfl, -⟩, -, hzero⟩⟩
    · exact ⟨hb, hline, h8, Nat.pos_of_ne_zero hways, hover⟩
    · rcases Nat.mul_eq_zero.mp hzero with hzero | hzero
      · omega
      · exact absurd hzero hways
  · rintro ⟨hb, h⟩
    exact ⟨⟨h.line_pow, h.eight_le_line⟩, Nat.ne_of_gt h.ways_pos, .inl ⟨hb, h.limit_le⟩⟩

end CacheConfig

namespace Config

variable {c : Config}

structure Sound (c : Config) : Prop where
  icache : c.cache.icache.Sound
  dcache : c.cache.dcache.Sound
  bcache : c.cache.bcache.Sound
  icache_line : c.cache.icache.lineBytes = c.cache.dcache.lineBytes
  bcache_line : c.cache.bcache.lineBytes = c.cache.dcache.lineBytes
  itb_pos : 0 < c.memory.itbSize
  dtb_pos : 0 < c.memory.dtbSize
  loads_pos : 0 < c.mbox.loadQueue
  stores_pos : 0 < c.mbox.storeQueue
  ram_pos : 0 < c.memory.ramSize
  ram_pages : 8192 ∣ c.memory.ramSize
  localHistory : 1 ≤ c.predictor.localHistoryBits ∧ c.predictor.localHistoryBits ≤ 16
  globalHistory : 1 ≤ c.predictor.globalHistoryBits ∧ c.predictor.globalHistoryBits ≤ 16

inductive Overflows (c : Config) : Prop
  | icache (h : c.cache.icache.Overflows)
  | dcache (hi : c.cache.icache.Sound) (h : c.cache.dcache.Overflows)
  | bcache (hi : c.cache.icache.Sound) (hd : c.cache.dcache.Sound) (h : c.cache.bcache.Overflows)

structure SizesFit (c : Config) : Prop where
  icache : c.cache.icache.sizeBytes < 2 ^ 64
  dcache : c.cache.dcache.sizeBytes < 2 ^ 64
  bcache : c.cache.bcache.sizeBytes < 2 ^ 64

theorem validate_eq_ok_iff (h : c.SizesFit) : c.validate = .ok () ↔ c.Sound := by
  simp only [validate, bind_eq_ok_iff, require_eq_ok_iff, exists_const, Bool.and_eq_true,
    decide_eq_true_eq, bne_iff_ne, beq_iff_eq, ← Nat.pos_iff_ne_zero, pageBytes,
    ← Nat.dvd_iff_mod_eq_zero, CacheConfig.validate_eq_ok_iff h.icache,
    CacheConfig.validate_eq_ok_iff h.dcache, CacheConfig.validate_eq_ok_iff h.bcache]
  constructor
  · rintro ⟨hi, hd, hb, hil, hbl, hitb, hdtb, hloads, hstores, ⟨hram, hpages⟩, hlocal, hglobal⟩
    exact ⟨hi, hd, hb, hil, hbl, hitb, hdtb, hloads, hstores, hram, hpages, hlocal, hglobal⟩
  · intro h
    exact ⟨h.icache, h.dcache, h.bcache, h.icache_line, h.bcache_line, h.itb_pos, h.dtb_pos,
      h.loads_pos, h.stores_pos, ⟨h.ram_pos, h.ram_pages⟩, h.localHistory, h.globalHistory⟩

theorem validate_eq_breach_iff (h : c.SizesFit) {b : Breach} :
    c.validate = .error (.breach b) ↔ b = .overflow .multiply ∧ c.Overflows := by
  simp only [validate, bind_eq_breach_iff, require_eq_ok_iff, require_ne_breach, or_false, and_false,
    exists_const, CacheConfig.validate_eq_breach_iff,
    CacheConfig.validate_eq_ok_iff h.icache, CacheConfig.validate_eq_ok_iff h.dcache]
  constructor
  · rintro (⟨rfl, hover⟩ | ⟨hi, ⟨rfl, hover⟩ | ⟨hd, rfl, hover⟩⟩)
    · exact ⟨rfl, .icache hover⟩
    · exact ⟨rfl, .dcache hi hover⟩
    · exact ⟨rfl, .bcache hi hd hover⟩
  · rintro ⟨rfl, hover | ⟨hi, hover⟩ | ⟨hi, hd, hover⟩⟩
    · exact .inl ⟨rfl, hover⟩
    · exact .inr ⟨hi, .inl ⟨rfl, hover⟩⟩
    · exact .inr ⟨hi, .inr ⟨hd, rfl, hover⟩⟩

theorem validation_outcomes (h : c.SizesFit) :
    (c.validate = .ok () ↔ c.Sound) ∧
    (¬c.Overflows ↔ c.validate = .ok () ∨ ∃ e, c.validate = .error (.refused e)) ∧
    ∀ b, c.validate = .error (.breach b) → b = .overflow .multiply := by
  refine ⟨validate_eq_ok_iff h, ?_, fun b hb => ((validate_eq_breach_iff h).mp hb).1⟩
  constructor
  · intro hfits
    cases hv : c.validate with
    | ok => exact .inl rfl
    | error failure =>
      cases failure with
      | refused e => exact .inr ⟨e, rfl⟩
      | breach b => exact absurd ((validate_eq_breach_iff h).mp hv).2 hfits
  · intro hanswer hover
    have hbreach := (validate_eq_breach_iff h).mpr ⟨rfl, hover⟩
    rw [hbreach] at hanswer
    simp at hanswer

def hugeLines : Config :=
  { stock with cache := { CacheLevels.stock with
      icache := { CacheConfig.stock with lineBytes := 2 ^ 63, ways := 2 } } }

theorem hugeLines_stop : (hugeLines.SizesFit ∧ hugeLines.Overflows) ∧
    ¬(hugeLines.validate = .ok () ∨ ∃ e, hugeLines.validate = .error (.refused e)) := by
  have hfits : hugeLines.SizesFit := by constructor <;> decide
  have hover : hugeLines.Overflows := .icache ⟨⟨63, rfl⟩, by decide, by decide, by decide⟩
  exact ⟨⟨hfits, hover⟩, fun hanswer => (validation_outcomes hfits).2.1.mpr hanswer hover⟩

end Config

end EV6
