import VoidCache.Cache.Ops
import Mathlib.Data.Nat.Size
import Mathlib.Data.Nat.Bitwise

/-!
# A new cache

`next_pow2_32` smears the highest bit of its argument downwards and adds one. Its result is
a power of two, or zero when the sum wraps, and then there is no table to map. Every cache
that `vc_create` returns is therefore valid and empty.
-/
namespace VoidCache

/-- Bit `i` of `x` tells whether one of the `n` bits of `w` from `i` upwards is set. -/
def Smeared (w n x : Nat) : Prop := ∀ i, x.testBit i = true ↔ ∃ d, d < n ∧ w.testBit (i + d) = true

theorem Smeared.self (w : Nat) : Smeared w 1 w := by
  intro i
  constructor
  · exact fun h => ⟨0, by omega, h⟩
  · rintro ⟨d, hd, h⟩
    obtain rfl : d = 0 := by omega
    exact h

/-- One step of the smearing doubles the reach. -/
theorem Smeared.double {w n x : Nat} (h : Smeared w n x) : Smeared w (n + n) (x ||| x >>> n) := by
  intro i
  rw [Nat.testBit_or, Nat.testBit_shiftRight, Bool.or_eq_true, h i, h (n + i)]
  constructor
  · rintro (⟨d, hd, hb⟩ | ⟨d, hd, hb⟩)
    · exact ⟨d, by omega, hb⟩
    · exact ⟨n + d, by omega, by rwa [← Nat.add_assoc, Nat.add_comm i n]⟩
  · rintro ⟨d, hd, hb⟩
    by_cases hdn : d < n
    · exact Or.inl ⟨d, hdn, hb⟩
    · refine Or.inr ⟨d - n, by omega, ?_⟩
      rwa [show n + i + (d - n) = i + d by omega]

/-- Smeared over its whole width, a number becomes all ones up to its highest bit. -/
theorem Smeared.eq_ones {w n x : Nat} (h : Smeared w n x) (hw : w < 2 ^ n) : x = 2 ^ w.size - 1 := by
  refine Nat.eq_of_testBit_eq fun i => ?_
  rw [Nat.testBit_two_pow_sub_one, Bool.eq_iff_iff, h i, decide_eq_true_iff, Nat.lt_size]
  constructor
  · rintro ⟨d, _, hb⟩
    exact (Nat.pow_le_pow_right (by omega) (by omega)).trans (Nat.ge_two_pow_of_testBit hb)
  · intro hle
    obtain ⟨j, hj, hb⟩ := Nat.exists_ge_and_testBit_of_ge_two_pow hle
    have hjn : j < n := by
      by_contra hjn
      have := Nat.ge_two_pow_of_testBit hb
      have := Nat.pow_le_pow_right (n := 2) (by omega) (by omega : n ≤ j)
      omega
    exact ⟨j - i, by omega, by rwa [show i + (j - i) = j by omega]⟩

/-- The capacity computed by `vc_create` is a power of two, or zero after wrapping. -/
theorem nextPow232_pow (v : UInt32) (h : (nextPow232 v).toNat ≠ 0) :
    ∃ b, (nextPow232 v).toNat = 2 ^ b := by
  unfold nextPow232 at h ⊢
  split_ifs at h ⊢ with hv
  · exact ⟨0, rfl⟩
  · generalize v - 1 = w at h ⊢
    have hones := (Smeared.self w.toNat).double.double.double.double.double.eq_ones w.toNat_lt
    have hsize : w.toNat.size ≤ 32 := Nat.size_le.mpr w.toNat_lt
    simp only [UInt32.toNat_add, UInt32.toNat_or, UInt32.toNat_shiftRight, UInt32.reduceToNat,
      Nat.reduceMod] at h ⊢
    rw [hones, Nat.sub_add_cancel Nat.one_le_two_pow] at h ⊢
    rcases Nat.lt_or_eq_of_le hsize with hlt | heq
    · exact ⟨_, Nat.mod_eq_of_lt (Nat.pow_lt_pow_right (by omega) hlt)⟩
    · rw [heq] at h
      exact absurd rfl h

theorem emptyShard_shape {cap : Nat} (hpow : ∃ b, cap = 2 ^ b) (hlt : cap < 2 ^ 32) :
    (emptyShard cap).Shape where
  cap_pow := hpow
  cap_lt := hlt
  no_busy _ := by simp [emptyShard, emptyEntry]
  chain _ _ hl := by simp [emptyShard, emptyEntry] at hl

theorem vcCreate_cases {file : Option (Nat → UInt8)} {slots : UInt32} {c : Cache}
    (h : vcCreate file slots = some c) :
    ∃ cap, (∃ b, cap = 2 ^ b) ∧ cap < 2 ^ 32 ∧ c = newCache file cap := by
  unfold vcCreate at h
  have hpow := nextPow232_pow (if slots = 0 then 1024 else slots)
  have hlt := (nextPow232 (if slots = 0 then 1024 else slots)).toNat_lt
  generalize nextPow232 (if slots = 0 then 1024 else slots) = u at h hpow hlt
  by_cases hu : u.toNat = 0
  · simp [hu] at h
  · simp only [hu, if_false, Option.some.injEq] at h
    exact ⟨_, hpow hu, hlt, h.symm⟩

theorem newCache_contents (file : Option (Nat → UInt8)) (cap : Nat) :
    (newCache file cap).contents = 0 := by
  unfold Cache.contents slotSum
  exact Finset.sum_eq_zero fun _ _ => emptyShard_contents cap

/-- A cache returned by `vc_create` is valid and empty, whatever the log file holds. -/
theorem vcCreate_outcome {file : Option (Nat → UInt8)} {slots : UInt32} {c : Cache}
    (h : vcCreate file slots = some c) : c.Valid ∧ c.items = 0 := by
  obtain ⟨cap, hpow, hlt, rfl⟩ := vcCreate_cases h
  have hzero := newCache_contents file cap
  refine ⟨⟨fun si => emptyShard_shape hpow hlt, ?_, ?_, fun si _ d hd => ?_⟩, ?_⟩
  · rw [hzero]
    exact ⟨initialFree, slabInit_freeLists, by simpa using initialFree_nodup, by simp⟩
  · rw [hzero]
    simp
  · have hd' : d ∈ (emptyShard cap).contents := hd
    rw [emptyShard_contents] at hd'
    exact absurd hd' (Multiset.notMem_zero d)
  · rw [Cache.items, hzero, Multiset.map_zero]

end VoidCache
