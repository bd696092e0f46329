import Mathlib.Data.Nat.Bitwise
import Mathlib.Data.UInt
import Mathlib.Tactic.Ring

/-!
# Bit strings

Numbers, and strings of bytes, as strings of bits with the most significant bit first.
-/
namespace VoidCache

/-- The low `w` bits of a number. -/
def bits (w n : Nat) : List Bool := (List.range w).map fun i => n.testBit (w - 1 - i)

/-- The number that a string of bits stands for. -/
def ofBits (l : List Bool) : Nat := l.foldl (fun n b => 2 * n + b.toNat) 0

def byteBits (b : UInt8) : List Bool := bits 8 b.toNat

def bytesBits (bs : List UInt8) : List Bool := bs.flatMap byteBits

/-! ## Numbers -/

@[simp] theorem length_bits (w n : Nat) : (bits w n).length = w := by simp [bits]

theorem bits_succ (w n : Nat) : bits (w + 1) n = n.testBit w :: bits w n := by
  unfold bits
  rw [List.range_succ_eq_map, List.map_cons, List.map_map]
  congr 1
  refine List.map_congr_left fun i _ => ?_
  rw [Function.comp_apply]
  congr 1
  omega

theorem bits_add (a b n : Nat) : bits (a + b) n = bits a (n >>> b) ++ bits b n := by
  induction a with
  | zero => simp [bits]
  | succ a ih =>
    rw [Nat.succ_add, bits_succ, bits_succ, ih, Nat.testBit_shiftRight, Nat.add_comm b a,
      List.cons_append]

theorem bits_mod (w n : Nat) : bits w (n % 2 ^ w) = bits w n := by
  refine List.map_congr_left fun i hi => ?_
  have hlt := List.mem_range.mp hi
  rw [Nat.testBit_mod_two_pow]
  simp [show w - 1 - i < w by omega]

theorem bits_zero (w : Nat) : bits w 0 = List.replicate w false := by
  induction w with
  | zero => rfl
  | succ w ih => rw [bits_succ, ih, Nat.zero_testBit, List.replicate_succ]

theorem ofBits_append (a b : List Bool) : ofBits (a ++ b) = ofBits a * 2 ^ b.length + ofBits b := by
  have hfold (n : Nat) : b.foldl (fun n b => 2 * n + b.toNat) n = n * 2 ^ b.length + ofBits b := by
    unfold ofBits
    induction b generalizing n with
    | nil => simp
    | cons c b ih =>
      rw [List.foldl_cons, List.foldl_cons, ih, ih (2 * 0 + c.toNat), List.length_cons, pow_succ]
      ring
  rw [ofBits, List.foldl_append, hfold]
  rfl

theorem ofBits_bits (w n : Nat) : ofBits (bits w n) = n % 2 ^ w := by
  induction w with
  | zero => simp [bits, ofBits, Nat.mod_one]
  | succ w ih =>
    rw [bits_succ, ← List.singleton_append, ofBits_append, ih, length_bits, Nat.pow_succ, Nat.mod_mul,
      Nat.testBit_eq_decide_div_mod_eq]
    rcases Nat.mod_two_eq_zero_or_one (n / 2 ^ w) with h | h
    · simp [ofBits, h]
    · simp [ofBits, h]
      ring

/-! ## Bytes -/

theorem bytesBits_append (a b : List UInt8) : bytesBits (a ++ b) = bytesBits a ++ bytesBits b :=
  List.flatMap_append

theorem bytesBits_cons (b : UInt8) (bs : List UInt8) : bytesBits (b :: bs) = byteBits b ++ bytesBits bs :=
  rfl

@[simp] theorem length_byteBits (b : UInt8) : (byteBits b).length = 8 := length_bits ..

@[simp] theorem length_bytesBits (bs : List UInt8) : (bytesBits bs).length = 8 * bs.length := by
  induction bs with
  | nil => rfl
  | cons b bs ih =>
    rw [bytesBits_cons, List.length_append, ih, length_byteBits, List.length_cons]
    ring

theorem bytesBits_split (n : Nat) (bs : List UInt8) :
    bytesBits bs = bytesBits (bs.take n) ++ bytesBits (bs.drop n) := by
  rw [← bytesBits_append, List.take_append_drop]

theorem drop_bytesBits (n : Nat) (bs : List UInt8) : (bytesBits bs).drop (8 * n) = bytesBits (bs.drop n) := by
  by_cases hn : n ≤ bs.length
  · have hlen : (bytesBits (bs.take n)).length = 8 * n := by simp [hn]
    rw [bytesBits_split n bs, List.drop_left' hlen]
  · rw [List.drop_eq_nil_of_le (by simp; omega), List.drop_eq_nil_of_le (by omega)]
    rfl

theorem take_bytesBits (n : Nat) (bs : List UInt8) : (bytesBits bs).take (8 * n) = bytesBits (bs.take n) := by
  by_cases hn : n ≤ bs.length
  · have hlen : (bytesBits (bs.take n)).length = 8 * n := by simp [hn]
    rw [bytesBits_split n bs, List.take_left' hlen]
  · rw [List.take_of_length_le (by simp; omega), List.take_of_length_le (by omega)]

theorem bytesBits_replicate_zero (n : Nat) :
    bytesBits (List.replicate n 0) = List.replicate (8 * n) false := by
  induction n with
  | zero => rfl
  | succ n ih =>
    rw [List.replicate_succ, bytesBits_cons, ih, byteBits, UInt8.toNat_zero, bits_zero,
      ← List.replicate_add, Nat.mul_succ, Nat.add_comm]

theorem byteBits_ofNat (n : Nat) : byteBits (UInt8.ofNat n) = bits 8 n := by
  rw [byteBits, UInt8.toNat_ofNat', bits_mod]

/-- A number of `8 * k` bits, byte by byte. -/
theorem bytesBits_bigEndian (k n : Nat) :
    bytesBits ((List.range k).map fun i => UInt8.ofNat (n >>> ((k - 1 - i) * 8))) = bits (8 * k) n := by
  induction k with
  | zero => rfl
  | succ k ih =>
    have hrest : (List.range k).map ((fun i => UInt8.ofNat (n >>> ((k + 1 - 1 - i) * 8))) ∘ Nat.succ) =
        (List.range k).map fun i => UInt8.ofNat (n >>> ((k - 1 - i) * 8)) :=
      List.map_congr_left fun i _ => by
        rw [Function.comp_apply]
        congr 3
        omega
    have hwidth : 8 * (k + 1) = 8 + 8 * k := by ring
    rw [List.range_succ_eq_map, List.map_cons, List.map_map, hrest, bytesBits_cons, ih,
      byteBits_ofNat, hwidth, bits_add]
    congr 3
    omega

end VoidCache
