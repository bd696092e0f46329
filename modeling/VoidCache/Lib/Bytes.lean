import Mathlib.Data.List.GetD
import Mathlib.Data.UInt
import Mathlib.Tactic.Ring

/-!
# Flat byte memory, little-endian fields, and framed records

`window` reads a range of a byte memory and `overwrite` is `memcpy` into it. `leBytes` and
`leNat` are the little-endian codec of a fixed-width field. `decodeAll` reads one frame
after the other; it recovers the records of any concatenation of frames that the
single-frame decoder undoes.
-/
namespace VoidCache

/-! ## Windows -/

def window (mem : Nat → UInt8) (lo len : Nat) : List UInt8 :=
  (List.range len).map fun i => mem (lo + i)

def overwrite (mem : Nat → UInt8) (pos : Nat) (bs : List UInt8) : Nat → UInt8 := fun i =>
  if pos ≤ i ∧ i < pos + bs.length then bs.getD (i - pos) 0 else mem i

@[simp] theorem length_window (mem : Nat → UInt8) (lo len : Nat) :
    (window mem lo len).length = len := by simp [window]

@[simp] theorem window_zero (mem : Nat → UInt8) (lo : Nat) : window mem lo 0 = [] := rfl

theorem window_add (mem : Nat → UInt8) (lo a b : Nat) :
    window mem lo (a + b) = window mem lo a ++ window mem (lo + a) b := by
  simp [window, List.range_add, Nat.add_assoc]

theorem window_succ (mem : Nat → UInt8) (lo len : Nat) :
    window mem lo (len + 1) = mem lo :: window mem (lo + 1) len := by
  rw [Nat.add_comm, window_add]
  rfl

theorem window_congr {mem mem' : Nat → UInt8} {lo len : Nat}
    (h : ∀ i, lo ≤ i → i < lo + len → mem' i = mem i) : window mem' lo len = window mem lo len := by
  unfold window
  refine List.map_congr_left fun i hi => h _ (by omega) ?_
  have := List.mem_range.mp hi
  omega

theorem window_overwrite_self (mem : Nat → UInt8) (pos : Nat) (bs : List UInt8) :
    window (overwrite mem pos bs) pos bs.length = bs := by
  apply List.ext_getElem
  · simp
  · intro i hi hb
    simp [window, overwrite, hb]

theorem window_overwrite_of_disjoint (mem : Nat → UInt8) {pos lo len : Nat} (bs : List UInt8)
    (h : lo + len ≤ pos ∨ pos + bs.length ≤ lo) :
    window (overwrite mem pos bs) lo len = window mem lo len := by
  refine window_congr fun i h1 h2 => ?_
  unfold overwrite
  rw [if_neg (by omega)]

/-- Two adjacent copies are one copy. -/
theorem overwrite_append (mem : Nat → UInt8) (pos : Nat) (a b : List UInt8) :
    overwrite (overwrite mem pos a) (pos + a.length) b = overwrite mem pos (a ++ b) := by
  funext i
  unfold overwrite
  rw [List.length_append]
  by_cases h1 : pos ≤ i ∧ i < pos + a.length
  · rw [if_neg (by omega), if_pos h1, if_pos (by omega), List.getD_append _ _ _ _ (by omega)]
  · by_cases h2 : pos + a.length ≤ i ∧ i < pos + a.length + b.length
    · rw [if_pos h2, if_pos (by omega), List.getD_append_right _ _ _ _ (by omega)]
      congr 1
      omega
    · rw [if_neg h2, if_neg h1, if_neg (by omega)]

@[simp] theorem overwrite_nil (mem : Nat → UInt8) (pos : Nat) : overwrite mem pos [] = mem := by
  funext i
  unfold overwrite
  rw [if_neg (by simp)]

/-! ## Little-endian fields -/

def leBytes (width n : Nat) : List UInt8 :=
  (List.range width).map fun i => UInt8.ofNat (n / 256 ^ i)

def leNat : List UInt8 → Nat
  | [] => 0
  | b :: bs => b.toNat + 256 * leNat bs

@[simp] theorem length_leBytes (width n : Nat) : (leBytes width n).length = width := by
  simp [leBytes]

theorem drop_leBytes {width n i : Nat} (h : width ≤ i) : (leBytes width n).drop i = [] :=
  List.drop_eq_nil_of_le (by simpa using h)

theorem leBytes_succ (width n : Nat) :
    leBytes (width + 1) n = UInt8.ofNat n :: leBytes width (n / 256) := by
  unfold leBytes
  rw [List.range_succ_eq_map, List.map_cons, List.map_map, pow_zero, Nat.div_one]
  congr 1
  refine List.map_congr_left fun i _ => ?_
  rw [Function.comp_apply, Nat.div_div_eq_div_mul, pow_succ', Nat.mul_comm]

theorem leNat_leBytes (width n : Nat) : leNat (leBytes width n) = n % 256 ^ width := by
  induction width generalizing n with
  | zero => simp [leBytes, leNat, Nat.mod_one]
  | succ w ih =>
    rw [leBytes_succ, leNat, ih, pow_succ', Nat.mod_mul]
    simp

/-! ## Framed records -/

section Frames

variable {α β : Type} (dec : List β → Option (α × List β))

/-- Decode frame after frame until the input is used up. -/
def decodeAll : Nat → List β → Option (List α)
  | _, [] => some []
  | 0, _ :: _ => none
  | n + 1, b :: bs =>
    match dec (b :: bs) with
    | some (a, rest) => (decodeAll n rest).map (a :: ·)
    | none => none

theorem decodeAll_frames (frames : List (α × List β)) (n : Nat)
    (hn : (frames.flatMap Prod.snd).length ≤ n) (hne : ∀ f ∈ frames, f.2 ≠ [])
    (hdec : ∀ f ∈ frames, ∀ rest, dec (f.2 ++ rest) = some (f.1, rest)) :
    decodeAll dec n (frames.flatMap Prod.snd) = some (frames.map Prod.fst) := by
  induction frames generalizing n with
  | nil => cases n <;> rfl
  | cons f fs ih =>
    have hf := hdec f (by simp) (fs.flatMap Prod.snd)
    obtain ⟨b, bs, hb⟩ := List.exists_cons_of_ne_nil (hne f (by simp))
    rw [List.flatMap_cons, hb, List.cons_append] at hn ⊢
    cases n with
    | zero => simp at hn
    | succ n =>
      have hrest := ih n (by simp only [List.length_cons, List.length_append] at hn; omega)
        (fun g hg => hne g (by simp [hg])) fun g hg => hdec g (by simp [hg])
      rw [hb, List.cons_append] at hf
      simp [decodeAll, hf, hrest]

end Frames
end VoidCache
