import Mathlib.Data.List.Basic
import Mathlib.Tactic.Linarith

/-!
# Memory cells that hold bytes or pieces of pointers

A block of C memory is a list of cells. Copying a pointer into a byte array stores its
eight fragments, and loading a pointer succeeds only on the eight fragments of one
pointer in order. `blit` is `memcpy` into the middle of a block.
-/
namespace VoidCache

variable {P α : Type}

/-- One addressable unit: a plain byte, or fragment `i` of the pointer `p`. -/
inductive Cell (P : Type) where
  | byte (b : UInt8)
  | frag (p : P) (i : Nat)
  deriving DecidableEq, Repr

namespace Cell

def bytes (l : List UInt8) : List (Cell P) := l.map .byte

def ofPtr (p : P) : List (Cell P) := (List.range 8).map (.frag p)

/-- Load a pointer from the first eight cells. -/
def toPtr [DecidableEq P] : List (Cell P) → Option P
  | .frag p i :: cs => if (.frag p i :: cs).take 8 = ofPtr p then some p else none
  | _ => none

@[simp] theorem length_bytes (l : List UInt8) : (bytes l : List (Cell P)).length = l.length := by
  simp [bytes]

@[simp] theorem length_ofPtr (p : P) : (ofPtr p).length = 8 := by simp [ofPtr]

theorem take_bytes (l : List UInt8) (n : Nat) :
    (bytes l : List (Cell P)).take n = bytes (l.take n) := by simp [bytes, List.map_take]

theorem bytes_injective : Function.Injective (bytes : List UInt8 → List (Cell P)) :=
  List.map_injective_iff.mpr fun a b h => by simpa using h

theorem toPtr_ofPtr_append [DecidableEq P] (p : P) (cs : List (Cell P)) :
    toPtr (ofPtr p ++ cs) = some p := by
  have hr : (ofPtr p ++ cs) = .frag p 0 :: ((ofPtr p).tail ++ cs) := by
    simp [ofPtr, List.range_succ_eq_map]
  have ht : (ofPtr p ++ cs).take 8 = ofPtr p := by
    rw [List.take_append_of_le_length (by simp)]
    exact List.take_of_length_le (by simp)
  rw [hr] at ht ⊢
  simp [toPtr, ht]

theorem toPtr_take [DecidableEq P] (cs : List (Cell P)) : toPtr (cs.take 8) = toPtr cs := by
  match cs with
  | [] => rfl
  | .byte b :: cs => rfl
  | .frag p i :: cs =>
    show (if ((Cell.frag p i :: cs).take 8).take 8 = ofPtr p then some p else none) = _
    rw [List.take_take]
    rfl

end Cell

/-- Overwrite `dst` from offset `off` with `src`. -/
def blit (dst : List α) (off : Nat) (src : List α) : List α :=
  dst.take off ++ src ++ dst.drop (off + src.length)

theorem blit_zero (dst src : List α) : blit dst 0 src = src ++ dst.drop src.length := by
  simp [blit]

theorem blit_cons {dst src : List α} {off : Nat} (h : off < dst.length) (c : α) :
    blit dst off (c :: src) = blit (dst.set off c) (off + 1) src := by
  have htake : (dst.set off c).take (off + 1) = dst.take off ++ [c] := by
    rw [List.set_eq_take_append_cons_drop, if_pos h, List.take_append]
    simp [List.take_take, Nat.min_eq_left h.le]
  have hdrop : (dst.set off c).drop (off + 1 + src.length) = dst.drop (off + 1 + src.length) :=
    List.drop_set_of_lt (by omega)
  simp only [blit, htake, hdrop, List.length_cons]
  simp [Nat.add_comm, Nat.add_left_comm]

/-- Overwriting a whole block. -/
theorem blit_all {dst src : List α} (h : src.length = dst.length) : blit dst 0 src = src := by
  simp [blit_zero, h]

theorem length_blit {dst src : List α} {off : Nat} (h : off + src.length ≤ dst.length) :
    (blit dst off src).length = dst.length := by
  simp [blit]
  omega

/-- One cell at a time. -/
theorem take_succ_drop (l : List α) (n j : Nat) :
    (l.drop j).take (n + 1) = l[j]?.toList ++ (l.drop (j + 1)).take n := by
  by_cases hj : j < l.length
  · rw [List.drop_eq_getElem_cons hj, List.take_succ_cons]
    simp [hj]
  · rw [List.drop_eq_nil_of_le (by omega), List.drop_eq_nil_of_le (by omega)]
    simp [hj]

end VoidCache
