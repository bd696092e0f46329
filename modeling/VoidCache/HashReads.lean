import VoidCache.Hash
import VoidCache.Lib.Answers

/-!
# Where wyhash64 reads

`wyhash64` as a program that asks for each of its loads. Offsets are integers, since the pointer
arithmetic of the code goes below the key on the way (`p + i - 16 + …`): a load there would show.
The offsets depend on the length of the key alone, so where the loads lie is settled whatever the
bytes are; on the bytes of a key the program computes `wyhash64`.
-/
namespace VoidCache

/-- A load at an offset from the start of the key: one byte, or a `memcpy` of four or eight. -/
inductive Load where
  | byte (off : Int)
  | word (off : Int)
  | dword (off : Int)
  deriving DecidableEq

namespace Load

def Val : Load → Type
  | byte _ => UInt8
  | word _ => UInt32
  | dword _ => UInt64

def off : Load → Int
  | byte off => off
  | word off => off
  | dword off => off

def width : Load → Nat
  | byte _ => 1
  | word _ => 4
  | dword _ => 8

/-- All bytes of the load are bytes of a key of length `n`. -/
def Inside (n : Nat) (l : Load) : Prop := 0 ≤ l.off ∧ l.off + l.width ≤ n

/-- What a load inside the key finds. -/
def answer (key : List UInt8) : (l : Load) → l.Val
  | byte off => load8 key off.toNat
  | word off => load32 key off.toNat
  | dword off => load64 key off.toNat

end Load

abbrev KeyLoads (R : Type) := Calls Load.Val R

def readByte (off : Int) : KeyLoads UInt8 := Calls.ask (V := Load.Val) (Load.byte off)
def readWord (off : Int) : KeyLoads UInt32 := Calls.ask (V := Load.Val) (Load.word off)
def readDword (off : Int) : KeyLoads UInt64 := Calls.ask (V := Load.Val) (Load.dword off)

/-- `p` as an offset, `i`, `a` and `b`. -/
structure WyCursor where
  p : Int
  i : Nat
  a : UInt64
  b : UInt64

/-- Body of `while (i > 32)`. -/
def wyBlockLoads (s : WyCursor) : KeyLoads WyCursor := do
  let x ← readDword s.p
  let y ← readDword (s.p + 8)
  let a := wymix (s.a ^^^ x) (s.b ^^^ y)
  let x ← readDword (s.p + 16)
  let y ← readDword (s.p + 24)
  let b := wymix (a ^^^ x) (s.b ^^^ y)
  pure { p := s.p + 32, i := s.i - 32, a, b }

/-- `while (i > 32)`, for at most this many rounds. -/
def wyBlocksLoads : Nat → WyCursor → KeyLoads WyCursor
  | 0, s => pure s
  | rounds + 1, s =>
    if 32 < s.i then do
      let s ← wyBlockLoads s
      wyBlocksLoads rounds s
    else pure s

/-- `if (i > 16)`: the last whole block of sixteen bytes. -/
def wyHalfLoads (s : WyCursor) : KeyLoads WyCursor :=
  if 16 < s.i then do
    let x ← readDword s.p
    let y ← readDword (s.p + 8)
    pure { p := s.p + 16, i := s.i - 16, a := wymix (s.a ^^^ x) (s.b ^^^ y), b := s.b }
  else pure s

/-- The two loads that end the key, which may start before `p`. -/
def wyLastLoads (s : WyCursor) : KeyLoads (UInt64 × UInt64) := do
  let x ← readDword (s.p + s.i - 16 + (if 8 < s.i then 0 else 8 - s.i))
  let y ← readDword (s.p + s.i - 8)
  pure (s.a ^^^ x, s.b ^^^ y)

/-- All blocks of a key of length `len`; no more rounds than bytes. -/
def wyAllBlocksLoads (len : Nat) : KeyLoads WyCursor := do
  let s ← wyBlocksLoads len { p := 0, i := len, a := 0, b := 0 }
  wyHalfLoads s

def wyFoldLoads (len : Nat) : KeyLoads (UInt64 × UInt64) :=
  if len ≤ 16 then
    if 4 ≤ len then do
      let lo ← readWord 0
      let hi ← readWord (0 + (len / 2 : Nat) - 2)
      let lo2 ← readWord (0 + len - 4)
      let hi2 ← readWord (0 + len - 4 - (len / 2 : Nat) + 2)
      pure (lo.toUInt64 <<< 32 ||| hi.toUInt64, lo2.toUInt64 <<< 32 ||| hi2.toUInt64)
    else if 0 < len then do
      let first ← readByte 0
      let middle ← readByte (len / 2 : Nat)
      let last ← readByte (len - 1 : Nat)
      pure (first.toUInt64 <<< 16 ||| middle.toUInt64 <<< 8 ||| last.toUInt64, 0)
    else pure (0, 0)
  else do
    let s ← wyAllBlocksLoads len
    wyLastLoads s

def wyhash64Loads (len : Nat) (seed : UInt64) : KeyLoads UInt64 := do
  let ab ← wyFoldLoads len
  pure (wymix (wySeed seed ^^^ UInt64.ofNat len) (wymix (ab.1 ^^^ wyC1) (ab.2 ^^^ wyC2)))

/-! ## All loads are inside -/

section Inside

open Calls

variable {n : Nat} {R : Type} {Q : R → Prop} {off : Int}

theorem meets_readByte {f : UInt8 → KeyLoads R} (h : 0 ≤ off) (h' : off + 1 ≤ n)
    (hf : ∀ x, Meets (Load.Inside n) Q (f x)) : Meets (Load.Inside n) Q (readByte off >>= f) :=
  ⟨⟨h, h'⟩, hf⟩

theorem meets_readWord {f : UInt32 → KeyLoads R} (h : 0 ≤ off) (h' : off + 4 ≤ n)
    (hf : ∀ x, Meets (Load.Inside n) Q (f x)) : Meets (Load.Inside n) Q (readWord off >>= f) :=
  ⟨⟨h, h'⟩, hf⟩

theorem meets_readDword {f : UInt64 → KeyLoads R} (h : 0 ≤ off) (h' : off + 8 ≤ n)
    (hf : ∀ x, Meets (Load.Inside n) Q (f x)) : Meets (Load.Inside n) Q (readDword off >>= f) :=
  ⟨⟨h, h'⟩, hf⟩

/-- The cursor stands in a key of length `n`, with at least one byte left. -/
def WyCursor.At (n : Nat) (s : WyCursor) : Prop := 0 ≤ s.p ∧ 1 ≤ s.i ∧ s.p + s.i = n

theorem wyBlockLoads_inside {s : WyCursor} (hs : s.At n) (h : 32 < s.i) :
    Meets (Load.Inside n) (fun t => t.At n ∧ t.i = s.i - 32) (wyBlockLoads s) := by
  obtain ⟨hp, hi, hn⟩ := hs
  refine meets_readDword hp (by omega) fun x => ?_
  refine meets_readDword (by omega) (by omega) fun y => ?_
  refine meets_readDword (by omega) (by omega) fun x' => ?_
  refine meets_readDword (by omega) (by omega) fun y' => ?_
  refine .pure ⟨⟨?_, ?_, ?_⟩, rfl⟩ <;> dsimp only <;> omega

/-- The loop ends with 1 to 32 bytes left. -/
theorem wyBlocksLoads_inside {rounds : Nat} {s : WyCursor} (hs : s.At n)
    (hrounds : s.i ≤ 32 * (rounds + 1)) :
    Meets (Load.Inside n) (fun t => t.At n ∧ t.i ≤ 32) (wyBlocksLoads rounds s) := by
  induction rounds generalizing s with
  | zero => exact .pure ⟨hs, by omega⟩
  | succ rounds ih =>
    refine .ite (fun h => ?_) fun h => .pure ⟨hs, by omega⟩
    exact .bind (wyBlockLoads_inside hs h) fun t ⟨ht, hti⟩ => ih ht (by omega)

/-- Then 1 to 16 bytes are left. -/
theorem wyHalfLoads_inside {s : WyCursor} (hs : s.At n) (h : s.i ≤ 32) :
    Meets (Load.Inside n) (fun t => t.At n ∧ t.i ≤ 16) (wyHalfLoads s) := by
  obtain ⟨hp, hi, hn⟩ := hs
  refine .ite (fun hhalf => ?_) fun hhalf => .pure ⟨⟨hp, hi, hn⟩, by omega⟩
  refine meets_readDword hp (by omega) fun x => ?_
  refine meets_readDword (by omega) (by omega) fun y => ?_
  refine .pure ⟨⟨?_, ?_, ?_⟩, ?_⟩ <;> dsimp only <;> omega

/-- The last loads reach back over what has been read, which is there for a long key. -/
theorem wyLastLoads_inside {s : WyCursor} (hs : s.At n) (h : s.i ≤ 16) (hn : 16 < n) :
    Meets (Load.Inside n) (fun _ => True) (wyLastLoads s) := by
  obtain ⟨hp, hi, hend⟩ := hs
  refine meets_readDword ?_ ?_ fun x => ?_
  · split <;> omega
  · split <;> omega
  · exact meets_readDword (by omega) (by omega) fun y => .pure trivial

theorem wyAllBlocksLoads_inside (hn : 16 < n) :
    Meets (Load.Inside n) (fun t => t.At n ∧ t.i ≤ 16) (wyAllBlocksLoads n) := by
  have hstart : WyCursor.At n ⟨0, n, 0, 0⟩ := ⟨Int.le_refl 0, by dsimp only; omega, Int.zero_add _⟩
  refine .bind (wyBlocksLoads_inside hstart (by dsimp only; omega)) fun s ⟨hs, hi⟩ => ?_
  exact wyHalfLoads_inside hs hi

theorem wyFoldLoads_inside (n : Nat) : Meets (Load.Inside n) (fun _ => True) (wyFoldLoads n) := by
  refine .ite (fun hshort => .ite (fun hfour => ?_) fun hfour => .ite (fun hpos => ?_) fun _ => ?_)
    fun hlong => ?_
  · refine meets_readWord (by omega) (by omega) fun lo => ?_
    refine meets_readWord (by omega) (by omega) fun hi => ?_
    refine meets_readWord (by omega) (by omega) fun lo2 => ?_
    exact meets_readWord (by omega) (by omega) fun hi2 => .pure trivial
  · refine meets_readByte (by omega) (by omega) fun first => ?_
    refine meets_readByte (by omega) (by omega) fun middle => ?_
    exact meets_readByte (by omega) (by omega) fun last => .pure trivial
  · exact .pure trivial
  · refine .bind (wyAllBlocksLoads_inside (by omega)) fun s ⟨hs, hi⟩ => ?_
    exact wyLastLoads_inside hs hi (by omega)

end Inside

/-! ## What is computed -/

section Value

open Calls

variable {key : List UInt8}

def WyState.cursor (s : WyState) : WyCursor := { p := s.p, i := s.i, a := s.a, b := s.b }

@[simp] theorem eval_readByte (off : Int) :
    (readByte off).eval (Load.answer key) = load8 key off.toNat := rfl

@[simp] theorem eval_readWord (off : Int) :
    (readWord off).eval (Load.answer key) = load32 key off.toNat := rfl

@[simp] theorem eval_readDword (off : Int) :
    (readDword off).eval (Load.answer key) = load64 key off.toNat := rfl

theorem eval_wyBlockLoads (s : WyState) :
    (wyBlockLoads s.cursor).eval (Load.answer key) = (wyBlock key s).cursor := by
  simp [wyBlockLoads, wyBlock, WyState.cursor, Int.toNat_add]

theorem eval_wyBlocksLoads (key : List UInt8) (rounds : Nat) (s : WyState) :
    (wyBlocksLoads rounds s.cursor).eval (Load.answer key) = (wyBlocks key rounds s).cursor := by
  induction rounds generalizing s with
  | zero => rfl
  | succ rounds ih =>
    rw [wyBlocksLoads, wyBlocks, eval_ite, eval_bind, eval_wyBlockLoads, ih]
    exact (apply_ite ..).symm

/-- The model's half block. -/
def wyHalf (key : List UInt8) (s : WyState) : WyState :=
  if 16 < s.i then
    { p := s.p + 16, i := s.i - 16, b := s.b
      a := wymix (s.a ^^^ load64 key s.p) (s.b ^^^ load64 key (s.p + 8)) }
  else s

theorem wyHalf_end {s : WyState} : (wyHalf key s).p + (wyHalf key s).i = s.p + s.i := by
  unfold wyHalf
  split
  · dsimp only
    omega
  · rfl

theorem wyTail_eq (s : WyState) : wyTail key s =
    ((wyHalf key s).a ^^^ load64 key ((wyHalf key s).p + (wyHalf key s).i - 16 +
        (if 8 < (wyHalf key s).i then 0 else 8 - (wyHalf key s).i)),
      (wyHalf key s).b ^^^ load64 key ((wyHalf key s).p + (wyHalf key s).i - 8)) := rfl

theorem eval_wyHalfLoads (s : WyState) :
    (wyHalfLoads s.cursor).eval (Load.answer key) = (wyHalf key s).cursor := by
  unfold wyHalfLoads wyHalf
  rw [apply_ite WyState.cursor, eval_ite]
  simp [WyState.cursor, Int.toNat_add]

theorem eval_wyLastLoads {s : WyState} (h : 16 ≤ s.p + s.i) :
    (wyLastLoads s.cursor).eval (Load.answer key) =
      (s.a ^^^ load64 key (s.p + s.i - 16 + (if 8 < s.i then 0 else 8 - s.i)),
        s.b ^^^ load64 key (s.p + s.i - 8)) := by
  have hx : ((s.p : Int) + s.i - 16 + (if 8 < s.i then 0 else 8 - s.i : Nat)).toNat =
      s.p + s.i - 16 + (if 8 < s.i then 0 else 8 - s.i) := by
    split <;> omega
  have hy : ((s.p : Int) + s.i - 8).toNat = s.p + s.i - 8 := by omega
  calc (wyLastLoads s.cursor).eval (Load.answer key)
      = (s.a ^^^ load64 key ((s.p : Int) + s.i - 16 + (if 8 < s.i then 0 else 8 - s.i : Nat)).toNat,
          s.b ^^^ load64 key ((s.p : Int) + s.i - 8).toNat) := rfl
    _ = _ := by rw [hx, hy]

theorem wyBlocks_end (key : List UInt8) (rounds : Nat) (s : WyState) :
    (wyBlocks key rounds s).p + (wyBlocks key rounds s).i = s.p + s.i := by
  induction rounds generalizing s with
  | zero => rfl
  | succ rounds ih =>
    unfold wyBlocks
    split
    · rw [ih]
      dsimp only [wyBlock]
      omega
    · rfl

theorem eval_wyFoldLoads (key : List UInt8) :
    (wyFoldLoads key.length).eval (Load.answer key) = wyFold key := by
  by_cases hlong : key.length ≤ 16
  · by_cases hfour : 4 ≤ key.length
    · have hmid : (0 + ((key.length / 2 : Nat) : Int) - 2).toNat = key.length / 2 - 2 := by omega
      have hend : (0 + (key.length : Int) - 4).toNat = key.length - 4 := by omega
      have hback : (0 + (key.length : Int) - 4 - (key.length / 2 : Nat) + 2).toNat =
          key.length - 4 + 2 - key.length / 2 := by omega
      simp only [wyFoldLoads, wyFold, if_pos hlong, if_pos hfour, eval_bind, eval_pure,
        eval_readWord, hmid, hend, hback, Int.toNat_zero]
    · by_cases hpos : 0 < key.length
      · simp only [wyFoldLoads, wyFold, if_pos hlong, if_neg hfour, if_pos hpos, eval_bind,
          eval_pure, eval_readByte, Int.toNat_natCast, Int.toNat_zero]
      · simp only [wyFoldLoads, wyFold, if_pos hlong, if_neg hfour, if_neg hpos, eval_pure]
  · have hblocks := eval_wyBlocksLoads key key.length ⟨0, key.length, 0, 0⟩
    have hend := wyBlocks_end key key.length ⟨0, key.length, 0, 0⟩
    simp only [wyFoldLoads, wyFold, if_neg hlong, wyAllBlocksLoads, eval_bind]
    rw [show (⟨0, key.length, 0, 0⟩ : WyCursor) = WyState.cursor ⟨0, key.length, 0, 0⟩ from rfl,
      hblocks, eval_wyHalfLoads, eval_wyLastLoads, wyTail_eq]
    rw [wyHalf_end, hend]
    dsimp only
    omega

end Value

/-- On the bytes of a key the program computes its hash. -/
theorem eval_wyhash64Loads (key : List UInt8) (seed : UInt64) :
    (wyhash64Loads key.length seed).eval (Load.answer key) = wyhash64 key seed := by
  rw [wyhash64Loads, Calls.eval_bind, eval_wyFoldLoads]
  rfl

/-- Every load of `wyhash64` is inside the key, whatever the bytes are. For a long key the blocks
of 32 and of 16 bytes are taken until 1 to 16 bytes are left, and these end the key. -/
theorem wyhash64_reads_only_the_key (n : Nat) (seed : UInt64) :
    Calls.Meets (Load.Inside n) (fun _ => True) (wyhash64Loads n seed) ∧
      (∀ key : List UInt8, key.length = n →
        (wyhash64Loads n seed).eval (Load.answer key) = wyhash64 key seed) ∧
      (16 < n → Calls.Meets (Load.Inside n)
        (fun s => 1 ≤ s.i ∧ s.i ≤ 16 ∧ s.p + s.i = (n : Int)) (wyAllBlocksLoads n)) := by
  refine ⟨.bind (wyFoldLoads_inside n) fun ab _ => .pure trivial, ?_, fun hn => ?_⟩
  · rintro key rfl
    exact eval_wyhash64Loads key seed
  · exact (wyAllBlocksLoads_inside hn).mono (fun _ h => h) fun s ⟨hs, hi⟩ => ⟨hs.2.1, hi, hs.2.2⟩

theorem wyhash64_reads_seventeen :
    Calls.Meets (Load.Inside 17) (fun s => 1 ≤ s.i ∧ s.i ≤ 16 ∧ s.p + s.i = ((17 : Nat) : Int))
      (wyAllBlocksLoads 17) :=
  (wyhash64_reads_only_the_key 17 0).2.2 (by decide)

end VoidCache
