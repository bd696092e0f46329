import Mathlib.Data.UInt

/-!
# The two hash functions

`xxh32` guards log records and `wyhash64` places keys. Both are written over byte lists
with explicit offsets, so that the loads of the C code stay visible. Loops recurse on an
iteration count that the byte length bounds.
-/
namespace VoidCache

/-- Byte at offset `off`. -/
def load8 (p : List UInt8) (off : Nat) : UInt8 := p.getD off 0

/-- Little-endian four-byte load. -/
def load32 (p : List UInt8) (off : Nat) : UInt32 :=
  (load8 p off).toUInt32 ||| (load8 p (off + 1)).toUInt32 <<< 8 |||
    (load8 p (off + 2)).toUInt32 <<< 16 ||| (load8 p (off + 3)).toUInt32 <<< 24

/-- Little-endian eight-byte load. -/
def load64 (p : List UInt8) (off : Nat) : UInt64 :=
  (load32 p off).toUInt64 ||| (load32 p (off + 4)).toUInt64 <<< 32

def xxhPrime1 : UInt32 := 0x9E3779B1
def xxhPrime2 : UInt32 := 0x85EBCA77
def xxhPrime3 : UInt32 := 0xC2B2AE3D
def xxhPrime4 : UInt32 := 0x27D4EB2F
def xxhPrime5 : UInt32 := 0x165667B1

def rotl32 (x r : UInt32) : UInt32 := (x <<< r) ||| (x >>> (32 - r))

/-- The four accumulators of the striped loop. -/
structure XxhLanes where
  v1 : UInt32
  v2 : UInt32
  v3 : UInt32
  v4 : UInt32

def xxhRound (v lane : UInt32) : UInt32 := rotl32 (v + lane * xxhPrime2) 13 * xxhPrime1

/-- The `do … while (p <= end - 16)` loop; the first stripe is known to be there. -/
def xxhStripes (data : List UInt8) : Nat → Nat → XxhLanes → Nat × XxhLanes
  | 0, p, v => (p, v)
  | n + 1, p, v =>
    let v' : XxhLanes :=
      { v1 := xxhRound v.v1 (load32 data p)
        v2 := xxhRound v.v2 (load32 data (p + 4))
        v3 := xxhRound v.v3 (load32 data (p + 8))
        v4 := xxhRound v.v4 (load32 data (p + 12)) }
    if p + 16 + 16 ≤ data.length then xxhStripes data n (p + 16) v' else (p + 16, v')

def xxhWords (data : List UInt8) : Nat → Nat → UInt32 → Nat × UInt32
  | 0, p, h => (p, h)
  | n + 1, p, h =>
    if p + 4 ≤ data.length then
      xxhWords data n (p + 4) (rotl32 (h + load32 data p * xxhPrime3) 17 * xxhPrime4)
    else (p, h)

def xxhTail (data : List UInt8) : Nat → Nat → UInt32 → UInt32
  | 0, _, h => h
  | n + 1, p, h =>
    if p < data.length then
      xxhTail data n (p + 1) (rotl32 (h + (load8 data p).toUInt32 * xxhPrime5) 11 * xxhPrime1)
    else h

def xxhAvalanche (h : UInt32) : UInt32 :=
  let h := (h ^^^ (h >>> 15)) * xxhPrime2
  let h := (h ^^^ (h >>> 13)) * xxhPrime3
  h ^^^ (h >>> 16)

def xxh32 (data : List UInt8) (seed : UInt32) : UInt32 :=
  let len := data.length
  let start : Nat × UInt32 :=
    if 16 ≤ len then
      let r := xxhStripes data len 0
        ⟨seed + xxhPrime1 + xxhPrime2, seed + xxhPrime2, seed, seed - xxhPrime1⟩
      (r.1, rotl32 r.2.v1 1 + rotl32 r.2.v2 7 + rotl32 r.2.v3 12 + rotl32 r.2.v4 18)
    else (0, seed + xxhPrime5)
  let words := xxhWords data len start.1 (start.2 + UInt32.ofNat len)
  xxhAvalanche (xxhTail data len words.1 words.2)

/-- 64×64→128 multiplication folded by xor. -/
def wymix (a b : UInt64) : UInt64 :=
  UInt64.ofNat (a.toNat * b.toNat) ^^^ UInt64.ofNat (a.toNat * b.toNat / 2 ^ 64)

def wyC1 : UInt64 := 0x9e3779b97f4a7c15
def wyC2 : UInt64 := 0xe7037ed1a0b428db

def wySeed (seed : UInt64) : UInt64 :=
  seed ^^^ wymix (seed ^^^ wyC1) 0xa0761d6478bd642f

/-- Loop state of the block loop: position, bytes left, and the two accumulators. -/
structure WyState where
  p : Nat
  i : Nat
  a : UInt64
  b : UInt64
  deriving DecidableEq

/-- Body of `while (i > 32)`. -/
def wyBlock (key : List UInt8) (s : WyState) : WyState :=
  let a := wymix (s.a ^^^ load64 key s.p) (s.b ^^^ load64 key (s.p + 8))
  let b := wymix (a ^^^ load64 key (s.p + 16)) (s.b ^^^ load64 key (s.p + 24))
  { p := s.p + 32, i := s.i - 32, a, b }

def wyBlocks (key : List UInt8) : Nat → WyState → WyState
  | 0, s => s
  | n + 1, s => if 32 < s.i then wyBlocks key n (wyBlock key s) else s

/-- The optional half block and the overlapping tail loads. -/
def wyTail (key : List UInt8) (s : WyState) : UInt64 × UInt64 :=
  let s :=
    if 16 < s.i then
      { p := s.p + 16, i := s.i - 16, b := s.b
        a := wymix (s.a ^^^ load64 key s.p) (s.b ^^^ load64 key (s.p + 8)) }
    else s
  (s.a ^^^ load64 key (s.p + s.i - 16 + (if 8 < s.i then 0 else 8 - s.i)),
   s.b ^^^ load64 key (s.p + s.i - 8))

/-- The pair `(a, b)` that the key bytes contribute. -/
def wyFold (key : List UInt8) : UInt64 × UInt64 :=
  let len := key.length
  if len ≤ 16 then
    if 4 ≤ len then
      let lo := load32 key 0
      let hi := load32 key (len / 2 - 2)
      let lo2 := load32 key (len - 4)
      -- `p + len - 4 - (len >> 1) + 2`: the pointer may pass below `p` on the way
      let hi2 := load32 key (len - 4 + 2 - len / 2)
      (lo.toUInt64 <<< 32 ||| hi.toUInt64, lo2.toUInt64 <<< 32 ||| hi2.toUInt64)
    else if 0 < len then
      ((load8 key 0).toUInt64 <<< 16 ||| (load8 key (len / 2)).toUInt64 <<< 8 |||
        (load8 key (len - 1)).toUInt64, 0)
    else (0, 0)
  else wyTail key (wyBlocks key len ⟨0, len, 0, 0⟩)

def wyhash64 (key : List UInt8) (seed : UInt64) : UInt64 :=
  let ab := wyFold key
  wymix (wySeed seed ^^^ UInt64.ofNat key.length) (wymix (ab.1 ^^^ wyC1) (ab.2 ^^^ wyC2))

/-! ## Zeros

The final mix multiplies, so a zero factor makes the whole hash zero.
-/

theorem wymix_zero_left (b : UInt64) : wymix 0 b = 0 := by simp [wymix]

theorem wymix_zero_right (a : UInt64) : wymix a 0 = 0 := by simp [wymix]

theorem load64_eq_zero {p : List UInt8} {off : Nat}
    (h : ∀ j, off ≤ j → j < off + 8 → load8 p j = 0) : load64 p off = 0 := by
  unfold load64 load32
  rw [h off (by omega) (by omega), h (off + 1) (by omega) (by omega),
    h (off + 2) (by omega) (by omega), h (off + 3) (by omega) (by omega),
    h (off + 4) (by omega) (by omega), h (off + 4 + 1) (by omega) (by omega),
    h (off + 4 + 2) (by omega) (by omega), h (off + 4 + 3) (by omega) (by omega)]
  decide

theorem wyhash64_of_fold {key : List UInt8} (h : (wyFold key).1 = wyC1) (seed : UInt64) :
    wyhash64 key seed = 0 := by
  unfold wyhash64
  dsimp only
  rw [h, UInt64.xor_self, wymix_zero_left, wymix_zero_right]

end VoidCache
