import Mathlib.Data.Nat.NthRoot.Defs
import VoidCache.Lib.BitString

/-!
# SHA-256

The secure hash algorithm with digests of 256 bits, for strings of bits. The constants are bits of
the square roots and cube roots of the first primes.
-/
namespace VoidCache.Sha256

abbrev Word := BitVec 32

/-! ## Functions and constants -/

def ch (x y z : Word) : Word := (x &&& y) ^^^ (~~~x &&& z)
def maj (x y z : Word) : Word := (x &&& y) ^^^ (x &&& z) ^^^ (y &&& z)
def bigSigma0 (x : Word) : Word := x.rotateRight 2 ^^^ x.rotateRight 13 ^^^ x.rotateRight 22
def bigSigma1 (x : Word) : Word := x.rotateRight 6 ^^^ x.rotateRight 11 ^^^ x.rotateRight 25
def smallSigma0 (x : Word) : Word := x.rotateRight 7 ^^^ x.rotateRight 18 ^^^ x >>> 3
def smallSigma1 (x : Word) : Word := x.rotateRight 17 ^^^ x.rotateRight 19 ^^^ x >>> 10

/-- The first sixty-four primes. -/
def primes : List Nat :=
  [2, 3, 5, 7, 11, 13, 17, 19, 23, 29, 31, 37, 41, 43, 47, 53, 59, 61, 67, 71, 73, 79, 83, 89, 97, 101,
   103, 107, 109, 113, 127, 131, 137, 139, 149, 151, 157, 163, 167, 173, 179, 181, 191, 193, 197, 199,
   211, 223, 227, 229, 233, 239, 241, 251, 257, 263, 269, 271, 277, 281, 283, 293, 307, 311]

/-- The first thirty-two bits of the fractional part of the `k`-th root of `p`. -/
def fracRoot (k p : Nat) : Word := BitVec.ofNat 32 (Nat.nthRoot k (p * 2 ^ (32 * k)))

/-- The constant of a round: bits of a cube root. -/
def roundConstant (t : Nat) : Word := fracRoot 3 (primes.getD t 0)

/-- The eight words of a hash value. -/
@[ext] structure Hash where
  a : Word
  b : Word
  c : Word
  d : Word
  e : Word
  f : Word
  g : Word
  h : Word

/-- The initial hash value: bits of square roots. -/
def Hash.init : Hash :=
  ⟨fracRoot 2 2, fracRoot 2 3, fracRoot 2 5, fracRoot 2 7, fracRoot 2 11, fracRoot 2 13, fracRoot 2 17,
    fracRoot 2 19⟩

def Hash.add (x y : Hash) : Hash :=
  ⟨x.a + y.a, x.b + y.b, x.c + y.c, x.d + y.d, x.e + y.e, x.f + y.f, x.g + y.g, x.h + y.h⟩

def Hash.words (x : Hash) : List Word := [x.a, x.b, x.c, x.d, x.e, x.f, x.g, x.h]

/-! ## Padding -/

theorem exists_zeros (l : Nat) : ∃ k, (l + 1 + k) % 512 = 448 :=
  ⟨959 - l % 512, by omega⟩

/-- The least number of zero bits that leaves room for the length in the last block. -/
def zeros (l : Nat) : Nat := Nat.find (exists_zeros l)

def pad (m : List Bool) : List Bool :=
  m ++ true :: (List.replicate (zeros m.length) false ++ bits 64 m.length)

/-- Fewer than 512 zeros that make the length right are the least number of them. -/
theorem zeros_eq {l k : Nat} (hk : (l + 1 + k) % 512 = 448) (hlt : k < 512) : zeros l = k :=
  (Nat.find_eq_iff (exists_zeros l)).mpr ⟨hk, fun j hj => by omega⟩

/-! ## Hash computation -/

/-- Block number `i`. -/
def block (p : List Bool) (i : Nat) : List Bool := (p.drop (512 * i)).take 512

/-- Word number `t` of a block. -/
def word (blk : List Bool) (t : Nat) : Word := BitVec.ofNat 32 (ofBits ((blk.drop (32 * t)).take 32))

/-- The message schedule. -/
def schedule (blk : List Bool) (t : Nat) : Word :=
  if t < 16 then word blk t
  else
    smallSigma1 (schedule blk (t - 2)) + schedule blk (t - 7) + smallSigma0 (schedule blk (t - 15)) +
      schedule blk (t - 16)
termination_by t

theorem schedule_of_lt {blk : List Bool} {t : Nat} (ht : t < 16) : schedule blk t = word blk t := by
  rw [schedule, if_pos ht]

theorem schedule_of_ge {blk : List Bool} {t : Nat} (ht : 16 ≤ t) :
    schedule blk t = smallSigma1 (schedule blk (t - 2)) + schedule blk (t - 7) +
      smallSigma0 (schedule blk (t - 15)) + schedule blk (t - 16) := by
  rw [schedule, if_neg (by omega)]

/-- One round, with the word and the constant for it. -/
def round (s : Hash) (k w : Word) : Hash :=
  let t1 := s.h + bigSigma1 s.e + ch s.e s.f s.g + k + w
  let t2 := bigSigma0 s.a + maj s.a s.b s.c
  ⟨t1 + t2, s.a, s.b, s.c, s.d + t1, s.e, s.f, s.g⟩

/-- The hash value after one more block. -/
def compress (x : Hash) (blk : List Bool) : Hash :=
  ((List.range 64).foldl (fun s t => round s (roundConstant t) (schedule blk t)) x).add x

/-- The hash value after the first `n` blocks. -/
def hashed (p : List Bool) (n : Nat) : Hash :=
  (List.range n).foldl (fun x i => compress x (block p i)) .init

def digest (m : List Bool) : List Bool :=
  (hashed (pad m) ((pad m).length / 512)).words.flatMap fun x => bits 32 x.toNat

end VoidCache.Sha256
