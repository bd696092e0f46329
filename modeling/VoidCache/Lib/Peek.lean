import VoidCache.Lib.Bytes
import VoidCache.Lib.Calls

/-!
# Reading a buffer byte by byte

A `Peek` program reads a buffer through the offsets that it asks for, so that where it reads is
part of what it does. `value` is what it returns for a given buffer; `Inside n` says that every
offset it asks for is below `n`. The rules for `bytes`, which copies a range, and `text`, which
copies up to a zero byte, are the simp set by which a decoder's reads become arithmetic.
-/
namespace VoidCache

abbrev Peek (R : Type) := Calls (fun _ : Nat => UInt8) R

namespace Peek

variable {R S : Type} {mem : Nat → UInt8} {n i len : Nat}

/-- Answer the reads from a buffer. -/
def readFrom (mem : Nat → UInt8) (s : Unit) (i : Nat) : Unit × UInt8 := (s, mem i)

def value (mem : Nat → UInt8) (p : Peek R) : R := (p.run (readFrom mem) ()).2

/-- Every offset that is read lies below `n`. -/
def Inside (mem : Nat → UInt8) (n : Nat) (p : Peek R) : Prop := p.Along (readFrom mem) (fun _ i => i < n) ()

instance (mem : Nat → UInt8) (n : Nat) (p : Peek R) : Decidable (Inside mem n p) :=
  inferInstanceAs (Decidable (p.Along _ _ _))

@[simp] theorem value_pure (r : R) : value mem (pure r) = r := rfl

@[simp] theorem inside_pure (r : R) : Inside mem n (pure r) := trivial

@[simp] theorem value_bind (p : Peek R) (f : R → Peek S) :
    value mem (p >>= f) = value mem (f (value mem p)) := by
  rw [value, Calls.run_bind]
  rfl

@[simp] theorem inside_bind (p : Peek R) (f : R → Peek S) :
    Inside mem n (p >>= f) ↔ Inside mem n p ∧ Inside mem n (f (value mem p)) :=
  Calls.along_bind p f ()

theorem value_ite {c : Prop} [Decidable c] (p q : Peek R) :
    value mem (if c then p else q) = if c then value mem p else value mem q := apply_ite ..

theorem inside_ite {c : Prop} [Decidable c] (p q : Peek R) :
    Inside mem n (if c then p else q) ↔ if c then Inside mem n p else Inside mem n q :=
  iff_of_eq (apply_ite ..)

/-! ## Ranges -/

def byte (i : Nat) : Peek UInt8 := Calls.ask i

/-- `memcpy` of a range. -/
def bytes (i : Nat) : Nat → Peek (List UInt8)
  | 0 => pure []
  | len + 1 => do
    let b ← byte i
    let bs ← bytes (i + 1) len
    pure (b :: bs)

/-- The text of at most `len` bytes that `printf` takes for `%.*s`. -/
def text (i : Nat) : Nat → Peek (List UInt8)
  | 0 => pure []
  | len + 1 => do
    let b ← byte i
    if b = 0 then pure []
    else do
      let bs ← text (i + 1) len
      pure (b :: bs)

@[simp] theorem value_byte : value mem (byte i) = mem i := rfl

@[simp] theorem inside_byte : Inside mem n (byte i) ↔ i < n := and_iff_left trivial

@[simp] theorem value_bytes : value mem (bytes i len) = window mem i len := by
  induction len generalizing i with
  | zero => rfl
  | succ len ih => rw [bytes, value_bind, value_bind, value_byte, ih, value_pure, window_succ]

@[simp] theorem inside_bytes : Inside mem n (bytes i len) ↔ len = 0 ∨ i + len ≤ n := by
  induction len generalizing i with
  | zero => simp [bytes]
  | succ len ih =>
    rw [bytes, inside_bind, inside_bind, inside_byte, ih]
    simp only [inside_pure, and_true]
    omega

@[simp] theorem value_text : value mem (text i len) = (window mem i len).takeWhile (· ≠ 0) := by
  induction len generalizing i with
  | zero => rfl
  | succ len ih =>
    rw [text, value_bind, value_byte, window_succ, value_ite]
    by_cases hb : mem i = 0
    · rw [if_pos hb, List.takeWhile_cons_of_neg (by simpa using hb)]
      rfl
    · rw [if_neg hb, value_bind, ih, List.takeWhile_cons_of_pos (by simpa using hb)]
      rfl

theorem inside_text (h : i + len ≤ n) : Inside mem n (text i len) := by
  induction len generalizing i with
  | zero => trivial
  | succ len ih =>
    rw [text, inside_bind, inside_byte, value_byte, inside_ite]
    refine ⟨by omega, ?_⟩
    split
    · trivial
    · rw [inside_bind]
      exact ⟨ih (by omega), trivial⟩

end Peek

end VoidCache
