import VoidCache.Lib.Answers
import Mathlib.Algebra.Group.Nat.Defs

/-!
# Arithmetic on machine words

A `WordProg` does its arithmetic by calls, so that each sum, difference and product it takes is
part of what it does. Every operation wraps; `Exact` says of one that it does not. The lemmas
turn an exact operation into the one on natural numbers.
-/
namespace VoidCache

variable {w : Nat}

inductive WordOp (w : Nat) where
  | add (a b : BitVec w)
  | sub (a b : BitVec w)
  | mul (a b : BitVec w)

namespace WordOp

/-- What the machine computes. -/
def result : WordOp w → BitVec w
  | add a b => a + b
  | sub a b => a - b
  | mul a b => a * b

/-- The mathematical result is a word. -/
def Exact : WordOp w → Prop
  | add a b => a.toNat + b.toNat < 2 ^ w
  | sub a b => b.toNat ≤ a.toNat
  | mul a b => a.toNat * b.toNat < 2 ^ w

instance : DecidablePred (@Exact w)
  | add _ _ => inferInstanceAs (Decidable (_ < _))
  | sub _ _ => inferInstanceAs (Decidable (_ ≤ _))
  | mul _ _ => inferInstanceAs (Decidable (_ < _))

end WordOp

abbrev WordProg (w : Nat) (R : Type) := Calls (fun _ : WordOp w => BitVec w) R

namespace WordProg

variable {R S : Type} {a b : BitVec w}

def add (a b : BitVec w) : WordProg w (BitVec w) := Calls.ask (.add a b)
def sub (a b : BitVec w) : WordProg w (BitVec w) := Calls.ask (.sub a b)
def mul (a b : BitVec w) : WordProg w (BitVec w) := Calls.ask (.mul a b)

def value (p : WordProg w R) : R := p.eval WordOp.result

/-- No operation of the program wraps. -/
def NoWrap (p : WordProg w R) : Prop := p.Each WordOp.result WordOp.Exact

instance (p : WordProg w R) : Decidable p.NoWrap := inferInstanceAs (Decidable (p.Each _ _))

@[simp] theorem value_pure (r : R) : value (pure r : WordProg w R) = r := rfl

@[simp] theorem value_bind (p : WordProg w R) (f : R → WordProg w S) :
    value (p >>= f) = value (f (value p)) := Calls.eval_bind p f

@[simp] theorem value_ite {c : Prop} [Decidable c] (p q : WordProg w R) :
    value (if c then p else q) = if c then value p else value q := apply_ite ..

@[simp] theorem noWrap_pure (r : R) : NoWrap (pure r : WordProg w R) := trivial

@[simp] theorem noWrap_bind (p : WordProg w R) (f : R → WordProg w S) :
    NoWrap (p >>= f) ↔ NoWrap p ∧ NoWrap (f (value p)) := Calls.each_bind p f

@[simp] theorem value_add : value (add a b) = a + b := rfl

@[simp] theorem value_sub : value (sub a b) = a - b := rfl

@[simp] theorem value_mul : value (mul a b) = a * b := rfl

@[simp] theorem noWrap_add : NoWrap (add a b) ↔ a.toNat + b.toNat < 2 ^ w := Calls.each_ask _

@[simp] theorem noWrap_sub : NoWrap (sub a b) ↔ b.toNat ≤ a.toNat := Calls.each_ask _

@[simp] theorem noWrap_mul : NoWrap (mul a b) ↔ a.toNat * b.toNat < 2 ^ w := Calls.each_ask _

theorem toNat_add (h : NoWrap (add a b)) : (a + b).toNat = a.toNat + b.toNat := by
  rw [BitVec.toNat_add, Nat.mod_eq_of_lt (noWrap_add.mp h)]

theorem toNat_sub (h : NoWrap (sub a b)) : (a - b).toNat = a.toNat - b.toNat :=
  BitVec.toNat_sub_of_le (noWrap_sub.mp h)

theorem toNat_mul (h : NoWrap (mul a b)) : (a * b).toNat = a.toNat * b.toNat := by
  rw [BitVec.toNat_mul, Nat.mod_eq_of_lt (noWrap_mul.mp h)]

end WordProg

end VoidCache
