import VoidCache.Lib.Calls

/-!
# Calls with fixed answers

Where the answer to a call depends on the call alone, a program has one value, `eval`, and
makes one sequence of calls; `Each` is a condition on all of them. Both follow the way programs
are put together.
-/
namespace VoidCache

namespace Calls

variable {A : Type} {V : A → Type} {R S : Type} {ans : (a : A) → V a} {C D : A → Prop}

/-- What the program returns when each call `a` is answered with `ans a`. -/
def eval (ans : (a : A) → V a) : Calls V R → R
  | ret r => r
  | call a next => (next (ans a)).eval ans

/-- Every call that the program makes, given these answers, is in `C`. -/
def Each (ans : (a : A) → V a) (C : A → Prop) : Calls V R → Prop
  | ret _ => True
  | call a next => C a ∧ (next (ans a)).Each ans C

instance decidableEach [hC : DecidablePred C] : (p : Calls V R) → Decidable (p.Each ans C)
  | ret _ => isTrue trivial
  | call a next => @instDecidableAnd _ _ (hC a) (decidableEach (next (ans a)))

@[simp] theorem eval_pure (r : R) : (pure r : Calls V R).eval ans = r := rfl

@[simp] theorem eval_ask (a : A) : (ask a : Calls V (V a)).eval ans = ans a := rfl

@[simp] theorem eval_bind (p : Calls V R) (f : R → Calls V S) :
    (p >>= f).eval ans = (f (p.eval ans)).eval ans := by
  show (p.andThen f).eval ans = _
  induction p with
  | ret r => rfl
  | call a next ih => exact ih _

@[simp] theorem each_pure (r : R) : (pure r : Calls V R).Each ans C := trivial

@[simp] theorem each_ask (a : A) : (ask a : Calls V (V a)).Each ans C ↔ C a := and_iff_left trivial

@[simp] theorem each_bind (p : Calls V R) (f : R → Calls V S) :
    (p >>= f).Each ans C ↔ p.Each ans C ∧ (f (p.eval ans)).Each ans C := by
  show (p.andThen f).Each ans C ↔ _
  induction p with
  | ret r => exact (iff_of_eq (true_and _)).symm
  | call a next ih => exact (and_congr_right fun _ => ih _).trans and_assoc.symm

theorem eval_ite {c : Prop} [Decidable c] (p q : Calls V R) :
    (if c then p else q).eval ans = if c then p.eval ans else q.eval ans := apply_ite ..

/-- What holds whatever the answers are holds for these. -/
theorem Meets.each {Q : R → Prop} {p : Calls V R} (h : Meets C Q p) : p.Each ans C := by
  induction p with
  | ret r => trivial
  | call a next ih => exact ⟨h.1, ih _ (h.2 _)⟩

theorem Meets.eval {Q : R → Prop} {p : Calls V R} (h : Meets C Q p) : Q (p.eval ans) := by
  induction p with
  | ret r => exact h
  | call a next ih => exact ih _ (h.2 _)

end Calls

end VoidCache
