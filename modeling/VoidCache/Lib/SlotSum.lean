import Mathlib.Algebra.BigOperators.Group.Finset.Basic
import Mathlib.Algebra.BigOperators.Group.Finset.Piecewise
import Mathlib.Data.Multiset.AddSub

/-!
# What a table of slots holds

Each slot contributes a multiset; the table holds their sum. A write to one slot
replaces that slot's contribution and leaves the rest, which `exists_rest` says once
for every possible new content of the slot.
-/
namespace VoidCache

variable {ε α : Type}

/-- The sum of the contributions of the first `cap` slots. -/
def slotSum (cap : Nat) (w : ε → Multiset α) (t : Nat → ε) : Multiset α :=
  ∑ i ∈ Finset.range cap, w (t i)

namespace slotSum

variable {cap : Nat} {w : ε → Multiset α} {t t' : Nat → ε} {i : Nat}

theorem exists_rest (w : ε → Multiset α) (t : Nat → ε) (hi : i < cap) :
    ∃ R, ∀ e, slotSum cap w (Function.update t i e) = w e + R := by
  refine ⟨∑ j ∈ (Finset.range cap).erase i, w (t j), fun e => ?_⟩
  unfold slotSum
  rw [← Finset.add_sum_erase _ _ (Finset.mem_range.mpr hi), Function.update_self]
  congr 1
  refine Finset.sum_congr rfl fun j hj => ?_
  rw [Function.update_of_ne (Finset.ne_of_mem_erase hj)]

theorem congr (h : ∀ i, i < cap → w (t' i) = w (t i)) : slotSum cap w t' = slotSum cap w t :=
  Finset.sum_congr rfl fun i hi => h i (Finset.mem_range.mp hi)

theorem mem_iff {a : α} : a ∈ slotSum cap w t ↔ ∃ i, i < cap ∧ a ∈ w (t i) := by
  simp [slotSum, Multiset.mem_sum]

end slotSum
end VoidCache
