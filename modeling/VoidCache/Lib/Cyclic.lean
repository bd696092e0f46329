import Mathlib.Data.Nat.Bitwise
import Mathlib.Data.Int.ModEq

/-!
# Walking a power-of-two ring of slots

A probe walk starts at a home slot and visits `(home + j) % cap`. The distance from
home to a slot is the number of steps the walk needs to reach it. `Filled` says that
every slot strictly before a given one on the walk satisfies a predicate; it is the
invariant of a probe loop, and `Filled.next` is its step.
-/
namespace VoidCache.Cyclic

/-- The masked successor used by probe loops. -/
def next (cap slot : Nat) : Nat := (slot + 1) &&& (cap - 1)

/-- Steps of a forward walk from `home` to `slot`. -/
def dist (cap home slot : Nat) : Nat := (slot + cap - home) % cap

theorem mask_eq_mod {cap : Nat} (hc : ∃ b, cap = 2 ^ b) (x : Nat) :
    x &&& (cap - 1) = x % cap := by
  obtain ⟨b, rfl⟩ := hc
  exact Nat.and_two_pow_sub_one_eq_mod x b

theorem pos_of_pow {cap : Nat} (hc : ∃ b, cap = 2 ^ b) : 0 < cap := by
  obtain ⟨b, rfl⟩ := hc
  exact Nat.two_pow_pos b

theorem next_eq_mod {cap : Nat} (hc : ∃ b, cap = 2 ^ b) (slot : Nat) :
    next cap slot = (slot + 1) % cap := mask_eq_mod hc _

theorem next_lt {cap : Nat} (hc : ∃ b, cap = 2 ^ b) (slot : Nat) : next cap slot < cap := by
  rw [next_eq_mod hc]
  exact Nat.mod_lt _ (pos_of_pow hc)

theorem next_offset {cap : Nat} (hc : ∃ b, cap = 2 ^ b) (slot j : Nat) :
    (next cap slot + j) % cap = (slot + (j + 1)) % cap := by
  rw [next_eq_mod hc, Nat.mod_add_mod]
  congr 1
  omega

/-- Two steps of one round of the walk visit different slots. -/
theorem offset_inj {cap slot i j : Nat} (hi : i < cap) (hj : j < cap)
    (h : (slot + i) % cap = (slot + j) % cap) : i = j := by
  have := Nat.ModEq.add_left_cancel' slot h
  rwa [Nat.ModEq, Nat.mod_eq_of_lt hi, Nat.mod_eq_of_lt hj] at this

/-- A walk does not come back within its first round. -/
theorem offset_ne_self {cap slot j : Nat} (hs : slot < cap) (hj : j + 1 < cap) :
    (slot + (j + 1)) % cap ≠ slot := by
  intro h
  have h0 : (slot + (j + 1)) % cap = (slot + 0) % cap := by
    rw [h, Nat.add_zero, Nat.mod_eq_of_lt hs]
  cases offset_inj hj (by omega) h0

theorem dist_lt {cap : Nat} (hc : 0 < cap) (home slot : Nat) : dist cap home slot < cap :=
  Nat.mod_lt _ hc

theorem dist_eq {cap home slot : Nat} (hh : home < cap) (hs : slot < cap) :
    dist cap home slot = if home ≤ slot then slot - home else slot + cap - home := by
  unfold dist
  split_ifs with h
  · rw [show slot + cap - home = (slot - home) + cap by omega, Nat.add_mod_right,
      Nat.mod_eq_of_lt (by omega)]
  · exact Nat.mod_eq_of_lt (by omega)

theorem home_add_dist {cap home slot : Nat} (hh : home < cap) (hs : slot < cap) :
    (home + dist cap home slot) % cap = slot := by
  rw [dist_eq hh hs]
  split_ifs with h
  · rw [show home + (slot - home) = slot by omega, Nat.mod_eq_of_lt hs]
  · rw [show home + (slot + cap - home) = slot + cap by omega, Nat.add_mod_right,
      Nat.mod_eq_of_lt hs]

theorem dist_next {cap home slot : Nat} (hc : ∃ b, cap = 2 ^ b) (hh : home < cap)
    (hs : slot < cap) :
    dist cap home (next cap slot) = dist cap home slot + 1 ∨
      dist cap home (next cap slot) = 0 := by
  have hn : next cap slot = if slot + 1 < cap then slot + 1 else 0 := by
    rw [next_eq_mod hc]
    split_ifs with h
    · exact Nat.mod_eq_of_lt h
    · rw [show slot + 1 = cap by omega, Nat.mod_self]
  rw [dist_eq hh (next_lt hc slot), dist_eq hh hs, hn]
  split_ifs <;> omega

/-- Every slot a walk from `home` meets strictly before `slot` satisfies `full`. -/
def Filled (full : Nat → Prop) (cap home slot : Nat) : Prop :=
  ∀ j, j < dist cap home slot → full ((home + j) % cap)

theorem Filled.home {full : Nat → Prop} {cap home : Nat} (hh : home < cap) :
    Filled full cap home home := by
  intro j hj
  simp [dist_eq hh hh] at hj

theorem Filled.mono {full full' : Nat → Prop} {cap home slot : Nat}
    (h : Filled full cap home slot) (hm : ∀ i, full i → full' i) :
    Filled full' cap home slot := fun j hj => hm _ (h j hj)

/-- One step of the walk past a slot that satisfies `full`. A walk that comes back to
its home starts a new round, for which nothing is required yet. -/
theorem Filled.next {full : Nat → Prop} {cap home slot : Nat} (hc : ∃ b, cap = 2 ^ b)
    (hh : home < cap) (hs : slot < cap) (h : Filled full cap home slot) (hf : full slot) :
    Filled full cap home (next cap slot) := by
  intro j hj
  rcases dist_next hc hh hs with hd | hd
  · rw [hd] at hj
    by_cases he : j = dist cap home slot
    · rw [he, home_add_dist hh hs]
      exact hf
    · exact h j (by omega)
  · omega

end VoidCache.Cyclic
