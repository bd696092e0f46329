import Mathlib.Logic.Function.Basic
import Mathlib.Data.List.Nodup

/-!
# Intrusive singly linked lists

`Linked next nil h l` reads the list `l` off a head pointer `h` by following `next`
until `nil`. Pushing updates one link, popping updates none, and a change of links
outside the list does not disturb it.
-/
namespace VoidCache

variable {P : Type}

def Linked (next : P → P) (nil : P) : P → List P → Prop
  | h, [] => h = nil
  | h, a :: l => h = a ∧ a ≠ nil ∧ Linked next nil (next a) l

/-- The node is met when the list is followed from `h`. -/
inductive OnList (next : P → P) (nil : P) : P → P → Prop
  | here {h : P} : h ≠ nil → OnList next nil h h
  | there {h b : P} : h ≠ nil → OnList next nil (next h) b → OnList next nil h b

namespace Linked

variable {next next' : P → P} {nil h a : P} {l : List P}

theorem congr (hl : Linked next nil h l) (he : ∀ x ∈ l, next' x = next x) :
    Linked next' nil h l := by
  induction l generalizing h with
  | nil => exact hl
  | cons x l ih =>
    obtain ⟨rfl, hx, hl⟩ := hl
    refine ⟨rfl, hx, ?_⟩
    rw [he h (by simp)]
    exact ih hl fun y hy => he y (by simp [hy])

theorem push [DecidableEq P] (hl : Linked next nil h l) (ha : a ≠ nil) (hn : a ∉ l) :
    Linked (Function.update next a h) nil a (a :: l) := by
  refine ⟨rfl, ha, ?_⟩
  rw [Function.update_self]
  refine hl.congr fun x hx => Function.update_of_ne ?_ _ _
  rintro rfl
  exact hn hx

theorem eq_nil (hl : Linked next nil nil l) : l = [] := by
  cases l with
  | nil => rfl
  | cons x l => exact absurd hl.1.symm hl.2.1

theorem exists_cons (hl : Linked next nil h l) (hh : h ≠ nil) :
    ∃ l', l = h :: l' ∧ Linked next nil (next h) l' := by
  cases l with
  | nil => exact absurd hl hh
  | cons x l =>
    obtain ⟨rfl, _, hl⟩ := hl
    exact ⟨l, rfl, hl⟩

/-- The list is determined by the links. -/
theorem unique {l' : List P} (hl : Linked next nil h l) (hl' : Linked next nil h l') : l = l' := by
  induction l generalizing h l' with
  | nil => exact (eq_nil (hl ▸ hl')).symm
  | cons x l ih =>
    obtain ⟨rfl, hne, hrest⟩ := hl
    obtain ⟨l'', rfl, hrest'⟩ := hl'.exists_cons hne
    rw [ih hrest hrest']

theorem onList_iff {b : P} (hl : Linked next nil h l) :
    OnList next nil h b ↔ b ∈ l := by
  constructor
  · intro hb
    induction hb generalizing l with
    | here hne =>
      obtain ⟨l', rfl, _⟩ := hl.exists_cons hne
      simp
    | there hne _ ih =>
      obtain ⟨l', rfl, hl'⟩ := hl.exists_cons hne
      simp [ih hl']
  · intro hb
    induction l generalizing h with
    | nil => simp at hb
    | cons x l ih =>
      obtain ⟨rfl, hne, hl⟩ := hl
      rcases List.mem_cons.mp hb with rfl | hb
      · exact .here hne
      · exact .there hne (ih hl hb)

end Linked
end VoidCache
