import Mathlib.Data.List.Nodup

/-!
# Tables with a bounded number of places

A table takes an element that it does not have yet behind those it has, as long as there is a place.
`placeAll` offers it the elements of a list one after the other.
-/
namespace VoidCache

section BoundedTable

variable {α : Type} [DecidableEq α] {cap : Nat} {t : List α} {x : α}

def place (cap : Nat) (t : List α) (x : α) : List α := if x ∈ t ∨ cap ≤ t.length then t else t ++ [x]

def placeAll (cap : Nat) (t xs : List α) : List α := xs.foldl (place cap) t

@[simp] theorem placeAll_nil (cap : Nat) (t : List α) : placeAll cap t [] = t := rfl

@[simp] theorem placeAll_cons (cap : Nat) (t xs : List α) (x : α) :
    placeAll cap t (x :: xs) = placeAll cap (place cap t x) xs := rfl

theorem placeAll_append (cap : Nat) (t xs ys : List α) :
    placeAll cap t (xs ++ ys) = placeAll cap (placeAll cap t xs) ys := List.foldl_append ..

theorem place_of_full (h : cap ≤ t.length) (x : α) : place cap t x = t := if_pos (.inr h)

theorem place_of_mem (h : x ∈ t) : place cap t x = t := if_pos (.inl h)

theorem place_of_new (hx : x ∉ t) (h : t.length < cap) : place cap t x = t ++ [x] :=
  if_neg (not_or_intro hx (Nat.not_le.mpr h))

theorem placeAll_of_full (h : cap ≤ t.length) (xs : List α) : placeAll cap t xs = t := by
  induction xs with
  | nil => rfl
  | cons x xs ih => rw [placeAll_cons, place_of_full h, ih]

/-- Elements keep their places. -/
theorem prefix_place (cap : Nat) (t : List α) (x : α) : t <+: place cap t x := by
  unfold place
  split_ifs
  · exact List.prefix_rfl
  · exact List.prefix_append _ _

theorem prefix_placeAll (cap : Nat) (t xs : List α) : t <+: placeAll cap t xs := by
  induction xs generalizing t with
  | nil => exact List.prefix_rfl
  | cons x xs ih => exact (prefix_place cap t x).trans (ih _)

theorem nodup_place (h : t.Nodup) (x : α) : (place cap t x).Nodup := by
  unfold place
  split_ifs with hx
  · exact h
  · exact h.append (List.nodup_singleton x) (by simpa using fun hmem => hx (.inl hmem))

/-- An element without a place when it was offered gets none later. -/
theorem mem_placeAll_place (xs : List α) : x ∈ placeAll cap (place cap t x) xs ↔ x ∈ place cap t x := by
  constructor
  · intro h
    by_contra hx
    have hfull : cap ≤ t.length := by
      by_contra hroom
      refine hx ?_
      unfold place
      split_ifs with hplace
      · exact hplace.resolve_right hroom
      · exact List.mem_append_right _ (List.mem_singleton_self x)
    rw [place_of_full hfull] at h hx
    rw [placeAll_of_full hfull] at h
    exact hx h
  · intro h
    exact (prefix_placeAll _ _ _).mem h

end BoundedTable

end VoidCache
