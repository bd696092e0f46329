import Mathlib.Data.List.Basic

/-!
# Reading from a stream that is still coming in

A reader looks at what has come in so far. It takes something from the front and leaves the rest,
or there is not enough for it yet. `Reads p w` says that `p` takes `w` as a whole: all of it and no
more, and nothing before all of it is there. Readers that are put together read what their parts
read, one after the other.
-/
namespace VoidCache

variable {α β : Type}

structure Reads (p : List β → Option (List β)) (w : List β) : Prop where
  all : ∀ rest, p (w ++ rest) = some rest
  waits : ∀ s, s <+: w → s ≠ w → p s = none

/-- A reader that also returns something. -/
structure ReadsAs (p : List β → Option (α × List β)) (w : List β) (a : α) : Prop where
  all : ∀ rest, p (w ++ rest) = some (a, rest)
  waits : ∀ s, s <+: w → s ≠ w → p s = none

/-- A part of `v ++ w` is a part of `v`, or all of `v` and a part of `w`. -/
theorem proper_prefix_append {s v w : List β} (hs : s <+: v ++ w) (hne : s ≠ v ++ w) :
    s <+: v ∧ s ≠ v ∨ ∃ t, s = v ++ t ∧ t <+: w ∧ t ≠ w := by
  by_cases hlen : s.length < v.length
  · left
    refine ⟨List.prefix_of_prefix_length_le hs (List.prefix_append ..) (Nat.le_of_lt hlen), ?_⟩
    rintro rfl
    exact Nat.lt_irrefl _ hlen
  · right
    obtain ⟨t, rfl⟩ := List.prefix_of_prefix_length_le (List.prefix_append ..) hs (Nat.le_of_not_lt hlen)
    refine ⟨t, rfl, (List.prefix_append_right_inj v).mp hs, ?_⟩
    rintro rfl
    exact hne rfl

namespace Reads

variable {p q : List β → Option (List β)} {v w : List β}

/-- On a stream that holds just the word. -/
theorem whole (h : Reads p w) : p w = some [] := by
  simpa using h.all []

theorem nothing : Reads (some : List β → Option (List β)) [] :=
  ⟨fun _ => rfl, fun _ hs hne => absurd (List.prefix_nil.mp hs) hne⟩

theorem congr (h : Reads p w) (hq : ∀ s, q s = p s) : Reads q w := by
  obtain rfl : q = p := funext hq
  exact h

theorem bind (hp : Reads p v) (hq : Reads q w) : Reads (fun s => (p s).bind q) (v ++ w) where
  all rest := by
    rw [List.append_assoc, hp.all]
    exact hq.all rest
  waits s hs hne := by
    rcases proper_prefix_append hs hne with ⟨hv, hnev⟩ | ⟨t, rfl, ht, hnet⟩
    · rw [hp.waits s hv hnev]
      rfl
    · rw [hp.all]
      exact hq.waits t ht hnet

/-- What has come in of a word and of what follows it: not all of the word yet, or more than it. -/
theorem of_part (h : Reads p w) {s v : List β} (hs : s <+: w ++ v) :
    p s = none ∧ s.length < w.length ∨ ∃ t, s = w ++ t ∧ p s = some t := by
  by_cases hlen : s.length < w.length
  · have hpart : s <+: w := List.prefix_of_prefix_length_le hs (List.prefix_append ..) (Nat.le_of_lt hlen)
    exact .inl ⟨h.waits s hpart fun heq => Nat.lt_irrefl _ (heq ▸ hlen), hlen⟩
  · obtain ⟨t, rfl⟩ := List.prefix_of_prefix_length_le (List.prefix_append ..) hs (Nat.le_of_not_lt hlen)
    exact .inr ⟨t, rfl, h.all t⟩

end Reads

/-- What is read first says how to go on. -/
theorem ReadsAs.bind {p : List β → Option (α × List β)} {q : α → List β → Option (List β)}
    {v w : List β} {a : α} (hp : ReadsAs p v a) (hq : Reads (q a) w) :
    Reads (fun s => (p s).bind fun x => q x.1 x.2) (v ++ w) where
  all rest := by
    rw [List.append_assoc, hp.all]
    exact hq.all rest
  waits s hs hne := by
    rcases proper_prefix_append hs hne with ⟨hv, hnev⟩ | ⟨t, rfl, ht, hnet⟩
    · rw [hp.waits s hv hnev]
      rfl
    · rw [hp.all]
      exact hq.waits t ht hnet

end VoidCache
