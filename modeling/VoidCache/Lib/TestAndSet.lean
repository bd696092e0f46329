import VoidCache.Lib.Machine
import Mathlib.Logic.Function.Basic

/-!
# A test and a set as two steps

Any number of clients race for a cell that is empty at first. Each tests the cell, and if it
found it empty, sets it in a later step and wins; otherwise it has lost. `one_winner_iff` says
that exactly one client wins if and only if no client tests while another is between its two
steps.
-/
namespace VoidCache

inductive Phase where
  | fresh | between | won | lost
  deriving DecidableEq

structure Race (ι D : Type) where
  cell : Option D
  phase : ι → Phase

namespace Race

variable {ι D : Type} [DecidableEq ι] {value : ι → D} {s : Race ι D} {i j : ι}

def start : Race ι D := ⟨none, fun _ => .fresh⟩

/-- The next step of client `i`, if it has one. -/
def step (value : ι → D) (s : Race ι D) (i : ι) : Race ι D × Unit :=
  match s.phase i with
  | .fresh => (⟨s.cell, Function.update s.phase i (if s.cell.isSome then .lost else .between)⟩, ())
  | .between => (⟨some (value i), Function.update s.phase i .won⟩, ())
  | .won => (s, ())
  | .lost => (s, ())

/-- No client tests while another is between its test and its set. -/
def Apart (s : Race ι D) (i : ι) : Prop := s.phase i = .fresh → ∀ j, s.phase j ≠ .between

/-- The client found the cell empty. -/
def In (s : Race ι D) (i : ι) : Prop := s.phase i = .between ∨ s.phase i = .won

/-- An empty cell has no winner and no loser yet; a full one has the value of a winner. -/
def Sound (value : ι → D) (s : Race ι D) : Prop :=
  match s.cell with
  | none => ∀ i, s.phase i ≠ .won ∧ s.phase i ≠ .lost
  | some d => ∃ i, s.phase i = .won ∧ value i = d

theorem phase_step_of_ne (h : j ≠ i) : (step value s i).1.phase j = s.phase j := by
  unfold step
  split <;> simp [h]

theorem Sound.step (h : s.Sound value) (i : ι) : (step value s i).1.Sound value := by
  unfold Race.step
  split
  · rename_i hi
    unfold Sound at h ⊢
    dsimp only
    split at h
    · rename_i hc
      rw [hc]
      intro j
      by_cases hj : j = i
      · simp [hj]
      · simpa [hj] using h j
    · rename_i d hc
      rw [hc]
      obtain ⟨w, hw, hd⟩ := h
      have hwi : w ≠ i := fun he => by rw [he, hi] at hw; cases hw
      exact ⟨w, by simpa [hwi] using hw, hd⟩
  · exact ⟨i, by simp, rfl⟩
  · exact h
  · exact h

theorem In.step (h : s.In j) (i : ι) : (step value s i).1.In j := by
  by_cases hj : j = i
  · subst hj
    unfold Race.step In
    rcases h with h | h
    · simp [h]
    · simp [h]
  · unfold In
    rwa [phase_step_of_ne hj]

theorem In.run (h : s.In j) (sched : List ι) : (Machine.run (Race.step value) s sched).In j :=
  Machine.run_inv (P := fun _ _ => True) (I := fun s : Race ι D => s.In j) (fun _ i hs _ => hs.step i) h
    (Machine.along_of_forall fun _ _ _ => trivial)

theorem Sound.run (h : s.Sound value) (sched : List ι) :
    (Machine.run (Race.step value) s sched).Sound value :=
  Machine.run_inv (P := fun _ _ => True) (fun _ i hs _ => hs.step i) h
    (Machine.along_of_forall fun _ _ _ => trivial)

/-- Whoever is in, a test that overlaps with no other keeps the others out. -/
theorem in_of_step (hs : s.Sound value) (hi : s.Apart i) (hj : (step value s i).1.In j) :
    s.In j ∨ j = i ∧ ∀ l, ¬ s.In l := by
  by_cases hji : j = i
  · subst hji
    cases hp : s.phase j with
    | fresh =>
      cases hc : s.cell with
      | none =>
        refine .inr ⟨rfl, fun l hl => ?_⟩
        unfold Sound at hs
        rw [hc] at hs
        rcases hl with hl | hl
        · exact hi hp l hl
        · exact (hs l).1 hl
      | some d => simp [step, hp, hc, In] at hj
    | between => exact .inl (.inl hp)
    | won => exact .inl (.inr hp)
    | lost => simp [step, hp, In] at hj
  · unfold In at hj
    rw [phase_step_of_ne hji] at hj
    exact .inl hj

/-- Apart, the clients let in one of them at most. -/
theorem at_most_one {sched : List ι} (h : Machine.Along (step value) Apart start sched) :
    ∀ i j, (Machine.run (step value) start sched).In i → (Machine.run (step value) start sched).In j →
      i = j := by
  refine (Machine.run_inv (I := fun s : Race ι D => s.Sound value ∧ ∀ i j, s.In i → s.In j → i = j)
    (fun s l hs hl => ⟨hs.1.step l, fun i j hi hj => ?_⟩) ⟨?_, ?_⟩ h).2
  · rcases in_of_step hs.1 hl hi with hi | ⟨rfl, hnone⟩
    · rcases in_of_step hs.1 hl hj with hj | ⟨-, hnone⟩
      · exact hs.2 i j hi hj
      · exact absurd hi (hnone i)
    · rcases in_of_step hs.1 hl hj with hj | ⟨rfl, -⟩
      · exact absurd hj (hnone j)
      · rfl
  · intro i
    simp [start]
  · intro i j hi
    simp [start, In] at hi

/-- Two clients that were both between their steps, or that tested at the same time as a winner
was, both get in. -/
theorem apart_of_at_most_one {sched : List ι} (hs : s.Sound value)
    (hone : ∀ i j, (Machine.run (step value) s sched).In i →
      (Machine.run (step value) s sched).In j → i = j) :
    Machine.Along (step value) Apart s sched := by
  induction sched generalizing s with
  | nil => trivial
  | cons i sched ih =>
    refine ⟨fun hi j hj => ?_, ih (hs.step i) hone⟩
    have hji : j ≠ i := fun he => by rw [he, hi] at hj; cases hj
    have hinj : s.In j := .inl hj
    have hend : (Machine.run (step value) (step value s i).1 sched).In j := (hinj.step i).run sched
    unfold Sound at hs
    cases hc : s.cell with
    | none =>
      have hin : (step value s i).1.In i := .inl (by simp [step, hi, hc])
      exact hji (hone j i hend (hin.run sched))
    | some d =>
      rw [hc] at hs
      obtain ⟨w, hw, -⟩ := hs
      have hinw : s.In w := .inr hw
      have hwj : w = j := hone w j ((hinw.step i).run sched) hend
      rw [hwj, hj] at hw
      cases hw

/-- Exactly one client wins, and the cell has its value, if and only if no client tests while
another is between its test and its set. -/
theorem one_winner_iff [Nonempty ι] {sched : List ι}
    (hdone : ∀ i, (Machine.run (step value) start sched).phase i = .won ∨
      (Machine.run (step value) start sched).phase i = .lost) :
    (∃ i, (Machine.run (step value) start sched).phase i = .won ∧
        (∀ j, j ≠ i → (Machine.run (step value) start sched).phase j = .lost) ∧
        (Machine.run (step value) start sched).cell = some (value i)) ↔
      Machine.Along (step value) Apart start sched := by
  have hsound : (start : Race ι D).Sound value := fun i => by simp [start]
  have hwon {i : ι} (hi : (Machine.run (step value) start sched).In i) :
      (Machine.run (step value) start sched).phase i = .won := by
    rcases hi with hi | hi
    · rcases hdone i with h | h <;> rw [hi] at h <;> cases h
    · exact hi
  constructor
  · rintro ⟨i, -, hlost, -⟩
    have honly {j : ι} (hj : (Machine.run (step value) start sched).In j) : j = i := by
      by_contra hne
      have h := hwon hj
      rw [hlost j hne] at h
      cases h
    exact apart_of_at_most_one hsound fun j l hj hl => (honly hj).trans (honly hl).symm
  · intro h
    have hend := hsound.run sched
    unfold Sound at hend
    split at hend
    · obtain ⟨i⟩ := ‹Nonempty ι›
      rcases hdone i with hi | hi
      · exact absurd hi (hend i).1
      · exact absurd hi (hend i).2
    · rename_i d hd
      obtain ⟨w, hw, rfl⟩ := hend
      refine ⟨w, hw, fun j hj => ?_, hd⟩
      exact (hdone j).resolve_left fun hj' => hj (at_most_one h j w (.inr hj') (.inr hw))

end Race

end VoidCache
