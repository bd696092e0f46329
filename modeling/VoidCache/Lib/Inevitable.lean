import VoidCache.Lib.Machine

/-!
# What a machine cannot avoid

`Inevitable step Q s` says that every run from `s` comes to a state with `Q`, whatever actions are
chosen on the way. It is proved with a variant and put together by `trans`.
-/
namespace VoidCache

variable {σ α ρ : Type} {step : σ → α → σ × ρ} {P Q : σ → Prop} {s : σ}

inductive Inevitable (step : σ → α → σ × ρ) (Q : σ → Prop) : σ → Prop where
  | now {s : σ} (h : Q s) : Inevitable step Q s
  | next {s : σ} (h : ∀ a, Inevitable step Q (step s a).1) : Inevitable step Q s

namespace Inevitable

theorem trans (h : Inevitable step P s) (hPQ : ∀ s, P s → Inevitable step Q s) :
    Inevitable step Q s := by
  induction h with
  | now h => exact hPQ _ h
  | next _ ih => exact .next ih

/-- An invariant and a variant that goes down until `Q` holds. -/
theorem of_variant {β : Type} {r : β → β → Prop} (hr : WellFounded r) (f : σ → β) {I : σ → Prop}
    (hstep : ∀ s, I s → ¬ Q s → ∀ a, I (step s a).1 ∧ r (f (step s a).1) (f s)) (hI : I s) :
    Inevitable step (fun s => I s ∧ Q s) s := by
  induction h : f s using hr.induction generalizing s with
  | _ b ih =>
    by_cases hQ : Q s
    · exact .now ⟨hI, hQ⟩
    · refine .next fun a => ?_
      obtain ⟨hI', hlt⟩ := hstep s hI hQ a
      exact ih _ (h ▸ hlt) hI' rfl

/-- Every sequence of choices gets there. -/
theorem exists_run (h : Inevitable step Q s) (as : Nat → α) :
    ∃ n, Q (Machine.run step s ((List.range n).map as)) := by
  induction h generalizing as with
  | now h => exact ⟨0, h⟩
  | next _ ih =>
    obtain ⟨n, hn⟩ := ih (as 0) fun i => as (i + 1)
    refine ⟨n + 1, ?_⟩
    rw [List.range_succ_eq_map, List.map_cons, List.map_map]
    exact hn

end Inevitable

end VoidCache
