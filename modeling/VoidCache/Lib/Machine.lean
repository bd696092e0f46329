import Mathlib.Data.List.Basic

/-!
# Runs of a deterministic machine with results

`step` maps a state and an action to the next state and a result. `run` is the state
after a list of actions, `trace` the actions with their results, and `Along P` says that
each action meets the condition `P` in the state just before it. `trace_inv` is the one
induction over runs: an invariant of the trace so far and the current state.
-/
namespace VoidCache.Machine

variable {σ α ρ : Type} (step : σ → α → σ × ρ)

def run : σ → List α → σ
  | s, [] => s
  | s, a :: as => run (step s a).1 as

def trace : σ → List α → List (α × ρ)
  | _, [] => []
  | s, a :: as => (a, (step s a).2) :: trace (step s a).1 as

/-- Every action of the run meets `P` in the state in which it is taken. -/
def Along (P : σ → α → Prop) : σ → List α → Prop
  | _, [] => True
  | s, a :: as => P s a ∧ Along P (step s a).1 as

/-- Conditions on concrete runs can be evaluated. -/
instance decidableAlong {P : σ → α → Prop} [∀ s a, Decidable (P s a)] :
    ∀ (s : σ) (as : List α), Decidable (Along step P s as)
  | _, [] => isTrue trivial
  | s, a :: as => @instDecidableAnd _ _ _ (decidableAlong (step s a).1 as)

variable {step}

@[simp] theorem run_append (s : σ) (as bs : List α) :
    run step s (as ++ bs) = run step (run step s as) bs := by
  induction as generalizing s with
  | nil => rfl
  | cons a as ih => exact ih _

theorem trace_append (s : σ) (as bs : List α) :
    trace step s (as ++ bs) = trace step s as ++ trace step (run step s as) bs := by
  induction as generalizing s with
  | nil => rfl
  | cons a as ih => exact congrArg (_ :: ·) (ih _)

@[simp] theorem map_fst_trace (s : σ) (as : List α) : (trace step s as).map Prod.fst = as := by
  induction as generalizing s with
  | nil => rfl
  | cons a as ih => simp [trace, ih]

theorem along_append {P : σ → α → Prop} {s : σ} {as bs : List α} :
    Along step P s (as ++ bs) ↔ Along step P s as ∧ Along step P (run step s as) bs := by
  induction as generalizing s with
  | nil => simp [Along, run]
  | cons a as ih => simp [Along, run, ih, and_assoc]

/-- A condition that the actions meet in every state. -/
theorem along_of_forall {P : σ → α → Prop} {s : σ} {as : List α} (h : ∀ a ∈ as, ∀ s, P s a) :
    Along step P s as := by
  induction as generalizing s with
  | nil => trivial
  | cons a as ih => exact ⟨h a (by simp) s, ih fun b hb => h b (by simp [hb])⟩

/-- Conditions that mean the same in every state. -/
theorem along_congr {P Q : σ → α → Prop} (h : ∀ s a, P s a ↔ Q s a) {s : σ} {as : List α} :
    Along step P s as ↔ Along step Q s as := by
  induction as generalizing s with
  | nil => exact Iff.rfl
  | cons a as ih => exact and_congr (h s a) ih

theorem Along.imp {P Q : σ → α → Prop} {s : σ} {as : List α} (hP : Along step P s as)
    (h : ∀ s a, P s a → Q s a) : Along step Q s as := by
  induction as generalizing s with
  | nil => trivial
  | cons a as ih => exact ⟨h s a hP.1, ih hP.2⟩

/-- A property of all actions may be added to the condition. -/
theorem Along.and_forall {P : σ → α → Prop} {Q : α → Prop} {s : σ} {as : List α}
    (h : Along step P s as) (hQ : ∀ a ∈ as, Q a) : Along step (fun s a => P s a ∧ Q a) s as := by
  induction as generalizing s with
  | nil => trivial
  | cons a as ih =>
    exact ⟨⟨h.1, hQ a (by simp)⟩, ih h.2 fun b hb => hQ b (by simp [hb])⟩

/-- Invariants of the trace so far together with the current state. -/
theorem trace_inv {P : σ → α → Prop} {I : List (α × ρ) → σ → Prop}
    (hstep : ∀ tr s a, I tr s → P s a → I (tr ++ [(a, (step s a).2)]) (step s a).1)
    (tr : List (α × ρ)) {s : σ} {as : List α} (h0 : I tr s) (h : Along step P s as) :
    I (tr ++ trace step s as) (run step s as) := by
  induction as generalizing tr s with
  | nil => simpa [trace, run] using h0
  | cons a as ih =>
    have := ih _ (hstep tr s a h0 h.1) h.2
    simpa [trace, run] using this

/-- Invariants of the current state alone. -/
theorem run_inv {P : σ → α → Prop} {I : σ → Prop}
    (hstep : ∀ s a, I s → P s a → I (step s a).1) {s : σ} {as : List α} (h0 : I s)
    (h : Along step P s as) : I (run step s as) :=
  trace_inv (I := fun _ => I) (fun _ s a => hstep s a) [] h0 h

/-- Two machines that go along with each other, action by action. -/
theorem run_simulates {τ ρ' : Type} {step' : τ → α → τ × ρ'} {P : σ → α → Prop} {P' : τ → α → Prop}
    {Rel : σ → τ → Prop}
    (hstep : ∀ s t a, Rel s t → P s a → P' t a ∧ Rel (step s a).1 (step' t a).1) {s : σ} {t : τ}
    {as : List α} (hst : Rel s t) (h : Along step P s as) :
    Along step' P' t as ∧ Rel (run step s as) (run step' t as) := by
  induction as generalizing s t with
  | nil => exact ⟨trivial, hst⟩
  | cons a as ih =>
    obtain ⟨ha, hst'⟩ := hstep s t a hst h.1
    obtain ⟨has, hend⟩ := ih hst' h.2
    exact ⟨⟨ha, has⟩, hend⟩

/-- Conditions that mean the same on both sides of a simulation. -/
theorem along_iff {τ ρ' : Type} {step' : τ → α → τ × ρ'} {P Q : σ → α → Prop} {Q' : τ → α → Prop}
    {Rel : σ → τ → Prop}
    (hstep : ∀ s t a, Rel s t → P s a → (Q s a ↔ Q' t a) ∧ Rel (step s a).1 (step' t a).1)
    {s : σ} {t : τ} {as : List α} (hst : Rel s t) (h : Along step P s as) :
    Along step Q s as ↔ Along step' Q' t as := by
  induction as generalizing s t with
  | nil => exact Iff.rfl
  | cons a as ih =>
    obtain ⟨hq, hst'⟩ := hstep s t a hst h.1
    exact and_congr hq (ih hst' h.2)

end VoidCache.Machine
