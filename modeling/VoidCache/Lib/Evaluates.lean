import VoidCache.Lib.Calls

/-!
# Evaluating a program

`Evaluates exec C p s s' r` is the big-step view of a run: from `s` the program `p` ends in `s'`
and returns `r`, and each of its calls meets `C` in the state in which it is made. The rules build
an evaluation up from those of the parts. `Evaluates.simulates` carries it over to another way of
answering the calls: it is enough that related states answer the calls in `C` alike.
-/
namespace VoidCache

namespace Calls

variable {A : Type} {V : A → Type} {R S σ τ : Type}

def Evaluates (exec : σ → (a : A) → σ × V a) (C : σ → A → Prop) (p : Calls V R) (s s' : σ) (r : R) :
    Prop :=
  p.run exec s = (s', r) ∧ p.Along exec C s

namespace Evaluates

variable {exec : σ → (a : A) → σ × V a} {C : σ → A → Prop} {p : Calls V R} {s s₁ s' : σ} {r : R}

theorem pure (r : R) (s : σ) : Evaluates exec C (pure r) s s r := ⟨rfl, trivial⟩

theorem ask {a : A} (h : C s a) : Evaluates exec C (Calls.ask a) s (exec s a).1 (exec s a).2 :=
  ⟨rfl, h, trivial⟩

theorem bind {f : R → Calls V S} {r' : S} (hp : Evaluates exec C p s s₁ r)
    (hf : Evaluates exec C (f r) s₁ s' r') : Evaluates exec C (p >>= f) s s' r' := by
  obtain ⟨hrun, halong⟩ := hp
  refine ⟨?_, (along_bind p f s).mpr ⟨halong, ?_⟩⟩
  · rw [run_bind, hrun]
    exact hf.1
  · rw [hrun]
    exact hf.2

/-- One call, and the rest from what it leaves and returns. -/
theorem ask_bind {a : A} {f : V a → Calls V R} (h : C s a)
    (hf : Evaluates exec C (f (exec s a).2) (exec s a).1 s' r) :
    Evaluates exec C (Calls.ask a >>= f) s s' r :=
  bind (ask h) hf

theorem simulates {exec' : τ → (a : A) → τ × V a} {rel : σ → τ → Prop}
    (hexec : ∀ s t a, rel s t → C s a →
      (exec s a).2 = (exec' t a).2 ∧ rel (exec s a).1 (exec' t a).1)
    (h : Evaluates exec C p s s' r) {t : τ} (hst : rel s t) :
    ∃ t', p.run exec' t = (t', r) ∧ rel s' t' := by
  obtain ⟨hrun, halong⟩ := h
  induction p generalizing s t with
  | ret r₀ =>
    cases hrun
    exact ⟨t, rfl, hst⟩
  | call a next ih =>
    obtain ⟨hans, hnew⟩ := hexec s t a hst halong.1
    rw [run, ← hans]
    exact ih _ hnew hrun halong.2

end Evaluates

end Calls

end VoidCache
