import Mathlib.Logic.Basic

/-!
# Programs that make calls

A `Calls` program asks its surroundings one question at a time: a call `a : A` is answered
with a value of type `V a`. What a program does is thus separate from what the calls do.
`run` answers the calls from a state, one after the other. `Meets P Q` says that whatever the
answers are, the program only makes calls in `P` and returns results in `Q`; its rules follow
the way programs are put together, and `run_meets` turns it into a statement about runs. `Triple`
is about runs from the start: a precondition, a condition on each call, and a postcondition.
-/
namespace VoidCache

inductive Calls {A : Type} (V : A → Type) (R : Type) where
  | ret (r : R)
  | call (a : A) (next : V a → Calls V R)

namespace Calls

variable {A : Type} {V : A → Type} {R S σ : Type}

def andThen : Calls V R → (R → Calls V S) → Calls V S
  | ret r, f => f r
  | call a next, f => call a fun v => (next v).andThen f

instance : Monad (Calls V) where
  pure := ret
  bind := andThen

/-- Make one call. -/
def ask (a : A) : Calls V (V a) := call a ret

/-- Answer the calls from a state. -/
def run (exec : σ → (a : A) → σ × V a) : Calls V R → σ → σ × R
  | ret r, s => (s, r)
  | call a next, s => (next (exec s a).2).run exec (exec s a).1

theorem run_bind (exec : σ → (a : A) → σ × V a) (p : Calls V R) (f : R → Calls V S) (s : σ) :
    (p >>= f).run exec s = (f (p.run exec s).2).run exec (p.run exec s).1 := by
  show (p.andThen f).run exec s = _
  induction p generalizing s with
  | ret r => rfl
  | call a next ih => exact ih _ _

/-- Whatever the answers, all calls are in `P` and the result is in `Q`. -/
def Meets (P : A → Prop) (Q : R → Prop) : Calls V R → Prop
  | ret r => Q r
  | call a next => P a ∧ ∀ v, (next v).Meets P Q

section Rules

variable {P P' : A → Prop} {Q Q' : R → Prop} {T : S → Prop}

namespace Meets

theorem pure {r : R} (h : Q r) : Meets P Q (pure r : Calls V R) := h

theorem ask {a : A} {T : V a → Prop} (h : P a) (hv : ∀ v, T v) : Meets P T (Calls.ask a) :=
  ⟨h, hv⟩

theorem bind {p : Calls V R} {f : R → Calls V S} (hp : Meets P Q p)
    (hf : ∀ r, Q r → Meets P T (f r)) : Meets P T (p >>= f) := by
  show Meets P T (p.andThen f)
  induction p with
  | ret r => exact hf r hp
  | call a next ih => exact ⟨hp.1, fun v => ih v (hp.2 v)⟩

/-- The common case: one call, and something for each answer. -/
theorem ask_bind {a : A} {f : V a → Calls V S} (h : P a) (hf : ∀ v, Meets P T (f v)) :
    Meets P T (Calls.ask a >>= f) :=
  ⟨h, hf⟩

theorem ite {c : Prop} [Decidable c] {p q : Calls V R} (hp : c → Meets P Q p)
    (hq : ¬ c → Meets P Q q) : Meets P Q (if c then p else q) := by
  split
  · exact hp ‹_›
  · exact hq ‹_›

theorem mono {p : Calls V R} (h : Meets P Q p) (hP : ∀ a, P a → P' a) (hQ : ∀ r, Q r → Q' r) :
    Meets P' Q' p := by
  induction p with
  | ret r => exact hQ r h
  | call a next ih => exact ⟨hP a h.1, fun v => ih v (h.2 v)⟩

end Meets

/-- An invariant that the calls in `P` keep holds after the run, and the result is in `Q`. -/
theorem run_meets {exec : σ → (a : A) → σ × V a} {I : σ → Prop}
    (hexec : ∀ s a, P a → I s → I (exec s a).1) {p : Calls V R} (hp : Meets P Q p) {s : σ}
    (hs : I s) : I (p.run exec s).1 ∧ Q (p.run exec s).2 := by
  induction p generalizing s with
  | ret r => exact ⟨hs, hp⟩
  | call a next ih => exact ih _ (hp.2 _) (hexec s a hp.1 hs)

/-- The result alone, whatever the calls do. -/
theorem result_meets {p : Calls V R} (hp : Meets P Q p) (exec : σ → (a : A) → σ × V a) (s : σ) :
    Q (p.run exec s).2 :=
  (run_meets (I := fun _ => True) (fun _ _ _ _ => trivial) hp trivial).2

/-- Every call of the run meets `C` in the state in which it is made. -/
def Along (exec : σ → (a : A) → σ × V a) (C : σ → A → Prop) : Calls V R → σ → Prop
  | ret _, _ => True
  | call a next, s => C s a ∧ (next (exec s a).2).Along exec C (exec s a).1

instance decidableAlong {exec : σ → (a : A) → σ × V a} {C : σ → A → Prop}
    [hC : ∀ s a, Decidable (C s a)] : (p : Calls V R) → (s : σ) → Decidable (p.Along exec C s)
  | ret _, _ => isTrue trivial
  | call a next, s => @instDecidableAnd _ _ (hC s a) (decidableAlong (next (exec s a).2) (exec s a).1)

theorem along_bind {exec : σ → (a : A) → σ × V a} {C : σ → A → Prop} (p : Calls V R)
    (f : R → Calls V S) (s : σ) : (p >>= f).Along exec C s ↔
      p.Along exec C s ∧ (f (p.run exec s).2).Along exec C (p.run exec s).1 := by
  show (p.andThen f).Along exec C s ↔ _
  induction p generalizing s with
  | ret r => exact ⟨fun h => ⟨trivial, h⟩, fun h => h.2⟩
  | call a next ih => exact (and_congr_right fun _ => ih _ _).trans and_assoc.symm

theorem Along.imp {exec : σ → (a : A) → σ × V a} {C D : σ → A → Prop} {p : Calls V R} {s : σ}
    (h : p.Along exec C s) (hCD : ∀ s a, C s a → D s a) : p.Along exec D s := by
  induction p generalizing s with
  | ret r => trivial
  | call a next ih => exact ⟨hCD s a h.1, ih _ h.2⟩

/-- What is done with the result makes no further calls. -/
theorem along_bind_pure {exec : σ → (a : A) → σ × V a} {C : σ → A → Prop} (p : Calls V R) (f : R → S)
    (s : σ) : (p >>= fun r => pure (f r)).Along exec C s ↔ p.Along exec C s :=
  (along_bind p _ s).trans (and_iff_left trivial)

/-- The calls of a run with their answers, in order. -/
def log (exec : σ → (a : A) → σ × V a) : Calls V R → σ → List ((a : A) × V a)
  | ret _, _ => []
  | call a next, s => ⟨a, (exec s a).2⟩ :: (next (exec s a).2).log exec (exec s a).1

theorem log_bind (exec : σ → (a : A) → σ × V a) (p : Calls V R) (f : R → Calls V S) (s : σ) :
    (p >>= f).log exec s = p.log exec s ++ (f (p.run exec s).2).log exec (p.run exec s).1 := by
  show (p.andThen f).log exec s = _
  induction p generalizing s with
  | ret r => rfl
  | call a next ih => exact congrArg (_ :: ·) (ih _ _)

theorem log_bind_pure (exec : σ → (a : A) → σ × V a) (p : Calls V R) (f : R → S) (s : σ) :
    (p >>= fun r => pure (f r)).log exec s = p.log exec s :=
  (log_bind exec p _ s).trans (List.append_nil _)

/-- Two ways to answer the calls in `P`, related as long as `C` holds of the calls, give the
same result. -/
theorem run_simulates {τ : Type} {exec : σ → (a : A) → σ × V a} {exec' : τ → (a : A) → τ × V a}
    {rel : σ → τ → Prop} {C : σ → A → Prop}
    (hexec : ∀ s t a, P a → rel s t → C s a →
      (exec s a).2 = (exec' t a).2 ∧ rel (exec s a).1 (exec' t a).1)
    {p : Calls V R} (hp : Meets P Q p) {s : σ} {t : τ} (hst : rel s t) (h : p.Along exec C s) :
    (p.run exec s).2 = (p.run exec' t).2 ∧ rel (p.run exec s).1 (p.run exec' t).1 := by
  induction p generalizing s t with
  | ret r => exact ⟨rfl, hst⟩
  | call a next ih =>
    obtain ⟨hans, hnew⟩ := hexec s t a hp.1 hst h.1
    have hrest := ih (exec s a).2 (hp.2 _) hnew h.2
    rw [run, run, ← hans]
    exact hrest

end Rules

/-! ## Pre- and postconditions -/

/-- From every state in `P`, if all calls of the run meet `C` when they are made, the result
and the last state are in `Q`. -/
def Triple (exec : σ → (a : A) → σ × V a) (C : σ → A → Prop) (P : σ → Prop) (p : Calls V R)
    (Q : R → σ → Prop) : Prop :=
  ∀ s, P s → p.Along exec C s → Q (p.run exec s).2 (p.run exec s).1

namespace Triple

variable {exec : σ → (a : A) → σ × V a} {C : σ → A → Prop} {P P' : σ → Prop} {Q Q' : R → σ → Prop}
  {T : S → σ → Prop}

theorem pure {r : R} (h : ∀ s, P s → Q r s) : Triple exec C P (pure r) Q := fun s hs _ => h s hs

theorem bind {p : Calls V R} {f : R → Calls V S} (hp : Triple exec C P p Q)
    (hf : ∀ r, Triple exec C (Q r) (f r) T) : Triple exec C P (p >>= f) T := by
  intro s hs h
  obtain ⟨h₁, h₂⟩ := (along_bind p f s).mp h
  rw [run_bind]
  exact hf _ _ (hp s hs h₁) h₂

/-- One call: what it leaves and returns. -/
theorem ask {a : A} {Q : V a → σ → Prop} (h : ∀ s, P s → C s a → Q (exec s a).2 (exec s a).1) :
    Triple exec C P (Calls.ask a) Q := fun s hs ha => h s hs ha.1

theorem ask_bind {a : A} {f : V a → Calls V S} {Q : V a → σ → Prop}
    (h : ∀ s, P s → C s a → Q (exec s a).2 (exec s a).1) (hf : ∀ v, Triple exec C (Q v) (f v) T) :
    Triple exec C P (Calls.ask a >>= f) T :=
  bind (ask h) hf

theorem ite {c : Prop} [Decidable c] {p q : Calls V R} (hp : c → Triple exec C P p Q)
    (hq : ¬ c → Triple exec C P q Q) : Triple exec C P (if c then p else q) Q := by
  split
  · exact hp ‹_›
  · exact hq ‹_›

theorem mono {p : Calls V R} (h : Triple exec C P p Q) (hP : ∀ s, P' s → P s)
    (hQ : ∀ r s, Q r s → Q' r s) : Triple exec C P' p Q' :=
  fun s hs ha => hQ _ _ (h s (hP s hs) ha)

/-- Under a stronger condition on the calls. -/
theorem strengthen {D : σ → A → Prop} {p : Calls V R} (h : Triple exec D P p Q)
    (hCD : ∀ s a, C s a → D s a) : Triple exec C P p Q := fun s hs ha => h s hs (ha.imp hCD)

theorem and {p : Calls V R} (h : Triple exec C P p Q) (h' : Triple exec C P' p Q') :
    Triple exec C (fun s => P s ∧ P' s) p fun r s => Q r s ∧ Q' r s :=
  fun s hs ha => ⟨h s hs.1 ha, h' s hs.2 ha⟩

/-- Calls that keep `P`, whatever is returned. -/
theorem of_meets {B : A → Prop} {p : Calls V R} {D : R → Prop} (hp : Meets B D p)
    (hexec : ∀ s a, B a → P s → P (exec s a).1) : Triple exec C P p fun r s => P s ∧ D r :=
  fun _ hs _ => run_meets hexec hp hs

end Triple

end Calls

end VoidCache
