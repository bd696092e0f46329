import VoidCache.Lib.Serial

/-!
# Programs that keep to a protocol

A `Protocol` gives a program a state of its own: it says which calls the program may make in that
state, and what the state is after an answer. `Follows` says that a program keeps to the protocol
whatever the answers are. If all programs of a pool do, an invariant that ties their states to
the shared one only has to be kept by each call that is allowed (`pool_inv`).
-/
namespace VoidCache

variable {A : Type} {V : A → Type} {R S G ι σ : Type}

structure Protocol (V : A → Type) (G : Type) where
  Allows : G → A → Prop
  after : G → (a : A) → V a → G

namespace Calls

/-- From the state `g`, the program makes only calls that are allowed, and ends in `Q`. -/
def Follows (T : Protocol V G) (Q : R → G → Prop) : Calls V R → G → Prop
  | ret r, g => Q r g
  | call a next, g => T.Allows g a ∧ ∀ v, (next v).Follows T Q (T.after g a v)

namespace Follows

variable {T : Protocol V G} {Q Q' : R → G → Prop} {T' : S → G → Prop} {g : G}

theorem pure {r : R} (h : Q r g) : Follows T Q (pure r) g := h

theorem ask {a : A} {Q : V a → G → Prop} (h : T.Allows g a) (hv : ∀ v, Q v (T.after g a v)) :
    Follows T Q (Calls.ask a) g :=
  ⟨h, hv⟩

theorem bind {p : Calls V R} {f : R → Calls V S} (hp : Follows T Q p g)
    (hf : ∀ r g, Q r g → Follows T T' (f r) g) : Follows T T' (p >>= f) g := by
  show Follows T T' (p.andThen f) g
  induction p generalizing g with
  | ret r => exact hf r g hp
  | call a next ih => exact ⟨hp.1, fun v => ih v (hp.2 v)⟩

theorem ask_bind {a : A} {f : V a → Calls V S} (h : T.Allows g a)
    (hf : ∀ v, Follows T T' (f v) (T.after g a v)) : Follows T T' (Calls.ask a >>= f) g :=
  ⟨h, hf⟩

theorem ite {c : Prop} [Decidable c] {p q : Calls V R} (hp : c → Follows T Q p g)
    (hq : ¬ c → Follows T Q q g) : Follows T Q (if c then p else q) g := by
  split
  · exact hp ‹_›
  · exact hq ‹_›

/-- Calls that are allowed in `g` and leave it as it is. -/
theorem of_meets {B : A → Prop} {D : R → Prop} {p : Calls V R} (hp : Meets B D p)
    (h : ∀ a, B a → T.Allows g a ∧ ∀ v, T.after g a v = g) : Follows T (fun r g' => D r ∧ g' = g) p g := by
  induction p with
  | ret r => exact ⟨hp, rfl⟩
  | call a next ih =>
    obtain ⟨hallows, hafter⟩ := h a hp.1
    refine ⟨hallows, fun v => ?_⟩
    rw [hafter v]
    exact ih v (hp.2 v)

theorem allows {p : Calls V R} (h : Follows T Q p g) {a : A} (ha : p.next? = some a) : T.Allows g a := by
  cases p with
  | ret r => cases ha
  | call b next =>
    cases ha
    exact h.1

end Follows

end Calls

section Pool

variable [DecidableEq ι] {exec : σ → (a : A) → σ × V a} {T : Protocol V G} {Q : R → G → Prop}
  {J : (ι → G) → σ → Prop} {C : σ → A → Prop}

/-- All programs keep to the protocol, from states that the invariant ties to the shared one. -/
def Pool.Tied (T : Protocol V G) (Q : R → G → Prop) (J : (ι → G) → σ → Prop) (p : Pool V R ι σ) : Prop :=
  ∃ gs, J gs p.state ∧ ∀ i, (p.prog i).Follows T Q (gs i)

theorem Pool.Tied.step {p : Pool V R ι σ} {i : ι} (h : p.Tied T Q J)
    (hexec : ∀ gs s i a, J gs s → T.Allows (gs i) a → C s a →
      J (Function.update gs i (T.after (gs i) a (exec s a).2)) (exec s a).1)
    (hC : ∀ a ∈ (p.prog i).next?, C p.state a) : (poolStep exec p i).1.Tied T Q J := by
  cases hp : p.prog i with
  | ret r =>
    rw [poolStep_of_ret hp]
    exact h
  | call a next =>
    obtain ⟨gs, hJ, hall⟩ := h
    have hi : (Calls.call a next).Follows T Q (gs i) := hp ▸ hall i
    rw [poolStep_of_call hp]
    refine ⟨_, hexec gs p.state i a hJ hi.1 (hC a (by rw [hp]; rfl)), fun j => ?_⟩
    by_cases hji : j = i
    · subst hji
      simpa only [Function.update_self] using hi.2 _
    · simpa only [Function.update_of_ne hji] using hall j

/-- What the programs may do, call by call, they may do in any interleaving. -/
theorem pool_inv
    (hexec : ∀ gs s i a, J gs s → T.Allows (gs i) a → C s a →
      J (Function.update gs i (T.after (gs i) a (exec s a).2)) (exec s a).1)
    {progs : ι → Calls V R} {gs : ι → G} {s : σ} (hprogs : ∀ i, (progs i).Follows T Q (gs i))
    (hJ : J gs s) {sched : List ι}
    (h : Machine.Along (poolStep exec) (fun p i => ∀ a ∈ (p.prog i).next?, C p.state a)
      (.start s progs) sched) :
    (Machine.run (poolStep exec) (.start s progs) sched).Tied T Q J :=
  Machine.run_inv (I := Pool.Tied T Q J) (fun _ _ hp hC => hp.step hexec hC) ⟨gs, hJ, hprogs⟩ h

end Pool

end VoidCache
