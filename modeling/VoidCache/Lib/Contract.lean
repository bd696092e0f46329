import VoidCache.Lib.Protocol
import Mathlib.Logic.Function.Basic

/-!
# Programs that keep to a contract with their surroundings

A contract is a protocol with two sides. It says which calls a program may make, and which answers
it may get: after an answer that breaks the contract nothing is asked of the program any more.
`pool_honours` is the rule for programs that run at the same time and share a state.

What such programs share is often divided among them. `Divided own live` says that every thing that
is `live` belongs to just one of them, and that no other thing belongs to any.
-/
namespace VoidCache

/-! ## Contracts -/

section Contract

variable {A : Type} {V : A → Type} {R S G ι σ : Type}

structure Contract (V : A → Type) (G : Type) where
  Allows : G → A → Prop
  /-- The state after an answer, or `none` if the answer breaks the contract. -/
  after : G → (a : A) → V a → Option G

def Contract.protocol (T : Contract V G) : Protocol V (Option G) where
  Allows g a := ∀ h, g = some h → T.Allows h a
  after g a v := g.bind fun h => T.after h a v

/-- From the state `g` the program makes only calls that are allowed, and ends in `Q`, as long as
the answers are allowed as well. -/
def Calls.Honours (T : Contract V G) (Q : R → G → Prop) (p : Calls V R) (g : G) : Prop :=
  p.Follows T.protocol (fun r g => ∀ h, g = some h → Q r h) (some g)

namespace Calls.Honours

variable {T : Contract V G} {Q : R → G → Prop} {Q' : S → G → Prop} {g : G}

theorem follows_none (p : Calls V R) :
    p.Follows T.protocol (fun r g => ∀ h, g = some h → Q r h) none := by
  induction p with
  | ret r => exact fun h hh => absurd hh (by simp)
  | call a next ih => exact ⟨fun h hh => absurd hh (by simp), ih⟩

theorem pure {r : R} (h : Q r g) : Honours T Q (pure r) g := by
  intro g' hg'
  cases hg'
  exact h

theorem ask_bind {a : A} {f : V a → Calls V S} (h : T.Allows g a)
    (hf : ∀ v g', T.after g a v = some g' → Honours T Q' (f v) g') :
    Honours T Q' (Calls.ask a >>= f) g := by
  refine ⟨fun g' hg' => Option.some.inj hg' ▸ h, fun v => ?_⟩
  show (f v).Follows T.protocol _ (T.after g a v)
  cases hafter : T.after g a v with
  | none => exact follows_none (f v)
  | some g' => exact hf v g' hafter

theorem ask {a : A} {Q : V a → G → Prop} (h : T.Allows g a)
    (hQ : ∀ v g', T.after g a v = some g' → Q v g') : Honours T Q (Calls.ask a) g :=
  ask_bind h fun v g' hg' => pure (hQ v g' hg')

theorem bind {p : Calls V R} {f : R → Calls V S} (hp : Honours T Q p g)
    (hf : ∀ r g', Q r g' → Honours T Q' (f r) g') : Honours T Q' (p >>= f) g := by
  refine Follows.bind hp fun r g' hr => ?_
  cases g' with
  | none => exact follows_none (f r)
  | some h => exact hf r h (hr h rfl)

theorem weaken {P : R → G → Prop} {p : Calls V R} (hp : Honours T P p g)
    (h : ∀ r g', P r g' → Q r g') : Honours T Q p g := by
  unfold Honours at hp ⊢
  -- also from a state in which the contract is broken
  generalize some g = g' at hp ⊢
  induction p generalizing g' with
  | ret r => exact fun g hg => h r g (hp g hg)
  | call a next ih => exact ⟨hp.1, fun v => ih v _ (hp.2 v)⟩

theorem returned {r : R} (h : Honours T Q (.ret r) g) : Q r g := h g rfl

theorem allows {p : Calls V R} (h : Honours T Q p g) {a : A} (ha : p.next? = some a) : T.Allows g a :=
  Follows.allows h ha g rfl

end Calls.Honours

/-- Programs that honour a contract, over a shared state that answers as the contract says. -/
theorem pool_honours [DecidableEq ι] {exec : σ → (a : A) → σ × V a} {T : Contract V G}
    {Q : R → G → Prop} {J : (ι → G) → σ → Prop} {C : σ → A → Prop}
    (hexec : ∀ gs s i a, J gs s → T.Allows (gs i) a → C s a →
      ∃ g, T.after (gs i) a (exec s a).2 = some g ∧ J (Function.update gs i g) (exec s a).1)
    {progs : ι → Calls V R} {gs : ι → G} {s : σ} (hprogs : ∀ i, (progs i).Honours T Q (gs i))
    (hJ : J gs s) {sched : List ι}
    (h : Machine.Along (poolStep exec) (fun p i => ∀ a ∈ (p.prog i).next?, C p.state a)
      (.start s progs) sched) :
    ∃ gs, J gs (Machine.run (poolStep exec) (.start s progs) sched).state ∧
      ∀ i, ((Machine.run (poolStep exec) (.start s progs) sched).prog i).Honours T Q (gs i) := by
  let J' (gs : ι → Option G) (s : σ) : Prop := ∃ hs, (gs = fun i => some (hs i)) ∧ J hs s
  have hkeeps : ∀ gs s i a, J' gs s → T.protocol.Allows (gs i) a → C s a →
      J' (Function.update gs i (T.protocol.after (gs i) a (exec s a).2)) (exec s a).1 := by
    rintro _ s i a ⟨hs, rfl, hJ⟩ hallows hC
    obtain ⟨g, hafter, hJ'⟩ := hexec hs s i a hJ (hallows (hs i) rfl) hC
    refine ⟨Function.update hs i g, ?_, hJ'⟩
    have hnext : T.protocol.after (some (hs i)) a (exec s a).2 = some g := hafter
    funext j
    rw [hnext]
    by_cases hj : j = i
    · rw [hj, Function.update_self, Function.update_self]
    · rw [Function.update_of_ne hj, Function.update_of_ne hj]
  obtain ⟨gs', ⟨hs, rfl, hJ'⟩, hall⟩ := pool_inv hkeeps hprogs ⟨gs, rfl, hJ⟩ h
  exact ⟨hs, hJ', hall⟩

end Contract

/-! ## Owners -/

section Owners

variable {ι X P : Type} {own : ι → X → Option P} {live live' : X → Prop} {i j : ι} {x : X}

/-- `own i x` is what `i` knows about `x`, if `x` belongs to it. -/
structure Divided (own : ι → X → Option P) (live : X → Prop) : Prop where
  live_iff : ∀ x, live x ↔ ∃ i, own i x ≠ none
  one : ∀ i j x, own i x ≠ none → own j x ≠ none → i = j

namespace Divided

theorem live_of (h : Divided own live) (hx : own i x ≠ none) : live x := (h.live_iff x).mpr ⟨i, hx⟩

theorem eq_none (h : Divided own live) (hx : own i x ≠ none) (hj : j ≠ i) : own j x = none := by
  by_contra hne
  exact hj (h.one j i x hne hx)

theorem eq_none_of_not_live (h : Divided own live) (hx : ¬ live x) : own j x = none := by
  by_contra hne
  exact hx (h.live_of hne)

theorem nothing (hlive : ∀ x, ¬ live x) : Divided (fun (_ : ι) (_ : X) => (none : Option P)) live :=
  ⟨fun x => iff_of_false (hlive x) (by simp), by simp⟩

theorem same [DecidableEq ι] (h : Divided own live) (i : ι) :
    Divided (Function.update own i (own i)) live := by
  rwa [Function.update_eq_self]

/-- One of them gets a thing, loses it, or learns something new about it. -/
theorem set [DecidableEq ι] [DecidableEq X] (h : Divided own live) (hx : ∀ j, j ≠ i → own j x = none)
    {o : Option P} (hlive : ∀ y, live' y ↔ if y = x then o ≠ none else live y) :
    Divided (Function.update own i (Function.update (own i) x o)) live' := by
  have hother {j : ι} {y : X} (hy : y ≠ x) :
      Function.update own i (Function.update (own i) x o) j y = own j y := by
    by_cases hj : j = i
    · rw [hj, Function.update_self, Function.update_of_ne hy]
    · rw [Function.update_of_ne hj]
  have hthis {j : ι} :
      Function.update own i (Function.update (own i) x o) j x ≠ none ↔ j = i ∧ o ≠ none := by
    by_cases hj : j = i
    · simp [hj]
    · simp [hj, hx j hj]
  constructor
  · intro y
    rw [hlive]
    by_cases hy : y = x
    · subst hy
      simp only [hthis, if_pos]
      exact ⟨fun ho => ⟨i, rfl, ho⟩, fun ⟨_, _, ho⟩ => ho⟩
    · simp only [if_neg hy, hother hy]
      exact h.live_iff y
  · intro j k y hj hk
    by_cases hy : y = x
    · subst hy
      exact (hthis.mp hj).1.trans (hthis.mp hk).1.symm
    · rw [hother hy] at hj hk
      exact h.one j k y hj hk

end Divided

end Owners

end VoidCache
