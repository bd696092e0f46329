import VoidCache.Lib.Calls
import VoidCache.Lib.Machine
import Mathlib.Data.Fintype.Card

/-!
# Programs that run at the same time

A `Pool` is a shared state with a program for each index. `poolStep` lets one program make its
next call, as one atomic step, so a list of indices is an interleaving. When the state is a map
and each call uses at most one of its keys, two calls `Clash` if they use the same key and one
of them writes it. `serialisable` says that an interleaving in which no call clashes with a
call of another program that is under way ends as the programs would one after the other, in
the order in which they returned.
-/
namespace VoidCache

variable {A : Type} {V : A → Type} {R ι σ τ K D : Type}

/-! ## Pools -/

structure Pool (V : A → Type) (R ι σ : Type) where
  state : σ
  prog : ι → Calls V R
  /-- The calls each program has made so far. -/
  made : ι → List A

def Pool.start (s : σ) (progs : ι → Calls V R) : Pool V R ι σ := ⟨s, progs, fun _ => []⟩

/-- The call that a program makes next, unless it has returned. -/
def Calls.next? : Calls V R → Option A
  | ret _ => none
  | call a _ => some a

section Step

variable [DecidableEq ι] (exec : σ → (a : A) → σ × V a)

/-- Program `i` makes its next call. Nothing happens if it has returned. -/
def poolStep (p : Pool V R ι σ) (i : ι) : Pool V R ι σ × Unit :=
  match p.prog i with
  | .ret _ => (p, ())
  | .call a next =>
    (⟨(exec p.state a).1, Function.update p.prog i (next (exec p.state a).2),
      Function.update p.made i (p.made i ++ [a])⟩, ())

variable {exec}

theorem poolStep_of_ret {p : Pool V R ι σ} {i : ι} {r : R} (h : p.prog i = .ret r) :
    (poolStep exec p i).1 = p := by
  rw [poolStep, h]

theorem poolStep_of_call {p : Pool V R ι σ} {i : ι} {a : A} {next : V a → Calls V R}
    (h : p.prog i = .call a next) :
    (poolStep exec p i).1 = ⟨(exec p.state a).1, Function.update p.prog i (next (exec p.state a).2),
      Function.update p.made i (p.made i ++ [a])⟩ := by
  rw [poolStep, h]

end Step

section Simulation

variable {exec : σ → (a : A) → σ × V a} {exec' : τ → (a : A) → τ × V a} {rel : σ → τ → Prop}
  {P : A → Prop} {Q : R → Prop} {C : σ → A → Prop}

/-- Two pools with the same programs, over related states. -/
structure Pool.Alike (rel : σ → τ → Prop) (P : A → Prop) (Q : R → Prop) (p : Pool V R ι σ)
    (q : Pool V R ι τ) : Prop where
  prog : q.prog = p.prog
  made : q.made = p.made
  state : rel p.state q.state
  meets : ∀ i, (p.prog i).Meets P Q

variable [DecidableEq ι]

theorem Pool.Alike.step {p : Pool V R ι σ} {q : Pool V R ι τ} {i : ι} (h : p.Alike rel P Q q)
    (hexec : ∀ s t a, P a → rel s t → C s a →
      (exec s a).2 = (exec' t a).2 ∧ rel (exec s a).1 (exec' t a).1)
    (hC : ∀ a ∈ (p.prog i).next?, C p.state a) :
    (poolStep exec p i).1.Alike rel P Q (poolStep exec' q i).1 := by
  cases hp : p.prog i with
  | ret r =>
    rw [poolStep_of_ret hp, poolStep_of_ret ((congrFun h.prog i).trans hp)]
    exact h
  | call a next =>
    have hi : (Calls.call a next).Meets P Q := hp ▸ h.meets i
    obtain ⟨hans, hnew⟩ := hexec p.state q.state a hi.1 h.state (hC a (by rw [hp]; rfl))
    rw [poolStep_of_call hp, poolStep_of_call ((congrFun h.prog i).trans hp), h.prog, h.made, ← hans]
    refine ⟨rfl, rfl, hnew, fun j => ?_⟩
    by_cases hji : j = i
    · subst hji
      simpa only [Function.update_self] using hi.2 _
    · simpa only [Function.update_of_ne hji] using h.meets j

/-- Two ways to answer the calls in `P`, related as long as `C` holds of the calls, lead the
same programs to the same places. The condition `E` looks at the programs only. -/
theorem pool_simulates {E : (ι → Calls V R) → (ι → List A) → ι → Prop}
    (hexec : ∀ s t a, P a → rel s t → C s a →
      (exec s a).2 = (exec' t a).2 ∧ rel (exec s a).1 (exec' t a).1)
    {progs : ι → Calls V R} (hprogs : ∀ i, (progs i).Meets P Q) {s : σ} {t : τ} (hst : rel s t)
    {sched : List ι}
    (hrun : Machine.Along (poolStep exec)
      (fun p i => E p.prog p.made i ∧ ∀ a ∈ (p.prog i).next?, C p.state a) (.start s progs) sched) :
    Machine.Along (poolStep exec') (fun p i => E p.prog p.made i) (.start t progs) sched ∧
      (Machine.run (poolStep exec) (.start s progs) sched).Alike rel P Q
        (Machine.run (poolStep exec') (.start t progs) sched) := by
  have hstep (p : Pool V R ι σ) (q : Pool V R ι τ) (i : ι) (h : p.Alike rel P Q q)
      (hi : E p.prog p.made i ∧ ∀ a ∈ (p.prog i).next?, C p.state a) :
      E q.prog q.made i ∧ (poolStep exec p i).1.Alike rel P Q (poolStep exec' q i).1 :=
    ⟨h.prog ▸ h.made ▸ hi.1, h.step hexec hi.2⟩
  have hstart : (Pool.start s progs).Alike rel P Q (.start t progs) := ⟨rfl, rfl, hst, hprogs⟩
  exact Machine.run_simulates hstep hstart hrun

end Simulation

/-! ## A program part of the way -/

/-- From the state `s`, the program `p` makes the calls `as`, which leaves the program `q` and
the state `t`. -/
inductive Calls.Partway (exec : σ → (a : A) → σ × V a) (p : Calls V R) (s : σ) :
    List A → Calls V R → σ → Prop where
  | start : Partway exec p s [] p s
  | step {as : List A} {a : A} {next : V a → Calls V R} {t : σ} :
      Partway exec p s as (.call a next) t →
      Partway exec p s (as ++ [a]) (next (exec t a).2) (exec t a).1

namespace Calls.Partway

variable {exec : σ → (a : A) → σ × V a} {p q : Calls V R} {s t : σ} {as : List A}
  {P : A → Prop} {Q : R → Prop}

theorem run_eq (h : Partway exec p s as q t) : p.run exec s = q.run exec t := by
  induction h with
  | start => rfl
  | step _ ih => exact ih

theorem meets (h : Partway exec p s as q t) (hp : p.Meets P Q) :
    (∀ a ∈ as, P a) ∧ q.Meets P Q := by
  induction h with
  | start => exact ⟨by simp, hp⟩
  | step _ ih =>
    obtain ⟨has, ha, hnext⟩ := ih
    refine ⟨fun b hb => ?_, hnext _⟩
    rcases List.mem_append.mp hb with hb | hb
    · exact has b hb
    · rwa [List.mem_singleton.mp hb]

end Calls.Partway

/-! ## Calls that use one key of a map -/

/-- The key a call uses, if any, and whether it writes it. -/
structure Footprint (A K : Type) where
  key : A → Option K
  writes : A → Bool

namespace Footprint

variable (f : Footprint A K)

def Writes (a : A) (k : K) : Prop := f.key a = some k ∧ f.writes a = true

def Clash (a b : A) : Prop := f.key a ≠ none ∧ f.key a = f.key b ∧ (f.writes a || f.writes b) = true

instance [DecidableEq K] (a b : A) : Decidable (f.Clash a b) :=
  inferInstanceAs (Decidable (_ ∧ _))

/-- The calls in `P` read and write only the key they use. -/
structure Local (P : A → Prop) (exec : (K → D) → (a : A) → (K → D) × V a) : Prop where
  frame : ∀ m a k, P a → ¬ f.Writes a k → (exec m a).1 k = m k
  agree : ∀ m m' a, P a → (∀ k, f.key a = some k → m k = m' k) →
    (exec m a).2 = (exec m' a).2 ∧ ∀ k, f.key a = some k → (exec m a).1 k = (exec m' a).1 k

variable {f}

theorem Writes.clash {a b : A} {k : K} (ha : f.Writes a k) (hb : f.key b = some k) : f.Clash a b :=
  ⟨by simp [ha.1], ha.1.trans hb.symm, by simp [ha.2]⟩

theorem Clash.symm {a b : A} (h : f.Clash a b) : f.Clash b a :=
  ⟨h.2.1 ▸ h.1, h.2.1.symm, by rw [Bool.or_comm]; exact h.2.2⟩

end Footprint

section Local

variable {f : Footprint A K} {P : A → Prop} {exec : (K → D) → (a : A) → (K → D) × V a}
  {p q : Calls V R} {m m' n : K → D} {as : List A}

theorem Calls.Partway.frame (h : Partway exec p m as q n) (hf : f.Local P exec)
    (has : ∀ a ∈ as, P a) {k : K} (hk : ∀ a ∈ as, ¬ f.Writes a k) : n k = m k := by
  induction h with
  | start => rfl
  | step _ ih =>
    rw [hf.frame _ _ _ (has _ (by simp)) (hk _ (by simp))]
    exact ih (fun a ha => has a (by simp [ha])) fun a ha => hk a (by simp [ha])

/-- From a map that agrees on the keys used so far, the program gets to the same place. -/
theorem Calls.Partway.agree (h : Partway exec p m as q n) (hf : f.Local P exec)
    (has : ∀ a ∈ as, P a) (hm : ∀ a ∈ as, ∀ k, f.key a = some k → m k = m' k) :
    ∃ n', Partway exec p m' as q n' ∧ ∀ k, m k = m' k → n k = n' k := by
  induction h with
  | start => exact ⟨m', .start, fun _ hk => hk⟩
  | @step as a next n _ ih =>
    obtain ⟨n', hn', hkeep⟩ := ih (fun b hb => has b (by simp [hb])) fun b hb => hm b (by simp [hb])
    have ha : P a := has a (by simp)
    obtain ⟨hans, hnew⟩ := hf.agree n n' a ha fun k hk => hkeep k (hm a (by simp) k hk)
    refine ⟨(exec n' a).1, hans ▸ hn'.step, fun k hk => ?_⟩
    by_cases hka : f.key a = some k
    · exact hnew k hka
    · have hw : ¬ f.Writes a k := fun hw => hka hw.1
      rw [hf.frame n a k ha hw, hf.frame n' a k ha hw, hkeep k hk]

end Local

/-! ## One after the other -/

/-- Run the programs in the given order, each of them as a whole. -/
def serialRun (exec : σ → (a : A) → σ × V a) (progs : ι → Calls V R) (order : List ι) (s : σ) : σ :=
  order.foldl (fun s i => ((progs i).run exec s).1) s

/-- Every call of such a run meets `C` in the state in which it is made. -/
def SerialAlong (exec : σ → (a : A) → σ × V a) (C : σ → A → Prop) (progs : ι → Calls V R) :
    List ι → σ → Prop
  | [], _ => True
  | i :: order, s => (progs i).Along exec C s ∧
      SerialAlong exec C progs order ((progs i).run exec s).1

/-- Related states stay related when the programs run one after the other. -/
theorem serialRun_simulates {exec : σ → (a : A) → σ × V a} {exec' : τ → (a : A) → τ × V a}
    {rel : σ → τ → Prop} {P : A → Prop} {Q : R → Prop} {C : σ → A → Prop}
    (hexec : ∀ s t a, P a → rel s t → C s a →
      (exec s a).2 = (exec' t a).2 ∧ rel (exec s a).1 (exec' t a).1)
    {progs : ι → Calls V R} (hprogs : ∀ i, (progs i).Meets P Q) {order : List ι} {s : σ} {t : τ}
    (hst : rel s t) (h : SerialAlong exec C progs order s) :
    rel (serialRun exec progs order s) (serialRun exec' progs order t) := by
  induction order generalizing s t with
  | nil => exact hst
  | cons i order ih => exact ih (Calls.run_simulates hexec (hprogs i) hst h.1).2 h.2

/-- The next call of program `i` clashes with no call of another program that is under way. -/
def Pool.Undisturbed (f : Footprint A K) (p : Pool V R ι σ) (i : ι) : Prop :=
  ∀ a ∈ (p.prog i).next?, ∀ j, j ≠ i → (p.prog j).next? ≠ none → ∀ b ∈ p.made j, ¬ f.Clash a b

instance [DecidableEq K] [DecidableEq ι] [Fintype ι] [DecidableEq A] (f : Footprint A K)
    (p : Pool V R ι σ) (i : ι) : Decidable (p.Undisturbed f i) :=
  inferInstanceAs (Decidable (∀ a ∈ (p.prog i).next?, _))

/-- The programs in `order` have returned and count as run one after the other. Each of the
others has got as far as it would from there, and no two of them have clashed. -/
structure Serial (f : Footprint A K) (exec : (K → D) → (a : A) → (K → D) × V a)
    (progs : ι → Calls V R) (m : K → D) (order : List ι) (p : Pool V R ι (K → D)) : Prop where
  nodup : order.Nodup
  returned : ∀ i ∈ order, (p.prog i).next? = none
  partway : ∀ i ∉ order, ∃ n,
    Calls.Partway exec (progs i) (serialRun exec progs order m) (p.made i) (p.prog i) n ∧
      ∀ a ∈ p.made i, ∀ k, f.Writes a k → p.state k = n k
  rest : ∀ k, (∀ i ∉ order, ∀ a ∈ p.made i, ¬ f.Writes a k) →
    p.state k = serialRun exec progs order m k
  apart : ∀ i ∉ order, ∀ j ∉ order, i ≠ j → ∀ a ∈ p.made i, ∀ b ∈ p.made j, ¬ f.Clash a b

namespace Serial

variable {f : Footprint A K} {P : A → Prop} {Q : R → Prop}
  {exec : (K → D) → (a : A) → (K → D) × V a} {progs : ι → Calls V R} {m : K → D} {order : List ι}
  {p : Pool V R ι (K → D)}

theorem start : Serial f exec progs m [] (.start m progs) where
  nodup := .nil
  returned := by simp
  partway _ _ := ⟨m, .start, by simp [Pool.start]⟩
  rest _ _ := rfl
  apart := by simp [Pool.start]

/-- On the key of its next call, a program sees what it would see if it ran alone. -/
theorem sees (h : Serial f exec progs m order p) (hf : f.Local P exec)
    (hprogs : ∀ i, (progs i).Meets P Q) {i : ι} {n : K → D}
    (hn : Calls.Partway exec (progs i) (serialRun exec progs order m) (p.made i) (p.prog i) n)
    (hown : ∀ a ∈ p.made i, ∀ k, f.Writes a k → p.state k = n k) {a : A}
    (hclash : ∀ j ∉ order, j ≠ i → ∀ b ∈ p.made j, ¬ f.Clash a b) {k : K} (hk : f.key a = some k) :
    p.state k = n k := by
  by_cases hw : ∃ b ∈ p.made i, f.Writes b k
  · obtain ⟨b, hb, hw⟩ := hw
    exact hown b hb k hw
  · have hmine : ∀ b ∈ p.made i, ¬ f.Writes b k := fun b hb hbk => hw ⟨b, hb, hbk⟩
    rw [hn.frame hf (hn.meets (hprogs i)).1 hmine]
    refine h.rest k fun j hj b hb hbk => ?_
    by_cases hji : j = i
    · exact hmine b (hji ▸ hb) hbk
    · exact hclash j hj hji b hb (hbk.clash hk).symm

/-- A program that has returned may be counted as run. -/
theorem commit (h : Serial f exec progs m order p) (hf : f.Local P exec)
    (hprogs : ∀ i, (progs i).Meets P Q) {i : ι} (hi : i ∉ order) {r : R} (hr : p.prog i = .ret r) :
    Serial f exec progs m (order ++ [i]) p := by
  obtain ⟨n, hn, hown⟩ := h.partway i hi
  have hrun : serialRun exec progs (order ++ [i]) m = n := by
    have hall : (progs i).run exec (serialRun exec progs order m) = (n, r) := by
      rw [hn.run_eq, hr]
      rfl
    rw [serialRun, List.foldl_append, List.foldl_cons, List.foldl_nil]
    exact congrArg Prod.fst hall
  have hframe {k : K} (hk : ∀ a ∈ p.made i, ¬ f.Writes a k) : n k = serialRun exec progs order m k :=
    hn.frame hf (hn.meets (hprogs i)).1 hk
  have hmem {j : ι} (hj : j ∉ order ++ [i]) : j ∉ order ∧ j ≠ i := by simpa using hj
  refine ⟨h.nodup.append (List.nodup_singleton i) (by simpa using hi), fun j hj => ?_,
    fun j hj => ?_, fun k hk => ?_, fun j hj l hl => h.apart j (hmem hj).1 l (hmem hl).1⟩
  · rcases List.mem_append.mp hj with hj | hj
    · exact h.returned j hj
    · rw [List.mem_singleton.mp hj, hr]
      rfl
  · obtain ⟨hj, hji⟩ := hmem hj
    obtain ⟨nj, hnj, hownj⟩ := h.partway j hj
    -- what the returned program wrote is none of the keys that this one has used
    have hsame : ∀ b ∈ p.made j, ∀ k, f.key b = some k → serialRun exec progs order m k = n k :=
      fun b hb k hk => (hframe fun a ha hak => h.apart i hi j hj hji.symm a ha b hb (hak.clash hk)).symm
    obtain ⟨nj', hnj', hkeep⟩ := hnj.agree hf (hnj.meets (hprogs j)).1 hsame
    exact ⟨nj', hrun ▸ hnj', fun b hb k hk =>
      (hownj b hb k hk).trans (hkeep k (hsame b hb k hk.1))⟩
  · rw [hrun]
    by_cases hw : ∃ a ∈ p.made i, f.Writes a k
    · obtain ⟨a, ha, hw⟩ := hw
      exact hown a ha k hw
    · have hmine : ∀ a ∈ p.made i, ¬ f.Writes a k := fun a ha hak => hw ⟨a, ha, hak⟩
      rw [hframe hmine]
      refine h.rest k fun j hj a ha => ?_
      by_cases hji : j = i
      · exact hmine a (hji ▸ ha)
      · exact hk j (by simp [hj, hji]) a ha

/-- Programs that have returned without being counted, one after the other. -/
theorem commit_all (h : Serial f exec progs m order p) (hf : f.Local P exec)
    (hprogs : ∀ i, (progs i).Meets P Q) {l : List ι} (hl : (order ++ l).Nodup)
    (hr : ∀ i ∈ l, (p.prog i).next? = none) : Serial f exec progs m (order ++ l) p := by
  induction l generalizing order with
  | nil => simpa using h
  | cons i l ih =>
    have hi : i ∉ order := fun hi => (List.nodup_append.mp hl).2.2 i hi i (by simp) rfl
    have hstep : Serial f exec progs m (order ++ [i]) p := by
      cases hp : p.prog i with
      | ret r => exact h.commit hf hprogs hi hp
      | call a next =>
        have hnone := hr i (by simp)
        rw [hp] at hnone
        cases hnone
    have hall := ih hstep (by simpa using hl) fun j hj => hr j (by simp [hj])
    simpa using hall

variable [DecidableEq ι]

theorem mem_made_step {i j : ι} {a b : A} :
    b ∈ Function.update p.made i (p.made i ++ [a]) j ↔ b ∈ p.made j ∨ j = i ∧ b = a := by
  by_cases h : j = i
  · subst h
    simp
  · simp [h]

/-- A program makes a call that clashes with none of the programs not yet counted. -/
theorem step (h : Serial f exec progs m order p) (hf : f.Local P exec)
    (hprogs : ∀ i, (progs i).Meets P Q) {i : ι} {a : A} {next : V a → Calls V R}
    (hi : p.prog i = .call a next)
    (hclash : ∀ j ∉ order, j ≠ i → ∀ b ∈ p.made j, ¬ f.Clash a b) :
    Serial f exec progs m order (poolStep exec p i).1 := by
  have hio : i ∉ order := fun hio => by
    have hnone := h.returned i hio
    rw [hi] at hnone
    cases hnone
  obtain ⟨n, hn, hown⟩ := h.partway i hio
  have hsees {k : K} (hk : f.key a = some k) : p.state k = n k := h.sees hf hprogs hn hown hclash hk
  rw [hi] at hn
  have ha : P a := (hn.meets (hprogs i)).2.1
  obtain ⟨hans, hnew⟩ := hf.agree p.state n a ha fun k hk => hsees hk
  rw [poolStep_of_call hi]
  refine ⟨h.nodup, fun j hj => ?_, fun j hj => ?_, fun k hk => ?_, fun j hj l hl hjl b hb c hc => ?_⟩
  · have hji : j ≠ i := fun he => hio (he ▸ hj)
    simpa only [Function.update_of_ne hji] using h.returned j hj
  · by_cases hji : j = i
    · subst hji
      refine ⟨(exec n a).1, ?_, fun b hb k hbk => ?_⟩
      · simp only [Function.update_self, hans]
        exact hn.step
      · show (exec p.state a).1 k = (exec n a).1 k
        by_cases hka : f.key a = some k
        · exact hnew k hka
        · have hw : ¬ f.Writes a k := fun hw => hka hw.1
          rw [hf.frame _ a k ha hw, hf.frame _ a k ha hw]
          rcases mem_made_step.mp hb with hb | ⟨-, rfl⟩
          · exact hown b hb k hbk
          · exact absurd hbk hw
    · obtain ⟨nj, hnj, hownj⟩ := h.partway j hj
      refine ⟨nj, ?_, fun b hb k hbk => ?_⟩
      · simpa only [Function.update_of_ne hji] using hnj
      · have hb : b ∈ p.made j := (mem_made_step.mp hb).resolve_right fun hb => hji hb.1
        have hw : ¬ f.Writes a k := fun hw => hclash j hj hji b hb (hw.clash hbk.1)
        exact (hf.frame _ a k ha hw).trans (hownj b hb k hbk)
  · have hw : ¬ f.Writes a k := hk i hio a (mem_made_step.mpr (.inr ⟨rfl, rfl⟩))
    show (exec p.state a).1 k = _
    rw [hf.frame _ a k ha hw]
    exact h.rest k fun j hj b hb => hk j hj b (mem_made_step.mpr (.inl hb))
  · rcases mem_made_step.mp hb with hb' | ⟨rfl, rfl⟩
    · rcases mem_made_step.mp hc with hc' | ⟨rfl, rfl⟩
      · exact h.apart j hj l hl hjl b hb' c hc'
      · exact fun hbc => hclash j hj hjl b hb' hbc.symm
    · have hc' : c ∈ p.made l := (mem_made_step.mp hc).resolve_right fun hc => hjl hc.1.symm
      exact hclash l hl hjl.symm c hc'

end Serial

section Theorem

variable [DecidableEq ι] {f : Footprint A K} {P : A → Prop} {Q : R → Prop}
  {exec : (K → D) → (a : A) → (K → D) × V a} {progs : ι → Calls V R}

/-- The programs that have returned after some call of theirs are counted, in this order. -/
theorem serial_of_undisturbed (hf : f.Local P exec) (hprogs : ∀ i, (progs i).Meets P Q) (m : K → D)
    {sched : List ι}
    (hrun : Machine.Along (poolStep exec) (fun p i => p.Undisturbed f i) (.start m progs) sched) :
    ∃ order, Serial f exec progs m order (Machine.run (poolStep exec) (.start m progs) sched) ∧
      ∀ i ∉ order, (Machine.run (poolStep exec) (.start m progs) sched).made i ≠ [] →
        ((Machine.run (poolStep exec) (.start m progs) sched).prog i).next? ≠ none := by
  refine Machine.run_inv (I := fun p => ∃ order, Serial f exec progs m order p ∧
    ∀ i ∉ order, p.made i ≠ [] → (p.prog i).next? ≠ none) ?_
    ⟨[], .start, fun i _ hi => absurd rfl hi⟩ hrun
  rintro p i ⟨order, h, hway⟩ hi
  cases hp : p.prog i with
  | ret r =>
    rw [poolStep_of_ret hp]
    exact ⟨order, h, hway⟩
  | call a next =>
    have hclash : ∀ j ∉ order, j ≠ i → ∀ b ∈ p.made j, ¬ f.Clash a b := fun j hj hji b hb =>
      hi a (by rw [hp]; rfl) j hji (hway j hj (List.ne_nil_of_mem hb)) b hb
    have hstep := h.step hf hprogs hp hclash
    have hother {j : ι} (hji : j ≠ i) (hj : j ∉ order)
        (hmade : (poolStep exec p i).1.made j ≠ []) : ((poolStep exec p i).1.prog j).next? ≠ none := by
      rw [poolStep_of_call hp] at hmade ⊢
      simp only [Function.update_of_ne hji] at hmade ⊢
      exact hway j hj hmade
    have hio : i ∉ order := fun hio => by
      have hnone := h.returned i hio
      rw [hp] at hnone
      cases hnone
    cases hnext : (poolStep exec p i).1.prog i with
    | call b next' =>
      refine ⟨order, hstep, fun j hj hmade => ?_⟩
      by_cases hji : j = i
      · rw [hji, hnext]
        simp [Calls.next?]
      · exact hother hji hj hmade
    | ret r =>
      refine ⟨order ++ [i], hstep.commit hf hprogs hio hnext, fun j hj hmade => ?_⟩
      have hmem : j ∉ order ∧ j ≠ i := by simpa using hj
      exact hother hmem.2 hmem.1 hmade

/-- An interleaving without clashes, once all programs have returned, leaves what some serial
order of the programs leaves. -/
theorem serialisable [Fintype ι] (hf : f.Local P exec) (hprogs : ∀ i, (progs i).Meets P Q)
    (m : K → D) {sched : List ι}
    (hrun : Machine.Along (poolStep exec) (fun p i => p.Undisturbed f i) (.start m progs) sched)
    (hdone : ∀ i, ((Machine.run (poolStep exec) (.start m progs) sched).prog i).next? = none) :
    ∃ order : List ι, order.Nodup ∧ (∀ i, i ∈ order) ∧
      (Machine.run (poolStep exec) (.start m progs) sched).state = serialRun exec progs order m := by
  classical
  obtain ⟨order, h, -⟩ := serial_of_undisturbed hf hprogs m hrun
  let left := (Finset.univ.filter (· ∉ order) : Finset ι).toList
  have hleft : (order ++ left).Nodup := by
    refine h.nodup.append (Finset.nodup_toList _) ?_
    intro i hi hl
    simp [left, hi] at hl
  have hall := h.commit_all hf hprogs hleft fun i _ => hdone i
  have hmem (i : ι) : i ∈ order ++ left := by
    by_cases hi : i ∈ order <;> simp [left, hi]
  refine ⟨order ++ left, hleft, hmem, funext fun k => hall.rest k fun i hi => absurd (hmem i) hi⟩

end Theorem

end VoidCache
