import VoidCache.Lib.Machine
import Mathlib.Logic.Function.Basic

/-!
# Sequence locks

`Loads` are programs that load one address at a time. A reader runs such a program while
writers change the data under a lock, between two increments of a sequence number, one write
at a time. If the number is even at the start and the same at the end, the loads have seen
one single state.

What lies outside the bracket may change at any time. `Guard` says which addresses the
bracket protects; the set may depend on the data, as with buffers that the data point to, but
only on the part of it that is protected.
-/
namespace VoidCache

/-- A program that loads from addresses `a : A`, which hold values of type `V a`. -/
inductive Loads {A : Type} (V : A → Type) (R : Type) where
  | done (r : R)
  | load (a : A) (next : V a → Loads V R)

namespace Loads

variable {A : Type} {V : A → Type} {R S : Type} {mem : (a : A) → V a} {G : A → Prop}

def andThen : Loads V R → (R → Loads V S) → Loads V S
  | done r, f => f r
  | load a next, f => load a fun v => (next v).andThen f

instance : Monad (Loads V) where
  pure := done
  bind := andThen

/-- Load one address. -/
def get (a : A) : Loads V (V a) := load a done

/-- The result when nothing changes between the loads. -/
def eval (mem : (a : A) → V a) : Loads V R → R
  | done r => r
  | load a next => (next (mem a)).eval mem

/-- On `mem` the program only loads addresses in `G`. -/
def Within (mem : (a : A) → V a) (G : A → Prop) : Loads V R → Prop
  | done _ => True
  | load a next => G a ∧ (next (mem a)).Within mem G

/-- On `mem` the program loads addresses in `G` only, and computes `r`. -/
structure Gives (mem : (a : A) → V a) (G : A → Prop) (p : Loads V R) (r : R) : Prop where
  within : p.Within mem G
  eval : p.eval mem = r

namespace Gives

theorem pure (r : R) : Gives mem G (pure r : Loads V R) r := ⟨trivial, rfl⟩

theorem get {a : A} (ha : G a) : Gives mem G (get a : Loads V (V a)) (mem a) := ⟨⟨ha, trivial⟩, rfl⟩

theorem bind {p : Loads V R} {f : R → Loads V S} {r : R} {r' : S} (hp : Gives mem G p r)
    (hf : Gives mem G (f r) r') : Gives mem G (p >>= f) r' := by
  show Gives mem G (p.andThen f) r'
  obtain ⟨hwith, heval⟩ := hp
  induction p with
  | done r₀ =>
    obtain rfl : r₀ = r := heval
    exact hf
  | load a next ih =>
    have hnext := ih (mem a) hwith.2 heval
    exact ⟨⟨hwith.1, hnext.within⟩, hnext.eval⟩

theorem ite {c : Prop} [Decidable c] {p q : Loads V R} {r r' : R} (hp : c → Gives mem G p r)
    (hq : ¬ c → Gives mem G q r') : Gives mem G (if c then p else q) (if c then r else r') := by
  split_ifs with h
  exacts [hp h, hq h]

end Gives

end Loads

namespace Seqlock

/-- The addresses of the data `D`, and which of them only change inside the bracket. -/
structure Guard (D : Type) {A : Type} (V : A → Type) where
  read : D → (a : A) → V a
  guarded : D → A → Prop
  stable : ∀ d d', (∀ a, guarded d a → read d' a = read d a) → ∀ a, guarded d' a ↔ guarded d a

variable {T D A W R : Type} {V : A → Type}

/-- `d'` differs from `d` at most at addresses that are not protected. -/
def Guard.Agrees (G : Guard D V) (d d' : D) : Prop := ∀ a, G.guarded d a → G.read d' a = G.read d a

theorem Guard.Agrees.trans {G : Guard D V} {d d' d'' : D} (h : G.Agrees d d') (h' : G.Agrees d' d'') :
    G.Agrees d d'' := fun a ha => (h' a ((G.stable d d' h a).mpr ha)).trans (h a ha)

inductive Phase where
  | outside | locked | writing | wrote
  deriving DecidableEq

/-- `snap` is the data at the moment at which the even number `seq` was read. It is kept for
the sake of the statements; no step looks at it. `tries` are the attempts still to come. -/
inductive Reader (D : Type) {A : Type} (V : A → Type) (R : Type) where
  | start (tries : Nat)
  | running (tries seq : Nat) (snap : D) (rest : Loads V R)
  | left (tries seq : Nat) (snap : D) (r : R)
  | fallback

structure State (T D : Type) {A : Type} (V : A → Type) (R : Type) where
  wlock : Bool
  seq : Nat
  data : D
  phase : T → Phase
  reader : Reader D V R

/-- The steps of the writers, of everybody else, and of the reader. -/
inductive Act (T W : Type) where
  | lock (t : T)
  | seqBegin (t : T)
  | write (t : T) (w : W)
  | seqEnd (t : T)
  | unlock (t : T)
  | touch (w : W)
  | reader

/-- What a reader does: its program, which may differ from attempt to attempt, and which
results it keeps after a `check` of the sequence number. The others send it to the fallback. -/
structure Path {A : Type} (V : A → Type) (R : Type) where
  prog : Nat → Loads V R
  check : R → Bool

section Exec

variable (G : Guard D V) (apply : W → D → D) (path : Path V R)

/-- One step of the reader: load the sequence number, load the next address, or check. -/
def readerStep (s : State T D V R) : Reader D V R :=
  match s.reader with
  | .start 0 => .fallback
  | .start (tries + 1) =>
    if s.seq % 2 = 0 then .running tries s.seq s.data (path.prog tries) else .start (tries + 1)
  | .running tries seq snap (.load a next) => .running tries seq snap (next (G.read s.data a))
  | .running tries seq snap (.done r) =>
    if path.check r then if s.seq = seq then .left tries seq snap r else .start tries
    else .fallback
  | .left tries seq snap r => .left tries seq snap r
  | .fallback => .fallback

variable [DecidableEq T]

/-- One atomic step. A step that is not possible leaves the state as it is. -/
def exec (s : State T D V R) : Act T W → State T D V R
  | .lock t =>
    if s.phase t = .outside ∧ s.wlock = false then
      { s with wlock := true, phase := Function.update s.phase t .locked }
    else s
  | .seqBegin t =>
    if s.phase t = .locked then
      { s with seq := s.seq + 1, phase := Function.update s.phase t .writing }
    else s
  | .write t w => if s.phase t = .writing then { s with data := apply w s.data } else s
  | .seqEnd t =>
    if s.phase t = .writing then
      { s with seq := s.seq + 1, phase := Function.update s.phase t .wrote }
    else s
  | .unlock t =>
    if s.phase t = .locked ∨ s.phase t = .wrote then
      { s with wlock := false, phase := Function.update s.phase t .outside }
    else s
  | .touch w => { s with data := apply w s.data }
  | .reader => { s with reader := readerStep G path s }

def step (s : State T D V R) (a : Act T W) : State T D V R × Unit := (exec G apply path s a, ())

end Exec

/-- Writes outside the bracket leave the protected addresses alone. -/
def Outside (G : Guard D V) (apply : W → D → D) (s : State T D V R) : Act T W → Prop
  | .touch w => G.Agrees s.data (apply w s.data)
  | _ => True

/-! ## Writers -/

variable {G : Guard D V} {apply : W → D → D} {path : Path V R} {s : State T D V R}

/-- One writer at a time, and the sequence number is odd exactly while one is writing. -/
structure Writers (s : State T D V R) : Prop where
  alone : ∀ t u, s.phase t ≠ .outside → s.phase u ≠ .outside → t = u
  held : ∀ t, s.phase t ≠ .outside → s.wlock = true
  odd : s.seq % 2 = 1 ↔ ∃ t, s.phase t = .writing

namespace Writers

theorem odd_of_writing (h : Writers s) {t : T} (ht : s.phase t = .writing) : s.seq % 2 = 1 :=
  h.odd.mpr ⟨t, ht⟩

theorem even_of_locked (h : Writers s) {t : T} (ht : s.phase t = .locked) : s.seq % 2 = 0 := by
  have hno : ¬ ∃ u, s.phase u = .writing := by
    rintro ⟨u, hu⟩
    have := h.alone t u (by simp [ht]) (by simp [hu])
    grind
  have := mt h.odd.mp hno
  omega

/-- At most the thread `t` is in the lock. -/
theorem of_single {t : T} (ho : ∀ u, u ≠ t → s.phase u = .outside)
    (hlock : s.phase t ≠ .outside → s.wlock = true)
    (hodd : s.seq % 2 = 1 ↔ s.phase t = .writing) : Writers s where
  alone u v hu hv := by grind
  held u hu := by grind
  odd := hodd.trans ⟨fun h => ⟨t, h⟩, by grind⟩

theorem others_outside (h : Writers s) {t : T} (ht : s.phase t ≠ .outside) (u : T) (hu : u ≠ t) :
    s.phase u = .outside := by
  by_contra hne
  exact hu (h.alone u t hne ht)

theorem move [DecidableEq T] {t : T} {p : Phase} {lock : Bool} {seq : Nat}
    (ho : ∀ u, u ≠ t → s.phase u = .outside) (hlock : p ≠ .outside → lock = true)
    (hodd : seq % 2 = 1 ↔ p = .writing) :
    Writers { s with wlock := lock, seq := seq, phase := Function.update s.phase t p } :=
  of_single (t := t) (fun u hu => by simp [Function.update_of_ne hu, ho u hu])
    (by simpa using hlock) (by simpa using hodd)

theorem exec [DecidableEq T] (h : Writers s) (a : Act T W) : Writers (exec G apply path s a) := by
  cases a with
  | lock t =>
    simp only [Seqlock.exec]
    split_ifs with hc
    · -- the lock was free, so nobody was inside and the number is even
      have hout : ∀ u, s.phase u = .outside := fun u => by
        by_contra hne
        simp [h.held u hne] at hc
      have heven : ¬ s.seq % 2 = 1 := by simp [h.odd, hout]
      exact move (fun u _ => hout u) (fun _ => rfl) (iff_of_false heven (by simp))
    · exact h
  | seqBegin t =>
    simp only [Seqlock.exec]
    split_ifs with hc
    · have heven := h.even_of_locked hc
      have hne : s.phase t ≠ .outside := by simp [hc]
      exact move (h.others_outside hne) (fun _ => h.held t hne) (iff_of_true (by omega) rfl)
    · exact h
  | write t w =>
    simp only [Seqlock.exec]
    split_ifs
    exacts [⟨h.alone, h.held, h.odd⟩, h]
  | seqEnd t =>
    simp only [Seqlock.exec]
    split_ifs with hc
    · have hodd := h.odd_of_writing hc
      have hne : s.phase t ≠ .outside := by simp [hc]
      exact move (h.others_outside hne) (fun _ => h.held t hne) (iff_of_false (by omega) (by simp))
    · exact h
  | unlock t =>
    simp only [Seqlock.exec]
    split_ifs with hc
    · have hne : s.phase t ≠ .outside := by rcases hc with hc | hc <;> simp [hc]
      have heven : ¬ s.seq % 2 = 1 := by
        rw [h.odd]
        rintro ⟨u, hu⟩
        have := h.alone t u hne (by simp [hu])
        grind
      exact move (h.others_outside hne) (by simp) (iff_of_false heven (by simp))
    · exact h
  | touch w => exact ⟨h.alone, h.held, h.odd⟩
  | reader => exact ⟨h.alone, h.held, h.odd⟩

end Writers

/-- A whole write section of `t`. -/
def bracket (t : T) (ws : List W) : List (Act T W) :=
  .lock t :: .seqBegin t :: (ws.map (.write t) ++ [.seqEnd t, .unlock t])

def applyAll (apply : W → D → D) (ws : List W) (d : D) : D := ws.foldl (fun d w => apply w d) d

theorem applyAll_append (ws ws' : List W) (d : D) :
    applyAll apply (ws ++ ws') d = applyAll apply ws' (applyAll apply ws d) := List.foldl_append

theorem run_writes [DecidableEq T] {t : T} (ws : List W) : ∀ {s : State T D V R},
    s.phase t = .writing → Machine.run (step G apply path) s (ws.map (.write t)) =
      { s with data := applyAll apply ws s.data } := by
  induction ws with
  | nil => exact fun _ => rfl
  | cons w ws ih =>
    intro s ht
    have hw : exec G apply path s (.write t w) = { s with data := apply w s.data } := if_pos ht
    simp only [List.map_cons, Machine.run, step, hw]
    exact ih ht

/-- Without overlap a write section applies its writes and moves the number by two. -/
theorem run_bracket [DecidableEq T] {t : T} (hfree : s.wlock = false) (ht : s.phase t = .outside)
    (ws : List W) : Machine.run (step G apply path) s (bracket t ws) =
      { s with seq := s.seq + 2, data := applyAll apply ws s.data } := by
  have hlock : exec G apply path s (.lock t) =
      { s with wlock := true, phase := Function.update s.phase t .locked } := if_pos ⟨ht, hfree⟩
  have hbegin : exec G apply path
      { s with wlock := true, phase := Function.update s.phase t .locked } (.seqBegin t) =
      { s with
        wlock := true, seq := s.seq + 1, phase := Function.update s.phase t .writing } := by
    simp [exec]
  simp only [bracket, Machine.run, Machine.run_append, step, hlock, hbegin]
  rw [run_writes ws (by simp)]
  have hid : Function.update s.phase t .outside = s.phase := by simp [← ht]
  simp [exec, hid, hfree]

theorem along_bracket [DecidableEq T] (t : T) (ws : List W) :
    Machine.Along (step G apply path) (Outside G apply) s (bracket t ws) := by
  apply Machine.along_of_forall
  intro a ha s
  cases a with
  | touch w => simp [bracket] at ha
  | _ => trivial

/-! ## The reader -/

/-- As long as the number has not moved, the data still agree with the snapshot where they are
protected, and the loads that remain lead to what the whole program gives on the snapshot. -/
def Reading (G : Guard D V) (path : Path V R) (s : State T D V R) : Prop :=
  match s.reader with
  | .running tries seq snap rest =>
    seq % 2 = 0 ∧ seq ≤ s.seq ∧ (s.seq = seq → G.Agrees snap s.data ∧
      rest.Within (G.read snap) (G.guarded snap) ∧
      rest.eval (G.read snap) = (path.prog tries).eval (G.read snap))
  | .left tries _ snap r => path.check r = true ∧ r = (path.prog tries).eval (G.read snap)
  | _ => True

/-- What the steps of everybody else mean for the reader. -/
structure Apart (G : Guard D V) (s s' : State T D V R) : Prop where
  reader : s'.reader = s.reader
  seq : s.seq ≤ s'.seq
  data : s'.seq = s.seq → s.seq % 2 = 0 → G.Agrees s.data s'.data

theorem apart_exec [DecidableEq T] (h : Writers s) {a : Act T W} (hout : Outside G apply s a)
    (ha : a ≠ .reader) : Apart G s (exec G apply path s a) := by
  have hrefl : Apart G s s := ⟨rfl, Nat.le_refl _, fun _ _ _ _ => rfl⟩
  cases a with
  | lock t => simp only [exec]; split_ifs; exacts [⟨rfl, Nat.le_refl _, fun _ _ _ _ => rfl⟩, hrefl]
  | seqBegin t =>
    simp only [exec]
    split_ifs
    exacts [⟨rfl, Nat.le_succ _, fun hs => absurd hs (Nat.succ_ne_self _)⟩, hrefl]
  | write t w =>
    simp only [exec]
    split_ifs with hc
    · have hodd := h.odd_of_writing hc
      exact ⟨rfl, Nat.le_refl _, fun _ heven => by omega⟩
    · exact hrefl
  | seqEnd t =>
    simp only [exec]
    split_ifs
    exacts [⟨rfl, Nat.le_succ _, fun hs => absurd hs (Nat.succ_ne_self _)⟩, hrefl]
  | unlock t => simp only [exec]; split_ifs; exacts [⟨rfl, Nat.le_refl _, fun _ _ _ _ => rfl⟩, hrefl]
  | touch w => exact ⟨rfl, Nat.le_refl _, fun _ _ => hout⟩
  | reader => exact absurd rfl ha

theorem Reading.apart {s' : State T D V R} (h : Reading G path s) (ha : Apart G s s') :
    Reading G path s' := by
  unfold Reading at h ⊢
  rw [ha.reader]
  split at h
  · obtain ⟨heven, hle, hsame⟩ := h
    refine ⟨heven, Nat.le_trans hle ha.seq, fun hs => ?_⟩
    -- the number only grows, so it is what it was and the data have not moved either
    have hseq := ha.seq
    obtain ⟨hag, hwith, heval⟩ := hsame (by omega)
    exact ⟨hag.trans (ha.data (by omega) (by omega)), hwith, heval⟩
  · exact h
  · trivial

/-- The program only loads what the bracket protects, whatever the data. -/
def Path.Protected (G : Guard D V) (path : Path V R) : Prop :=
  ∀ tries d, (path.prog tries).Within (G.read d) (G.guarded d)

theorem Reading.step (hprog : path.Protected G) (h : Reading G path s) :
    Reading G path { s with reader := readerStep G path s } := by
  obtain ⟨wlock, seq, data, phase, reader⟩ := s
  match reader, h with
  | .start 0, _ => trivial
  | .start (tries + 1), _ =>
    simp only [Reading, readerStep]
    split_ifs with heven
    · exact ⟨heven, Nat.le_refl _, fun _ => ⟨fun _ _ => rfl, hprog tries data, rfl⟩⟩
    · trivial
  | .running tries _ snap (.load a next), ⟨heven, hle, hsame⟩ =>
    refine ⟨heven, hle, fun hs => ?_⟩
    obtain ⟨hag, ⟨ha, hwith⟩, heval⟩ := hsame hs
    simp only [hag a ha]
    exact ⟨hag, hwith, heval⟩
  | .running tries _ snap (.done r), ⟨_, _, hsame⟩ =>
    simp only [Reading, readerStep]
    split_ifs with hc hs
    · exact ⟨hc, (hsame hs).2.2⟩
    · trivial
    · trivial
  | .left .., h => exact h
  | .fallback, _ => trivial

/-! ## Runs -/

/-- The attempt a reader is in, or left with. -/
def Reader.attempt : Reader D V R → Option (Nat × Nat × D)
  | .running tries seq snap _ => some (tries, seq, snap)
  | .left tries seq snap _ => some (tries, seq, snap)
  | _ => none

/-- What the reader left with. -/
def Reader.outcome : Reader D V R → Option R
  | .left _ _ _ r => some r
  | _ => none

theorem Reader.left_of_outcome {rd : Reader D V R} {r : R} (h : rd.outcome = some r) :
    ∃ tries seq snap, rd = .left tries seq snap r := by
  cases rd with
  | left tries seq snap r' =>
    obtain rfl := Option.some.inj h
    exact ⟨tries, seq, snap, rfl⟩
  | _ => simp [outcome] at h

/-- A step of the reader stays in its attempt, gives it up, or begins one now. -/
theorem attempt_readerStep {x : Nat × Nat × D} (h : (readerStep G path s).attempt = some x) :
    s.reader.attempt = some x ∨
      s.reader = .start (x.1 + 1) ∧ s.seq = x.2.1 ∧ s.seq % 2 = 0 ∧ s.data = x.2.2 := by
  obtain ⟨wlock, seq, data, phase, reader⟩ := s
  match reader, h with
  | .start (tries + 1), h =>
    simp only [readerStep] at h
    split_ifs at h with heven
    · obtain rfl := Option.some.inj h
      exact Or.inr ⟨rfl, rfl, heven, rfl⟩
    · simp [Reader.attempt] at h
  | .running _ _ _ (.load ..), h => exact Or.inl h
  | .running _ _ _ (.done r), h =>
    simp only [readerStep] at h
    split_ifs at h
    · exact Or.inl h
    · simp [Reader.attempt] at h
    · simp [Reader.attempt] at h
  | .left .., h => exact Or.inl h

/-- The attempt that is running, or that succeeded, began when the number was even and the data
were the snapshot. Attempts are told apart by the number of tries left. -/
def Began [DecidableEq T] (G : Guard D V) (apply : W → D → D) (path : Path V R)
    (s₀ : State T D V R) (acts : List (Act T W)) (tries seq : Nat) (snap : D) : Prop :=
  ∃ before after, acts = before ++ .reader :: after ∧
    (Machine.run (step G apply path) s₀ before).reader = .start (tries + 1) ∧
    (Machine.run (step G apply path) s₀ before).seq = seq ∧ seq % 2 = 0 ∧
    (Machine.run (step G apply path) s₀ before).data = snap

variable [DecidableEq T] {s₀ : State T D V R}

theorem Began.append {acts : List (Act T W)} {tries seq : Nat} {snap : D}
    (h : Began G apply path s₀ acts tries seq snap) (a : Act T W) :
    Began G apply path s₀ (acts ++ [a]) tries seq snap := by
  obtain ⟨before, after, hacts, h⟩ := h
  exact ⟨before, after ++ [a], by simp [hacts], h⟩

/-- Everything that holds of a state reached by `acts`. -/
structure Reached (G : Guard D V) (apply : W → D → D) (path : Path V R) (s₀ : State T D V R)
    (acts : List (Act T W)) (s : State T D V R) : Prop where
  run : Machine.run (step G apply path) s₀ acts = s
  writers : Writers s
  reading : Reading G path s
  began : ∀ x, s.reader.attempt = some x → Began G apply path s₀ acts x.1 x.2.1 x.2.2

theorem Reached.step (hprog : path.Protected G) {acts : List (Act T W)}
    (h : Reached G apply path s₀ acts s) {a : Act T W} (hout : Outside G apply s a) :
    Reached G apply path s₀ (acts ++ [a]) (exec G apply path s a) where
  run := by rw [Machine.run_append, h.run]; rfl
  writers := h.writers.exec a
  reading := by
    by_cases ha : a = .reader
    · subst ha
      exact h.reading.step hprog
    · exact h.reading.apart (apart_exec h.writers hout ha)
  began x hx := by
    by_cases ha : a = .reader
    · subst ha
      rcases attempt_readerStep hx with hold | ⟨hstart, hseq, heven, hdata⟩
      · exact (h.began x hold).append _
      · exact ⟨acts, [], rfl, by rw [h.run, hstart], by rw [h.run, hseq], hseq ▸ heven,
          by rw [h.run, hdata]⟩
    · rw [(apart_exec h.writers hout ha).reader] at hx
      exact (h.began x hx).append a

theorem Reached.of_run (hprog : path.Protected G) (hw : Writers s₀) {n : Nat}
    (hstart : s₀.reader = .start n) {acts : List (Act T W)}
    (h : Machine.Along (Seqlock.step G apply path) (Outside G apply) s₀ acts) :
    Reached G apply path s₀ acts (Machine.run (Seqlock.step G apply path) s₀ acts) := by
  have h0 : Reached G apply path s₀ [] s₀ :=
    ⟨rfl, hw, by simp [Reading, hstart], by simp [hstart, Reader.attempt]⟩
  have := Machine.trace_inv (I := fun tr s => Reached G apply path s₀ (tr.map Prod.fst) s)
    (fun tr s a hi hp => by rw [List.map_append]; exact hi.step hprog hp) [] h0 h
  simpa using this

/-- A reader that leaves has the result of its program on the data at the moment at which the
attempt read an even number. -/
theorem left_eq_eval (hprog : path.Protected G) (hw : Writers s₀) {n : Nat}
    (hstart : s₀.reader = .start n) {acts : List (Act T W)}
    (h : Machine.Along (step G apply path) (Outside G apply) s₀ acts) {tries seq : Nat} {snap : D}
    {r : R} (hleft : (Machine.run (step G apply path) s₀ acts).reader = .left tries seq snap r) :
    (path.check r = true ∧ r = (path.prog tries).eval (G.read snap)) ∧
      Began G apply path s₀ acts tries seq snap := by
  have hreached := Reached.of_run hprog hw hstart h
  have hreading := hreached.reading
  rw [Reading, hleft] at hreading
  exact ⟨hreading, hreached.began (tries, seq, snap) (by rw [hleft]; rfl)⟩

end Seqlock

end VoidCache
