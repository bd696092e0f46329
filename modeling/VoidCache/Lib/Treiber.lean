import VoidCache.Lib.Linked
import VoidCache.Lib.Machine

/-!
# A Treiber stack without counters, step by step

Threads pop and push the nodes of an intrusive list in three atomic steps each: load the
head, read or write a link, compare and swap the head. The swap compares the head alone. A
node that is not on the list belongs to a thread, which may write anything into it. `exec` is
one atomic step of one thread; a step that is not possible leaves the state as it is.

`Unchanged` says that a swap which is about to pop finds the link it has read. Under this
condition every step keeps `Sound`: the list is intact, and no node is owned twice or owned
and listed.
-/
namespace VoidCache.Treiber

variable {T P : Type}

/-- Where a thread is. The nodes are the local variables of the two loops. -/
inductive Pc (P : Type) where
  | idle
  | pop
  | popLoaded (head : P)
  | popRead (head next : P)
  | push (node : P)
  | pushLoaded (node head : P)
  | pushWritten (node head : P)
  deriving DecidableEq

/-- The node a thread is about to push. -/
def Pc.pushing : Pc P → Option P
  | push node | pushLoaded node _ | pushWritten node _ => some node
  | _ => none

/-- The node a thread is about to pop. -/
def Pc.popping : Pc P → Option P
  | popLoaded head | popRead head _ => some head
  | _ => none

structure State (T P : Type) where
  head : P
  next : P → P
  pc : T → Pc P
  owns : T → List P

/-- The atomic steps of thread `t`. A weak compare and swap may fail without a reason, so the
outcome `ok` of a swap that could succeed is not determined. -/
inductive Act (T P : Type) where
  | alloc (t : T)
  | loadPop (t : T)
  | readNext (t : T)
  | casPop (t : T) (ok : Bool)
  | free (t : T) (node : P)
  | loadPush (t : T)
  | writeNext (t : T)
  | casPush (t : T) (ok : Bool)
  | scribble (t : T) (node link : P)
  | give (t u : T) (node : P)

namespace State

def goto [DecidableEq T] (s : State T P) (t : T) (pc : Pc P) : State T P :=
  { s with pc := Function.update s.pc t pc }

def setOwns [DecidableEq T] (s : State T P) (t : T) (nodes : List P) : State T P :=
  { s with owns := Function.update s.owns t nodes }

def setNext [DecidableEq P] (s : State T P) (node link : P) : State T P :=
  { s with next := Function.update s.next node link }

end State

/-- One atomic step. Only a node that the thread owns can be freed, written to or given away,
and only by a thread that is not in the middle of a call. -/
def exec [DecidableEq T] [DecidableEq P] (nil : P) (s : State T P) : Act T P → State T P
  | .alloc t => if s.pc t = .idle then s.goto t .pop else s
  | .loadPop t =>
    if s.pc t = .pop then
      if s.head = nil then s.goto t .idle else s.goto t (.popLoaded s.head)
    else s
  | .readNext t =>
    match s.pc t with
    | .popLoaded head => s.goto t (.popRead head (s.next head))
    | _ => s
  | .casPop t ok =>
    match s.pc t with
    | .popRead head next =>
      if ok = true ∧ s.head = head then
        { ((s.goto t .idle).setOwns t (head :: s.owns t)) with head := next }
      else s.goto t .pop
    | _ => s
  | .free t node => if s.pc t = .idle ∧ node ∈ s.owns t then s.goto t (.push node) else s
  | .loadPush t =>
    match s.pc t with
    | .push node => s.goto t (.pushLoaded node s.head)
    | _ => s
  | .writeNext t =>
    match s.pc t with
    | .pushLoaded node head => (s.goto t (.pushWritten node head)).setNext node head
    | _ => s
  | .casPush t ok =>
    match s.pc t with
    | .pushWritten node head =>
      if ok = true ∧ s.head = head then
        { ((s.goto t .idle).setOwns t ((s.owns t).erase node)) with head := node }
      else s.goto t (.push node)
    | _ => s
  | .scribble t node link => if s.pc t = .idle ∧ node ∈ s.owns t then s.setNext node link else s
  | .give t u node =>
    if s.pc t = .idle ∧ node ∈ s.owns t ∧ u ≠ t then
      (s.setOwns t ((s.owns t).erase node)).setOwns u (node :: s.owns u)
    else s

/-- Steps have no result of their own. -/
def step [DecidableEq T] [DecidableEq P] (nil : P) (s : State T P) (a : Act T P) :
    State T P × Unit := (exec nil s a, ())

/-- A swap that is about to pop finds the link that was read: the head has not been popped and
pushed back in between. -/
def Unchanged (s : State T P) : Act T P → Prop
  | .casPop t _ =>
    match s.pc t with
    | .popRead head next => s.head = head → s.next head = next
    | _ => True
  | _ => True

instance [DecidableEq P] (s : State T P) : (a : Act T P) → Decidable (Unchanged s a)
  | .casPop t _ =>
    match h : s.pc t with
    | .popRead head next =>
      decidable_of_iff (s.head = head → s.next head = next) (by simp only [Unchanged, h])
    | .idle | .pop | .popLoaded _ | .push _ | .pushLoaded .. | .pushWritten .. =>
      isTrue (by simp only [Unchanged, h])
  | .alloc _ | .loadPop _ | .readNext _ | .free .. | .loadPush _ | .writeNext _ | .casPush ..
  | .scribble .. | .give .. => isTrue trivial

/-! ## Uninterrupted calls -/

section Uninterrupted

variable [DecidableEq T] {nil : P} {s : State T P} {t : T}

/-- A thread that ends where it began. -/
theorem update_idle {pc : T → Pc P} (h : pc t = .idle) : Function.update pc t .idle = pc := by
  rw [← h, Function.update_eq_self]

theorem run_pop_nil [DecidableEq P] (hpc : s.pc t = .idle) (hnil : s.head = nil) :
    Machine.run (step nil) s [.alloc t, .loadPop t, .readNext t, .casPop t true] = s := by
  subst hnil
  simp [Machine.run, step, exec, State.goto, hpc, update_idle hpc]

theorem run_pop [DecidableEq P] (hpc : s.pc t = .idle) (hne : s.head ≠ nil) :
    Machine.run (step nil) s [.alloc t, .loadPop t, .readNext t, .casPop t true] =
      { (s.setOwns t (s.head :: s.owns t)) with head := s.next s.head } := by
  simp [Machine.run, step, exec, State.goto, State.setOwns, hpc, hne, update_idle hpc]

theorem run_push [DecidableEq P] (hpc : s.pc t = .idle) {b : P} (hb : b ∈ s.owns t) :
    Machine.run (step nil) s [.free t b, .loadPush t, .writeNext t, .casPush t true] =
      { ((s.setOwns t ((s.owns t).erase b)).setNext b s.head) with head := b } := by
  simp [Machine.run, step, exec, State.goto, State.setOwns, State.setNext, hpc, hb, update_idle hpc]

end Uninterrupted

/-! ## What the steps keep -/

/-- The list `l` is intact, the nodes of the threads are apart from it and from each other,
and a link written for a push is still there. -/
structure Sound (nil : P) (s : State T P) (l : List P) : Prop where
  linked : Linked s.next nil s.head l
  nodup : l.Nodup
  apart : ∀ t, ∀ b ∈ s.owns t, b ∉ l
  excl : ∀ t u b, b ∈ s.owns t → b ∈ s.owns u → t = u
  each : ∀ t, (s.owns t).Nodup
  ne_nil : ∀ t, ∀ b ∈ s.owns t, b ≠ nil
  popping : ∀ t b, (s.pc t).popping = some b → b ≠ nil
  pushing : ∀ t b, (s.pc t).pushing = some b → b ∈ s.owns t
  written : ∀ t b h, s.pc t = .pushWritten b h → s.next b = h

namespace Sound

variable {nil : P} {s : State T P} {l : List P} {t : T}

theorem goto [DecidableEq T] (h : Sound nil s l) (pc : Pc P) (hp : ∀ b, pc.popping = some b → b ≠ nil)
    (hb : ∀ b, pc.pushing = some b → b ∈ s.owns t)
    (hw : ∀ b x, pc = .pushWritten b x → s.next b = x) : Sound nil (s.goto t pc) l := by
  have hpc : ∀ u, (s.goto t pc).pc u = if u = t then pc else s.pc u := fun u => by
    simp [State.goto, Function.update_apply]
  refine ⟨h.linked, h.nodup, h.apart, h.excl, h.each, h.ne_nil, fun u => ?_, fun u => ?_, fun u => ?_⟩
  all_goals
    rw [hpc u]
    split_ifs with he
  · exact hp
  · exact h.popping u
  · exact he ▸ hb
  · exact h.pushing u
  · exact hw
  · exact h.written u

/-- A thread writes into a node of its own that no other push relies on. -/
theorem setNext [DecidableEq P] (h : Sound nil s l) {b : P} (x : P) (hb : b ∈ s.owns t)
    (hw : ∀ u y, s.pc u ≠ .pushWritten b y) : Sound nil (s.setNext b x) l := by
  refine ⟨h.linked.congr fun y hy => Function.update_of_ne ?_ _ _, h.nodup, h.apart, h.excl, h.each,
    h.ne_nil, h.popping, h.pushing, fun u b' y hu => ?_⟩
  · rintro rfl
    exact h.apart t y hb hy
  · have hne : b' ≠ b := by
      rintro rfl
      exact hw u y hu
    exact (Function.update_of_ne hne _ _).trans (h.written u b' y hu)

/-- A thread that is in no push does not lose a link that another thread has written. -/
theorem not_written (h : Sound nil s l) {b : P} (hb : b ∈ s.owns t)
    (ht : ∀ y, s.pc t ≠ .pushWritten b y) (u : T) (y : P) : s.pc u ≠ .pushWritten b y := by
  intro hu
  have hbu : b ∈ s.owns u := h.pushing u b (by rw [hu]; rfl)
  rw [← h.excl t u b hb hbu] at hu
  exact ht y hu

/-- The head moves to the next node and the old head goes to the thread. -/
theorem pop [DecidableEq T] (h : Sound nil s l) {b : P} (hhead : s.head = b) (hb : b ≠ nil) :
    ∃ l', Sound nil { (s.setOwns t (b :: s.owns t)) with head := s.next b } l' := by
  obtain ⟨l', rfl, hl'⟩ := h.linked.exists_cons (hhead ▸ hb)
  rw [hhead] at hl'
  have hbl : b ∉ l' ∧ l'.Nodup := by simpa [hhead] using h.nodup
  have hfree : ∀ u, b ∉ s.owns u := fun u hu => h.apart u b hu (by simp [hhead])
  have howns : ∀ u x, x ∈ Function.update s.owns t (b :: s.owns t) u ↔
      (u = t ∧ x = b) ∨ x ∈ s.owns u := fun u x => by
    by_cases hu : u = t
    · subst hu
      simp
    · simp [hu]
  refine ⟨l', hl', hbl.2, ?_, ?_, ?_, ?_, h.popping, ?_, h.written⟩
  all_goals simp only [State.setOwns, howns]
  · rintro u x (⟨_, rfl⟩ | hx) hmem
    · exact hbl.1 hmem
    · exact h.apart u x hx (by simp [hmem])
  · have := h.excl
    grind
  · intro u
    by_cases hu : u = t
    · subst hu
      simpa using ⟨hfree u, h.each u⟩
    · simpa [hu] using h.each u
  · have := h.ne_nil
    grind
  · exact fun u x hx => Or.inr (h.pushing u x hx)

/-- The node of the thread becomes the head. -/
theorem push [DecidableEq T] [DecidableEq P] (h : Sound nil s l) {b : P} (hpc : s.pc t = .idle)
    (hb : b ∈ s.owns t) (hnext : s.next b = s.head) :
    Sound nil { (s.setOwns t ((s.owns t).erase b)) with head := b } (b :: l) := by
  have howns : ∀ u x, x ∈ Function.update s.owns t ((s.owns t).erase b) u ↔
      x ∈ s.owns u ∧ x ≠ b := fun u x => by
    by_cases hu : u = t
    · subst hu
      simp [(h.each u).mem_erase_iff, and_comm]
    · have : x ∈ s.owns u → x ≠ b := fun hx he => hu (h.excl u t b (he ▸ hx) hb)
      simpa [hu] using this
  refine ⟨⟨rfl, h.ne_nil t b hb, hnext ▸ h.linked⟩, by simpa using ⟨h.apart t b hb, h.nodup⟩,
    ?_, ?_, ?_, ?_, h.popping, ?_, h.written⟩
  all_goals simp only [State.setOwns, howns]
  · have := h.apart
    grind
  · exact fun u v x hu hv => h.excl u v x hu.1 hv.1
  · intro u
    by_cases hu : u = t
    · subst hu
      simpa using (h.each u).erase b
    · simpa [hu] using h.each u
  · exact fun u x hx => h.ne_nil u x hx.1
  · intro u x hx
    refine ⟨h.pushing u x hx, ?_⟩
    rintro rfl
    -- the pushing thread is no longer in its loop, and no other thread owns the node
    rw [h.excl u t x (h.pushing u x hx) hb, hpc] at hx
    exact absurd hx (by simp [Pc.pushing])

/-- A node changes hands. -/
theorem give [DecidableEq T] [DecidableEq P] (h : Sound nil s l) {b : P} {u : T}
    (hpc : s.pc t = .idle) (hb : b ∈ s.owns t) (hu : u ≠ t) :
    Sound nil ((s.setOwns t ((s.owns t).erase b)).setOwns u (b :: s.owns u)) l := by
  have howns : ∀ v x, x ∈ Function.update (Function.update s.owns t ((s.owns t).erase b)) u
      (b :: s.owns u) v ↔ (x ∈ s.owns v ∧ x ≠ b) ∨ (v = u ∧ x = b) := fun v x => by
    have hex := h.excl v t b
    have hmem := (h.each t).mem_erase_iff (a := x) (b := b)
    by_cases hv : v = u
    · subst hv
      by_cases hx : x = b
      · simp [hx]
      · simp [hx]
    · by_cases ht : v = t
      · subst ht
        simp [hv, hmem, and_comm]
      · have : x ∈ s.owns v → x ≠ b := fun hx he => ht (hex (he ▸ hx) hb)
        simpa [hv, ht] using this
  refine ⟨h.linked, h.nodup, ?_, ?_, ?_, ?_, h.popping, ?_, h.written⟩
  all_goals simp only [State.setOwns, howns]
  · have := h.apart
    grind
  · have := h.excl
    grind
  · intro v
    by_cases hv : v = u
    · subst hv
      have : b ∉ s.owns v := fun hx => hu (h.excl v t b hx hb)
      simpa using ⟨this, h.each v⟩
    · by_cases ht : v = t
      · subst ht
        simpa [hv] using (h.each v).erase b
      · simpa [hv, ht] using h.each v
  · have := h.ne_nil
    grind
  · intro v x hx
    refine Or.inl ⟨h.pushing v x hx, ?_⟩
    rintro rfl
    rw [h.excl v t x (h.pushing v x hx) hb, hpc] at hx
    exact absurd hx (by simp [Pc.pushing])

/-- A thread outside both loops is bound by nothing. -/
theorem free_goto [DecidableEq T] (h : Sound nil s l) {pc : Pc P} (hpc : pc = .idle ∨ pc = .pop) :
    Sound nil (s.goto t pc) l := by
  rcases hpc with rfl | rfl
  · exact h.goto _ (by simp [Pc.popping]) (by simp [Pc.pushing]) (by simp)
  · exact h.goto _ (by simp [Pc.popping]) (by simp [Pc.pushing]) (by simp)

/-- One atomic step of any thread. -/
theorem exec [DecidableEq T] [DecidableEq P] (h : Sound nil s l) {a : Act T P} (ha : Unchanged s a) :
    ∃ l', Sound nil (exec nil s a) l' := by
  cases a with
  | alloc t =>
    simp only [Treiber.exec]
    split_ifs
    · exact ⟨l, h.free_goto (Or.inr rfl)⟩
    · exact ⟨l, h⟩
  | loadPop t =>
    simp only [Treiber.exec]
    split_ifs with hpc hnil
    · exact ⟨l, h.free_goto (Or.inl rfl)⟩
    · exact ⟨l, h.goto _ (by simpa [Pc.popping] using hnil) (by simp [Pc.pushing]) (by simp)⟩
    · exact ⟨l, h⟩
  | readNext t =>
    simp only [Treiber.exec]
    split
    next b hpc =>
      have hb := h.popping t b (by rw [hpc]; rfl)
      exact ⟨l, h.goto _ (by simpa [Pc.popping] using hb) (by simp [Pc.pushing]) (by simp)⟩
    next => exact ⟨l, h⟩
  | casPop t ok =>
    simp only [Treiber.exec, Unchanged] at ha ⊢
    split
    next b n hpc =>
      rw [hpc] at ha
      split_ifs with hok
      · obtain rfl : s.next b = n := ha hok.2
        have hidle : Sound nil (s.goto t .idle) l := h.free_goto (Or.inl rfl)
        exact hidle.pop (t := t) hok.2 (h.popping t b (by rw [hpc]; rfl))
      · exact ⟨l, h.free_goto (Or.inr rfl)⟩
    next => exact ⟨l, h⟩
  | free t b =>
    simp only [Treiber.exec]
    split_ifs with hb
    · exact ⟨l, h.goto _ (by simp [Pc.popping]) (by simpa [Pc.pushing] using hb.2) (by simp)⟩
    · exact ⟨l, h⟩
  | loadPush t =>
    simp only [Treiber.exec]
    split
    next b hpc =>
      have hb := h.pushing t b (by rw [hpc]; rfl)
      exact ⟨l, h.goto _ (by simp [Pc.popping]) (by simpa [Pc.pushing] using hb) (by simp)⟩
    next => exact ⟨l, h⟩
  | writeNext t =>
    simp only [Treiber.exec]
    split
    next b x hpc =>
      have hb := h.pushing t b (by rw [hpc]; rfl)
      have hset := h.setNext x hb (h.not_written hb (by simp [hpc]))
      refine ⟨l, hset.goto (t := t) (.pushWritten b x) (by simp [Pc.popping]) ?_ ?_⟩
      · rintro _ ⟨⟩
        exact hb
      · rintro _ _ ⟨⟩
        exact Function.update_self ..
    next => exact ⟨l, h⟩
  | casPush t ok =>
    simp only [Treiber.exec]
    split
    next b x hpc =>
      have hb := h.pushing t b (by rw [hpc]; rfl)
      split_ifs with hok
      · have hidle : Sound nil (s.goto t .idle) l := h.free_goto (Or.inl rfl)
        exact ⟨b :: l, hidle.push (by simp [State.goto]) hb ((h.written t b x hpc).trans hok.2.symm)⟩
      · exact ⟨l, h.goto _ (by simp [Pc.popping]) (by simpa [Pc.pushing] using hb) (by simp)⟩
    next => exact ⟨l, h⟩
  | scribble t b x =>
    simp only [Treiber.exec]
    split_ifs with hb
    · exact ⟨l, h.setNext x hb.2 (h.not_written hb.2 (by simp [hb.1]))⟩
    · exact ⟨l, h⟩
  | give t u b =>
    simp only [Treiber.exec]
    split_ifs with hb
    · exact ⟨l, h.give hb.1 hb.2.1 hb.2.2⟩
    · exact ⟨l, h⟩

theorem run [DecidableEq T] [DecidableEq P] (h : Sound nil s l) {acts : List (Act T P)}
    (hacts : Machine.Along (step nil) Unchanged s acts) :
    ∃ l', Sound nil (Machine.run (step nil) s acts) l' :=
  Machine.run_inv (I := fun s => ∃ l', Sound nil s l') (fun _ _ h ha => h.elim fun _ h => h.exec ha)
    ⟨l, h⟩ hacts

end Sound

/-- In a sound state no node is owned twice, or owned and on the list. -/
theorem Sound.exclusive {nil : P} {s : State T P} {l : List P} (h : Sound nil s l) :
    (∀ t u b, b ∈ s.owns t → b ∈ s.owns u → t = u) ∧
      ∀ t, ∀ b ∈ s.owns t, ¬ OnList s.next nil s.head b :=
  ⟨h.excl, fun t b hb hl => h.apart t b hb (h.linked.onList_iff.mp hl)⟩

end VoidCache.Treiber
