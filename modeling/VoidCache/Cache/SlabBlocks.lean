import VoidCache.Cache.SlabUse
import VoidCache.Cache.View

/-!
# What the slab allocator guarantees over whole runs

Every block is at any time on one free list or referred to by one live entry at most, and is
large enough for the value it was asked for. This holds although a block may be given back
to a smaller class than it was taken from: an entry records at most 65535 bytes of its
length, and the class is computed from that. Classes keep their blocks only as long as no
value is longer than 65536 bytes and still in a block.
-/
namespace VoidCache

variable {fl fl' : Nat → List Ptr} {C C' : Multiset EntryData} {d ne : EntryData} {p : Ptr}
  {key val : List UInt8}

/-- The block that holds the value of an entry, if one does. -/
def EntryData.valBlock (d : EntryData) : Multiset Ptr :=
  if hasFlag d.flags flagValSlab then {d.ptrAt d.valOff} else 0

/-- The blocks that live entries refer to. -/
def Cache.liveBlocks (c : Cache) : Multiset Ptr := c.contents.bind EntryData.valBlock

theorem EntryData.valBlock_le_ptrs (d : EntryData) : d.valBlock ≤ d.ptrs := by
  unfold EntryData.valBlock EntryData.ptrs
  by_cases hs : hasFlag d.flags flagValSlab = true
  · rw [hasFlag_or, hs, Bool.true_or]
    exact Multiset.le_add_left _ _
  · rw [if_neg hs]
    exact Multiset.zero_le _

theorem Cache.liveBlocks_le (c : Cache) : c.liveBlocks ≤ ptrsOf c.contents := by
  unfold Cache.liveBlocks ptrsOf
  induction c.contents using Multiset.induction_on with
  | empty => simp
  | cons d C ih =>
    rw [Multiset.cons_bind, Multiset.cons_bind]
    exact add_le_add d.valBlock_le_ptrs ih

/-! ## Size -/

/-- A block of some arena whose blocks have at least `sz` bytes. -/
def Carved (sz : Nat) (p : Ptr) : Prop :=
  ∃ c i, p = .block c i ∧ c < slabClasses ∧ i < slabBlocks c ∧ sz ≤ slabClassSize c

theorem Carved.mono {sz sz' : Nat} (h : Carved sz p) (hle : sz' ≤ sz) : Carved sz' p := by
  obtain ⟨c, i, hp, hc, hi, hsz⟩ := h
  exact ⟨c, i, hp, hc, hi, hle.trans hsz⟩

/-- A block fits on the list of every class that is large enough for less than it holds. -/
theorem Carved.class {sz : Nat} (h : Carved sz p) : Carved (slabClassSize (slabClassFor sz)) p := by
  obtain ⟨c, i, hp, hc, hi, hsz⟩ := h
  exact ⟨c, i, hp, hc, hi, slabClassSize_mono (slabClassFor_le hsz)⟩

/-- Blocks on the list of a class have its size, and blocks of live entries the size that was
asked for when they were handed out. -/
structure Sized (asked : Ptr → Nat) (fl : Nat → List Ptr) (C : Multiset EntryData) : Prop where
  free : ∀ cls, cls < slabClasses → ∀ p ∈ fl cls, Carved (slabClassSize cls) p
  live : ∀ d ∈ C, hasFlag d.flags flagValSlab = true →
    Carved (asked (d.ptrAt d.valOff)) (d.ptrAt d.valOff) ∧ d.valLen ≤ asked (d.ptrAt d.valOff)

theorem initialFree_sized (asked : Ptr → Nat) : Sized asked initialFree 0 := by
  refine ⟨fun cls hcls p hp => ?_, fun d hd => absurd hd (Multiset.notMem_zero d)⟩
  obtain ⟨i, hi, rfl⟩ := List.mem_map.mp hp
  exact ⟨cls, i, rfl, hcls, List.mem_range.mp hi, le_refl _⟩

namespace Sized

variable {asked asked' : Ptr → Nat}

theorem giveBack (h : Sized asked fl (d ::ₘ C)) : Sized asked (giveBack d fl) C := by
  refine ⟨fun cls hcls p hp => ?_, fun e he => h.live e (Multiset.mem_cons_of_mem he)⟩
  unfold VoidCache.giveBack at hp
  split_ifs at hp with hs
  · obtain ⟨hcarved, hlen⟩ := h.live d (Multiset.mem_cons_self d C) hs
    by_cases hc : cls = slabClassFor d.valLen
    · subst hc
      rw [Function.update_self, List.mem_cons] at hp
      rcases hp with rfl | hp
      · exact (hcarved.mono hlen).class
      · exact h.free _ hcls p hp
    · rw [Function.update_of_ne hc] at hp
      exact h.free cls hcls p hp
  · exact h.free cls hcls p hp

theorem mono (h : Sized asked fl C) (hle : C' ≤ C) : Sized asked fl C' :=
  ⟨h.free, fun d hd => h.live d (Multiset.mem_of_le hle hd)⟩

theorem released (h : Sized asked fl C) (hr : Released fl C fl' C') : Sized asked fl' C' := by
  induction hr with
  | refl => exact h
  | cons _ ih => exact ih h.giveBack

/-- A new request for a block that is not in use. -/
theorem ask (h : Sized asked fl C)
    (hsame : ∀ d ∈ C, hasFlag d.flags flagValSlab = true →
      asked' (d.ptrAt d.valOff) = asked (d.ptrAt d.valOff)) : Sized asked' fl C := by
  refine ⟨h.free, fun d hd hs => ?_⟩
  rw [hsame d hd hs]
  exact h.live d hd hs

theorem taken (h : Sized asked fl C) (ht : Taken fl key val fl' ne)
    (hlen : ne.valLen = min val.length valMax)
    (hask : ∀ l, InSlab key val → fl (slabClassFor val.length) = ne.ptrAt ne.valOff :: l →
      asked (ne.ptrAt ne.valOff) = val.length) : Sized asked fl' (ne ::ₘ C) := by
  cases ht with
  | outside _ hs =>
    refine ⟨h.free, fun d hd hd' => ?_⟩
    rcases Multiset.mem_cons.mp hd with rfl | hd
    · rw [hs] at hd'
      cases hd'
    · exact h.live d hd hd'
  | @block _ p l hin hl hs hp =>
    have hfree : ∀ q ∈ fl (slabClassFor val.length), Carved (slabClassSize (slabClassFor val.length)) q :=
      h.free _ (slabClassFor_lt _)
    rw [hl] at hfree
    refine ⟨fun cls hcls q hq => ?_, fun d hd hd' => ?_⟩
    · by_cases hc : cls = slabClassFor val.length
      · subst hc
        rw [Function.update_self] at hq
        exact hfree q (List.mem_cons_of_mem p hq)
      · rw [Function.update_of_ne hc] at hq
        exact h.free cls hcls q hq
    · rcases Multiset.mem_cons.mp hd with rfl | hd
      · rw [hask l hin (hp ▸ hl), hp, hlen]
        have hcarved := hfree p (List.mem_cons_self ..)
        exact ⟨hcarved.mono (le_slabClassSize_slabClassFor hin.2), Nat.min_le_left _ _⟩
      · exact h.live d hd hd'

end Sized

/-! ## Requests

Which size a block was asked for is not stored anywhere. A run is therefore followed together
with a record of the requests. -/

/-- The record after one call: a `vc_set` that keeps its value in a block asks for its length. -/
def noteRequest (asked : Ptr → Nat) (c : Cache) : Op → Ptr → Nat
  | .set key val _ _ =>
    if Settable key val ∧ InSlab key val then
      match (slabAlloc c.mem.slab val.length).1 with
      | some p => Function.update asked p val.length
      | none => asked
    else asked
  | _ => asked

def stepNoting (s : World × (Ptr → Nat)) (op : Op) : (World × (Ptr → Nat)) × Res :=
  (((step s.1 op).1, noteRequest s.2 s.1.cache op), (step s.1 op).2)

theorem run_stepNoting (s : World × (Ptr → Nat)) (ops : List Op) :
    (Machine.run stepNoting s ops).1 = Machine.run step s.1 ops := by
  induction ops generalizing s with
  | nil => rfl
  | cons op ops ih => exact ih _

theorem slabAlloc_eq {sl : Slab} (hf : FreeLists sl fl) {sz : Nat} {l : List Ptr}
    (hl : fl (slabClassFor sz) = p :: l) : (slabAlloc sl sz).1 = some p := by
  have hlinked := hf.linked _ (slabClassFor_lt sz)
  rw [hl] at hlinked
  obtain ⟨hhead, hne, -⟩ := hlinked
  unfold slabAlloc
  dsimp only
  rw [if_neg (hhead ▸ hne), hhead]

theorem slabAlloc_mem {sl : Slab} (hf : FreeLists sl fl) {sz : Nat}
    (h : (slabAlloc sl sz).1 = some p) : p ∈ fl (slabClassFor sz) := by
  rcases ha : slabAlloc sl sz with ⟨q, sl'⟩
  rw [ha] at h
  obtain ⟨l, hl, -⟩ := hf.alloc (ha.trans (congrArg (·, sl') h))
  rw [hl]
  exact List.mem_cons_self ..

/-- A request changes the record of a free block only. -/
theorem noteRequest_of_notMem {c : Cache} (hf : FreeLists c.mem.slab fl) (asked : Ptr → Nat) (op : Op)
    (hp : p ∉ freeBlocks fl) : noteRequest asked c op p = asked p := by
  cases op with
  | set key val ttlSec env =>
    unfold noteRequest
    dsimp only
    split_ifs
    · cases ha : (slabAlloc c.mem.slab val.length).1 with
      | none => rfl
      | some q =>
        refine Function.update_of_ne ?_ _ _
        rintro rfl
        exact hp (mem_freeBlocks.mpr ⟨_, slabClassFor_lt _, slabAlloc_mem hf ha⟩)
    · rfl
  | _ => rfl

theorem noteRequest_set {c : Cache} (hf : FreeLists c.mem.slab fl) (asked : Ptr → Nat)
    (hset : Settable key val) (hin : InSlab key val) {l : List Ptr}
    (hl : fl (slabClassFor val.length) = p :: l) (ttlSec : UInt32) (env : Env) :
    noteRequest asked c (.set key val ttlSec env) p = val.length := by
  unfold noteRequest
  dsimp only
  rw [if_pos ⟨hset, hin⟩, slabAlloc_eq hf hl]
  exact Function.update_self ..

/-- What is kept along a run that notes its requests. -/
structure Fitting (s : World × (Ptr → Nat)) : Prop where
  valid : s.1.cache.Valid
  sized : ∃ fl, FreeLists s.1.cache.mem.slab fl ∧ Sized s.2 fl s.1.cache.contents

theorem Fitting.step {s : World × (Ptr → Nat)} (h : Fitting s) (op : Op) : Fitting (stepNoting s op).1 := by
  obtain ⟨hv, fl, hf, hsized⟩ := h
  obtain ⟨fl', hf', he⟩ := step_slabEffect hv hf op
  refine ⟨(step_effect hv op).valid hv, fl', hf', ?_⟩
  have hasked : Sized (noteRequest s.2 s.1.cache op) fl s.1.cache.contents := by
    refine hsized.ask fun d hd hs => noteRequest_of_notMem hf _ _ fun hfree => ?_
    have hmem : d.ptrAt d.valOff ∈ ptrsOf s.1.cache.contents :=
      ptrs_subset hd (by simp [EntryData.ptrs, hasFlag_or, hs])
    exact Multiset.disjoint_left.mp (Multiset.nodup_add.mp (hv.owned.nodup hf)).2.2 hfree hmem
  unfold stepNoting
  dsimp only
  generalize (VoidCache.step s.1 op).1.cache = c' at he ⊢
  generalize (VoidCache.step s.1 op).2 = r at he
  cases he with
  | stored hset ht hlen hr hafter =>
    have htaken := hasked.taken ht hlen fun l hin hl => noteRequest_set hf _ hset hin hl _ _
    rw [← Multiset.singleton_add, add_comm] at htaken
    refine (htaken.released (hr.add _)).mono ?_
    rw [add_comm, Multiset.singleton_add, ← hafter]
    exact Multiset.le_add_right _ _
  | failed hc =>
    rw [hc]
    exact hasked
  | released _ hr => exact hasked.released hr

theorem vcCreate_lists {file : Option (Nat → UInt8)} {slots : UInt32} {c : Cache}
    (hc : vcCreate file slots = some c) : FreeLists c.mem.slab initialFree ∧ c.contents = 0 := by
  obtain ⟨cap, -, -, rfl⟩ := vcCreate_cases hc
  exact ⟨slabInit_freeLists, newCache_contents file cap⟩

theorem fitting_run {file : Option (Nat → UInt8)} {slots : UInt32} {c : Cache}
    (hc : vcCreate file slots = some c) (now : Nat) (asked : Ptr → Nat) (ops : List Op) :
    Fitting (Machine.run stepNoting (⟨c, now⟩, asked) ops) := by
  have hinit : Fitting (⟨c, now⟩, asked) := by
    obtain ⟨hf, hempty⟩ := vcCreate_lists hc
    exact ⟨(vcCreate_outcome hc).1, initialFree, hf, hempty ▸ initialFree_sized asked⟩
  exact Machine.run_inv (P := fun _ _ => True) (fun s op hs _ => hs.step op) hinit
    (Machine.along_of_forall fun _ _ _ => trivial)

/-- In every state that a run reaches, no block is twice among the free blocks and the blocks of
live entries, a block of a live entry has the size that was asked for, and so has every block
that `slab_alloc` hands out. The memory model keeps the log apart from the slab: in a run with a
record that overruns the ring (`log_stays_in_ring`) the bytes behind the ring are outside of it. -/
theorem slab_blocks_sized {file : Option (Nat → UInt8)} {slots : UInt32} {c : Cache}
    (hc : vcCreate file slots = some c) (now : Nat) (ops : List Op) :
    let w := Machine.run step ⟨c, now⟩ ops
    let asked := (Machine.run stepNoting (⟨c, now⟩, fun _ => 0) ops).2
    (∃ fl, FreeLists w.cache.mem.slab fl ∧ (freeBlocks fl + w.cache.liveBlocks).Nodup) ∧
      (∀ p ∈ w.cache.liveBlocks, Carved (asked p) p) ∧
      ∀ sz, sz ≤ 64 <<< 15 → ∀ p, (slabAlloc w.cache.mem.slab sz).1 = some p → Carved sz p := by
  intro w asked
  obtain ⟨hv, fl, hf, hsized⟩ := fitting_run hc now (fun _ => 0) ops
  rw [run_stepNoting] at hv hf hsized
  refine ⟨⟨fl, hf, ?_⟩, fun p hp => ?_, fun sz hsz p hp => ?_⟩
  · exact Multiset.nodup_of_le (add_le_add_right w.cache.liveBlocks_le _) (hv.owned.nodup hf)
  · obtain ⟨d, hd, hp⟩ := Multiset.mem_bind.mp hp
    unfold EntryData.valBlock at hp
    split_ifs at hp with hs
    · rw [Multiset.mem_singleton.mp hp]
      exact (hsized.live d hd hs).1
    · exact absurd hp (Multiset.notMem_zero p)
  · have hfree := hsized.free _ (slabClassFor_lt sz) p (slabAlloc_mem hf hp)
    exact hfree.mono (le_slabClassSize_slabClassFor hsz)

/-- One value of 40 bytes: its block is the first of the smallest class and is not free. -/
theorem slab_block_of_value :
    let ops := [Op.set [97] (List.replicate 40 7) 0 calmEnv]
    let w := Machine.run step ⟨newCache none 8, 0⟩ ops
    let asked := (Machine.run stepNoting (⟨newCache none 8, 0⟩, fun _ => 0) ops).2
    Ptr.block 0 0 ∈ w.cache.liveBlocks ∧ asked (.block 0 0) = 40 ∧
      (∀ p ∈ w.cache.liveBlocks, Carved (asked p) p) ∧
      ∃ fl, FreeLists w.cache.mem.slab fl ∧ (freeBlocks fl + w.cache.liveBlocks).Nodup :=
  have hc : vcCreate none 8 = some (newCache none 8) := rfl
  have h := slab_blocks_sized hc 0 [Op.set [97] (List.replicate 40 7) 0 calmEnv]
  ⟨by decide +kernel, by decide +kernel, h.2.1, h.1⟩

/-! ## Capacity -/

/-- A block of the arena of class `cls`. -/
def Ptr.InClass (cls : Nat) : Ptr → Prop
  | .block c _ => c = cls
  | _ => False

instance (cls : Nat) : DecidablePred (Ptr.InClass cls)
  | .block c _ => inferInstanceAs (Decidable (c = cls))
  | .null | .heap _ | .map _ => isFalse id

/-- The blocks of one class that the entries `C` refer to. -/
def usedBlocks (cls : Nat) (C : Multiset EntryData) : Multiset Ptr :=
  (C.bind EntryData.valBlock).filter (Ptr.InClass cls)

/-- The free blocks and the blocks in use of each class are the ones it was created with. -/
def Cache.Conserved (c : Cache) : Prop :=
  ∃ fl, FreeLists c.mem.slab fl ∧ ∀ cls, cls < slabClasses →
    (fl cls : Multiset Ptr) + usedBlocks cls c.contents = (initialFree cls : Multiset Ptr)

theorem Ptr.InClass.eq {cls cls' : Nat} (h : p.InClass cls) (h' : p.InClass cls') : cls = cls' := by
  cases p with
  | block c i => exact h.symm.trans h'
  | _ => exact absurd h id

theorem usedBlocks_of_outside {cls : Nat} (hs : ¬ hasFlag d.flags flagValSlab = true) :
    usedBlocks cls (d ::ₘ C) = usedBlocks cls C := by
  rw [usedBlocks, Multiset.cons_bind, EntryData.valBlock, if_neg hs, zero_add]
  rfl

theorem usedBlocks_of_home {cls : Nat} (hs : hasFlag d.flags flagValSlab = true)
    (hin : (d.ptrAt d.valOff).InClass cls) :
    usedBlocks cls (d ::ₘ C) = d.ptrAt d.valOff ::ₘ usedBlocks cls C := by
  rw [usedBlocks, Multiset.cons_bind, EntryData.valBlock, if_pos hs, Multiset.singleton_add,
    Multiset.filter_cons_of_pos _ hin]
  rfl

theorem usedBlocks_of_other {cls cls' : Nat} (hs : hasFlag d.flags flagValSlab = true)
    (hin : (d.ptrAt d.valOff).InClass cls') (hne : cls ≠ cls') :
    usedBlocks cls (d ::ₘ C) = usedBlocks cls C := by
  rw [usedBlocks, Multiset.cons_bind, EntryData.valBlock, if_pos hs, Multiset.singleton_add,
    Multiset.filter_cons_of_neg _ fun h => hne (h.eq hin)]
  rfl

/-- Each class has its blocks, and each live entry will give its block back to the class it is
from. -/
structure Balanced (fl : Nat → List Ptr) (C : Multiset EntryData) : Prop where
  classes : ∀ cls, cls < slabClasses →
    (fl cls : Multiset Ptr) + usedBlocks cls C = (initialFree cls : Multiset Ptr)
  home : ∀ d ∈ C, hasFlag d.flags flagValSlab = true →
    (d.ptrAt d.valOff).InClass (slabClassFor d.valLen)

namespace Balanced

theorem giveBack (h : Balanced fl (d ::ₘ C)) : Balanced (giveBack d fl) C := by
  refine ⟨fun cls hcls => ?_, fun e he => h.home e (Multiset.mem_cons_of_mem he)⟩
  have hclass := h.classes cls hcls
  unfold VoidCache.giveBack
  split_ifs with hs
  · have hin := h.home d (Multiset.mem_cons_self d C) hs
    by_cases hc : cls = slabClassFor d.valLen
    · subst hc
      rw [usedBlocks_of_home hs hin, Multiset.add_cons] at hclass
      rwa [Function.update_self, ← Multiset.cons_coe, Multiset.cons_add]
    · rw [usedBlocks_of_other hs hin hc] at hclass
      rwa [Function.update_of_ne hc]
  · rwa [usedBlocks_of_outside hs] at hclass

theorem released (h : Balanced fl C) (hr : Released fl C fl' C') : Balanced fl' C' := by
  induction hr with
  | refl => exact h
  | cons _ ih => exact ih h.giveBack

theorem taken (h : Balanced fl C) (ht : Taken fl key val fl' ne)
    (hclass : InSlab key val → slabClassFor ne.valLen = slabClassFor val.length) :
    Balanced fl' (ne ::ₘ C) := by
  cases ht with
  | outside _ hs =>
    have hs' : ¬ hasFlag ne.flags flagValSlab = true := by simp [hs]
    refine ⟨fun cls hcls => ?_, fun d hd hd' => ?_⟩
    · rw [usedBlocks_of_outside hs']
      exact h.classes cls hcls
    · rcases Multiset.mem_cons.mp hd with rfl | hd
      · exact absurd hd' hs'
      · exact h.home d hd hd'
  | @block _ p l hin hl hs hp =>
    -- the block that was taken is one of those its class was created with
    have hcls := h.classes _ (slabClassFor_lt val.length)
    have hmem : p ∈ (initialFree (slabClassFor val.length) : Multiset Ptr) := by
      rw [← hcls, hl]
      simp
    obtain ⟨i, -, hblock⟩ := List.mem_map.mp (Multiset.mem_coe.mp hmem)
    have hhome : (ne.ptrAt ne.valOff).InClass (slabClassFor val.length) := by
      rw [hp, ← hblock]
      rfl
    refine ⟨fun cls hcls' => ?_, fun d hd hd' => ?_⟩
    · by_cases hc : cls = slabClassFor val.length
      · subst hc
        rw [hl, ← Multiset.cons_coe, Multiset.cons_add] at hcls
        rwa [Function.update_self, usedBlocks_of_home hs hhome, hp, Multiset.add_cons]
      · rw [Function.update_of_ne hc, usedBlocks_of_other hs hhome hc]
        exact h.classes cls hcls'
    · rcases Multiset.mem_cons.mp hd with rfl | hd
      · rwa [hclass hin]
      · exact h.home d hd hd'

end Balanced

/-- No accepted `vc_set` loses an entry to a full table. -/
def Undropped (w : World) : Op → Prop
  | .set key val ttlSec env =>
    Settable key val → w.cache.dropped w.now env key val ttlSec = none
  | _ => True

/-- A value that is kept in a block has at most 65536 bytes. -/
def Op.ClassKept : Op → Prop
  | .set _ val _ _ => val.length ≤ 65536 ∨ slabClassSize (slabClasses - 1) < val.length
  | _ => True

instance (w : World) : (op : Op) → Decidable (Undropped w op)
  | .set .. => inferInstanceAs (Decidable (_ → _))
  | .get _ | .del .. | .flush | .tick _ => isTrue trivial

instance : (op : Op) → Decidable op.ClassKept
  | .set .. => inferInstanceAs (Decidable (_ ∨ _))
  | .get _ | .del .. | .flush | .tick _ => isTrue trivial

/-- Up to 65536 bytes the recorded length leads to the same class. -/
theorem slabClassFor_recorded {n : Nat} (h : n ≤ 65536) : slabClassFor (min n valMax) = slabClassFor n := by
  rcases Nat.lt_or_eq_of_le h with hlt | rfl
  · rw [Nat.min_eq_left (Nat.le_of_lt_succ hlt : n ≤ valMax)]
  · decide

theorem SlabEffect.balanced {c c' : Cache} {now : Nat} {op : Op} {r : Res}
    (h : SlabEffect c now fl op r c' fl') (hdrop : Undropped ⟨c, now⟩ op) (hop : op.ClassKept)
    (hb : Balanced fl c.contents) : Balanced fl' c'.contents := by
  cases h with
  | stored hset ht hlen hr hafter =>
    have htaken := hb.taken ht fun hin => by
      rw [hlen]
      exact slabClassFor_recorded (hop.resolve_right (Nat.not_lt.mpr hin.2))
    rw [← Multiset.singleton_add, add_comm] at htaken
    have hend := htaken.released (hr.add _)
    rwa [add_comm, Multiset.singleton_add, ← hafter, hdrop hset, one_none, add_zero] at hend
  | failed hc => rwa [hc]
  | released _ hr => exact hb.released hr

/-- `n` allocations of size `sz`, one after the other, all succeed. -/
def allocTimes : Nat → Slab → Nat → Bool
  | 0, _, _ => true
  | n + 1, sl, sz =>
    match slabAlloc sl sz with
    | (none, _) => false
    | (some _, sl) => allocTimes n sl sz

theorem allocTimes_iff {sl : Slab} (hf : FreeLists sl fl) (n sz : Nat) :
    allocTimes n sl sz = true ↔ n ≤ (fl (slabClassFor sz)).length := by
  induction n generalizing sl fl with
  | zero => simp [allocTimes]
  | succ n ih =>
    unfold allocTimes
    rcases ha : slabAlloc sl sz with ⟨_ | p, sl'⟩
    · have hnil : fl (slabClassFor sz) = [] := by
        cases hl : fl (slabClassFor sz) with
        | nil => rfl
        | cons q l =>
          have hsome := slabAlloc_eq hf hl
          rw [ha] at hsome
          cases hsome
      simp [hnil]
    · obtain ⟨l, hl, hf', -⟩ := hf.alloc ha
      have htail := ih hf'
      rw [Function.update_self] at htail
      simp [htail, hl]

theorem balanced_run {file : Option (Nat → UInt8)} {slots : UInt32} {c : Cache}
    (hc : vcCreate file slots = some c) {now : Nat} {ops : List Op}
    (hrun : Machine.Along step (fun w op => Undropped w op ∧ op.ClassKept) ⟨c, now⟩ ops) :
    let w := Machine.run step ⟨c, now⟩ ops
    w.cache.Valid ∧ ∃ fl, FreeLists w.cache.mem.slab fl ∧ Balanced fl w.cache.contents := by
  obtain ⟨hlists, hempty⟩ := vcCreate_lists hc
  have hinit : Balanced initialFree c.contents := by
    rw [hempty]
    exact ⟨fun cls _ => add_zero _, fun d hd => absurd hd (Multiset.notMem_zero d)⟩
  refine Machine.run_inv (I := fun w : World => w.cache.Valid ∧
    ∃ fl, FreeLists w.cache.mem.slab fl ∧ Balanced fl w.cache.contents) (fun w op h hop => ?_)
    ⟨(vcCreate_outcome hc).1, initialFree, hlists, hinit⟩ hrun
  obtain ⟨hv, fl, hf, hb⟩ := h
  obtain ⟨fl', hf', he⟩ := step_slabEffect hv hf op
  exact ⟨(step_effect hv op).valid hv, fl', hf', he.balanced hop.1 hop.2 hb⟩

/-- After a flush each class is full again. -/
theorem Balanced.flush {w : World} (hv : w.cache.Valid) (hf : FreeLists w.cache.mem.slab fl)
    (hb : Balanced fl w.cache.contents) (n sz : Nat) :
    allocTimes n (vcFlush w.cache).mem.slab sz = true ↔ n ≤ (initialFree (slabClassFor sz)).length := by
  obtain ⟨fl', hf', he⟩ := step_slabEffect hv hf .flush
  have hb' := he.balanced trivial trivial hb
  have hempty : (step w .flush).1.cache.contents = 0 :=
    Multiset.map_eq_zero.mp (vcFlush_outcome hv).2.1
  have hclass := congrArg Multiset.card (hb'.classes _ (slabClassFor_lt sz))
  rw [hempty, show usedBlocks (slabClassFor sz) 0 = 0 from rfl, add_zero, Multiset.coe_card,
    Multiset.coe_card] at hclass
  rw [← hclass]
  exact allocTimes_iff hf' n sz

/-- In every run without a dropped insert, in which no value longer than 65536 bytes is kept in a
block, each class keeps the blocks it was created with, and after a flush as many allocations
succeed as at the start. -/
theorem slab_capacity_conserved {file : Option (Nat → UInt8)} {slots : UInt32} {c : Cache}
    (hc : vcCreate file slots = some c) (now : Nat) (ops : List Op)
    (hrun : Machine.Along step (fun w op => Undropped w op ∧ op.ClassKept) ⟨c, now⟩ ops) :
    let w := Machine.run step ⟨c, now⟩ ops
    w.cache.Conserved ∧
      ∀ n sz, allocTimes n (vcFlush w.cache).mem.slab sz = allocTimes n c.mem.slab sz := by
  obtain ⟨hv, fl, hf, hb⟩ := balanced_run hc hrun
  refine ⟨⟨fl, hf, hb.classes⟩, fun n sz => ?_⟩
  rw [Bool.eq_iff_iff, allocTimes_iff (vcCreate_lists hc).1]
  exact hb.flush hv hf n sz

theorem capacity_after_value :
    let w := Machine.run step ⟨newCache none 8, 0⟩ [.set [97] (List.replicate 40 7) 0 calmEnv]
    w.cache.Conserved ∧ ∀ n sz, allocTimes n (vcFlush w.cache).mem.slab sz =
      allocTimes n (newCache none 8).mem.slab sz :=
  have hc : vcCreate none 8 = some (newCache none 8) := rfl
  slab_capacity_conserved hc 0 [.set [97] (List.replicate 40 7) 0 calmEnv] (by decide +kernel)

/-- No release reaches the classes above the one of 65536 bytes. -/
theorem Released.large (h : Released fl C fl' C') (hC : ∀ d ∈ C, d.valLen ≤ valMax) {cls : Nat}
    (hcls : 10 < cls) : fl' cls = fl cls := by
  induction h with
  | refl => rfl
  | @cons d fl fl' C C' _ ih =>
    rw [ih fun e he => hC e (Multiset.mem_cons_of_mem he)]
    have hle : slabClassFor d.valLen ≤ 10 :=
      slabClassFor_le ((hC d (Multiset.mem_cons_self d C)).trans (by decide))
    unfold giveBack
    split_ifs
    · exact Function.update_of_ne (by omega) _ _
    · rfl

theorem Released.le (h : Released fl C fl' C') : C' ≤ C := by
  induction h with
  | refl => exact le_refl _
  | cons _ ih => exact ih.trans (Multiset.le_cons_self _ _)

/-- A value of 65537 bytes takes a block of 131072 bytes, which is not there any more after the
flush that follows. -/
theorem large_lists {w : World} {ttlSec : UInt32} {env : Env} (hv : w.cache.Valid)
    (hf : FreeLists w.cache.mem.slab fl) (hempty : w.cache.contents = 0) (hlen : val.length = 65537)
    (hok : (step w (.set key val ttlSec env)).2 = .done (.ok ())) :
    ∃ fl', FreeLists (vcFlush (step w (.set key val ttlSec env)).1.cache).mem.slab fl' ∧
      ∃ p, fl 11 = p :: fl' 11 := by
  have hcls : slabClassFor val.length = 11 := by
    rw [hlen]
    decide
  have hin : InSlab key val := by
    rw [InSlab, hlen]
    exact ⟨Nat.lt_add_left _ (by decide), by decide⟩
  have hv' := (step_effect hv (.set key val ttlSec env)).valid hv
  obtain ⟨fl₁, hf₁, he₁⟩ := step_slabEffect hv hf (.set key val ttlSec env)
  obtain ⟨fl₂, hf₂, he₂⟩ := step_slabEffect hv' hf₁ .flush
  refine ⟨fl₂, hf₂, ?_⟩
  rw [hok] at he₁
  generalize (step w (.set key val ttlSec env)).1 = w' at he₁ he₂
  cases he₁ with
  | released hop _ => exact absurd rfl (hop key val ttlSec env)
  | @stored _ _ _ _ _ _ _ ne rest _ ht hvl hr hafter =>
    rw [hempty] at hr
    have hshort : ∀ d ∈ w'.cache.contents, d.valLen ≤ valMax := by
      intro d hd
      have hmem : d ∈ ne ::ₘ rest := hafter ▸ Multiset.mem_add.mpr (Or.inl hd)
      rcases Multiset.mem_cons.mp hmem with rfl | hmem
      · rw [hvl]
        exact Nat.min_le_right _ _
      · exact absurd (Multiset.mem_of_le hr.le hmem) (Multiset.notMem_zero d)
    have hset := hr.large (by simp) (by decide : 10 < 11)
    cases he₂ with
    | released _ hr₂ =>
      rw [hr₂.large hshort (by decide : 10 < 11), hset]
      cases ht with
      | outside hout => exact absurd hin hout
      | @block _ p l _ hl _ _ =>
        rw [hcls] at hl ⊢
        exact ⟨p, by rw [Function.update_self, hl]⟩

theorem undropped_newCache (val : List UInt8) :
    Undropped ⟨newCache none 8, 0⟩ (.set [97] val 0 calmEnv) := fun hset =>
  newCache_reachable.valid.dropped_eq_none hset (Or.inl newCache_free) calmEnv 0

theorem allocTimes_large (hlen : val.length = 65537) :
    allocTimes 128 (vcFlush (step ⟨newCache none 8, 0⟩ (.set [97] val 0 calmEnv)).1.cache).mem.slab 131072 =
      false := by
  have hok := @newCache_set_ok val (by omega) (hlen ▸ by decide)
  obtain ⟨hf, hempty⟩ := vcCreate_lists (rfl : vcCreate none 8 = some (newCache none 8))
  obtain ⟨fl', hf', p, hp⟩ := large_lists newCache_reachable.valid hf hempty hlen hok
  have hlength : (fl' 11).length + 1 = slabBlocks 11 := by
    rw [← List.length_cons, ← hp, initialFree, List.length_map, List.length_range]
  rw [Bool.eq_false_iff, ne_eq, allocTimes_iff hf', show slabClassFor 131072 = 11 by decide]
  have hblocks : slabBlocks 11 = 128 := by decide
  omega

/-- After a value of 65537 bytes was set and everything was flushed, the class of 131072 bytes
has one block less. -/
theorem large_value_loses_block :
    Undropped ⟨newCache none 8, 0⟩ (.set [97] (List.replicate 65537 7) 0 calmEnv) ∧
      allocTimes 128 (newCache none 8).mem.slab 131072 = true ∧
      allocTimes 128 (vcFlush (step ⟨newCache none 8, 0⟩
        (.set [97] (List.replicate 65537 7) 0 calmEnv)).1.cache).mem.slab 131072 = false := by
  refine ⟨undropped_newCache _, ?_, allocTimes_large List.length_replicate⟩
  have hf : FreeLists (newCache none 8).mem.slab initialFree := slabInit_freeLists
  rw [allocTimes_iff hf]
  decide +kernel

end VoidCache
