import VoidCache.Lib.Treiber
import VoidCache.Slab

/-!
# The slab allocator under concurrency

The free list of a size class is a Treiber stack whose links lie in the free blocks. Run
without interruption, the atomic steps of `slab_alloc` and `slab_free` are the functions of
`Slab`. When threads overlap, the swap of `slab_alloc` compares the head pointer only: if the
head was popped and pushed back after its link was read, the stale link becomes the new head.
-/
namespace VoidCache

open Treiber (Act Unchanged)

abbrev SlabThreads := Treiber.State Nat Ptr

/-- All threads outside the allocator, owning nothing. -/
def slabThreads (sl : Slab) (cls : Nat) : SlabThreads where
  head := (sl.classes cls).head
  next := sl.next
  pc _ := .idle
  owns _ := []

abbrev slabStep : SlabThreads → Act Nat Ptr → SlabThreads × Unit := Treiber.step .null

/-! ## Uninterrupted calls -/

def allocSteps (t : Nat) : List (Act Nat Ptr) := [.alloc t, .loadPop t, .readNext t, .casPop t true]

def freeSteps (t : Nat) (p : Ptr) : List (Act Nat Ptr) :=
  [.free t p, .loadPush t, .writeNext t, .casPush t true]

/-- The threads see the free list of class `cls`. -/
structure Sees (s : SlabThreads) (sl : Slab) (cls : Nat) : Prop where
  head : s.head = (sl.classes cls).head
  next : s.next = sl.next

/-- `slab_alloc` is its own steps, run one after the other. -/
theorem allocSteps_eq_slabAlloc {s : SlabThreads} {sl : Slab} {sz t : Nat}
    (h : Sees s sl (slabClassFor sz)) (hpc : s.pc t = .idle) :
    let s' := Machine.run slabStep s (allocSteps t)
    Sees s' (slabAlloc sl sz).2 (slabClassFor sz) ∧
      s'.owns t = (slabAlloc sl sz).1.toList ++ s.owns t := by
  unfold slabAlloc allocSteps
  dsimp only
  rw [← h.head]
  split_ifs with hnull
  · rw [Treiber.run_pop_nil hpc hnull]
    exact ⟨h, rfl⟩
  · rw [Treiber.run_pop hpc hnull]
    refine ⟨⟨?_, h.next⟩, by simp [Treiber.State.setOwns]⟩
    simp [h.next]

/-- `slab_free` is its own steps, run one after the other. -/
theorem freeSteps_eq_slabFree {s : SlabThreads} {sl : Slab} {cls t c i : Nat} (h : Sees s sl cls)
    (hpc : s.pc t = .idle) (hown : Ptr.block c i ∈ s.owns t) :
    let s' := Machine.run slabStep s (freeSteps t (.block c i))
    Sees s' (slabFree sl (.block c i) cls) cls ∧ s'.owns t = (s.owns t).erase (.block c i) := by
  unfold freeSteps
  dsimp only
  rw [Treiber.run_push hpc hown]
  refine ⟨⟨by simp [slabFree], ?_⟩, by simp [Treiber.State.setOwns, Treiber.State.setNext]⟩
  rw [slabFree_next, ← h.head, ← h.next]
  rfl

/-! ## Any interleaving -/

theorem slabThreads_sound {cls : Nat} (hcls : cls < slabClasses) :
    Treiber.Sound .null (slabThreads slabInit cls) (initialFree cls) where
  linked := slabInit_freeLists.linked cls hcls
  nodup := initialFree_cls_nodup cls
  apart := by simp [slabThreads]
  excl := by simp [slabThreads]
  each := by simp [slabThreads]
  ne_nil := by simp [slabThreads]
  popping := by simp [slabThreads, Treiber.Pc.popping]
  pushing := by simp [slabThreads, Treiber.Pc.pushing]
  written := by simp [slabThreads]

/-- In every interleaving of any number of threads in which each swap that pops a block finds
the link it has read, no block is owned by two threads, or owned and on the free list. -/
theorem slab_blocks_exclusive (cls : Nat) (hcls : cls < slabClasses) (acts : List (Act Nat Ptr))
    (hacts : Machine.Along slabStep Unchanged (slabThreads slabInit cls) acts) :
    let s := Machine.run slabStep (slabThreads slabInit cls) acts
    (∀ t u p, p ∈ s.owns t → p ∈ s.owns u → t = u) ∧
      ∀ t, ∀ p ∈ s.owns t, ¬ OnList s.next .null s.head p := by
  intro s
  obtain ⟨l, hl⟩ := (slabThreads_sound hcls).run hacts
  exact hl.exclusive

/-- Thread 1 takes the head while thread 0 is about to; thread 0 fails and takes the next. -/
theorem two_threads_allocate :
    let s := Machine.run slabStep (slabThreads slabInit 0)
      ([.alloc 0, .loadPop 0, .readNext 0] ++ allocSteps 1 ++
        [.casPop 0 true, .loadPop 0, .readNext 0, .casPop 0 true])
    (∀ t u p, p ∈ s.owns t → p ∈ s.owns u → t = u) ∧
      ∀ t, ∀ p ∈ s.owns t, ¬ OnList s.next .null s.head p :=
  slab_blocks_exclusive 0 (by decide) _ (by decide +kernel)

/-- Thread 0 has read the link of block 0 when thread 1 pops blocks 0 and 1 and pushes block 0
back. The swap of thread 0 then makes block 1 the head, and thread 2 is given the block that
thread 1 owns. -/
theorem aba_block_owned_twice :
    let acts : List (Act Nat Ptr) := [.alloc 0, .loadPop 0, .readNext 0] ++ allocSteps 1 ++
      allocSteps 1 ++ freeSteps 1 (.block 0 0) ++ [.casPop 0 true]
    let s := Machine.run slabStep (slabThreads slabInit 0) acts
    let s' := Machine.run slabStep (slabThreads slabInit 0) (acts ++ allocSteps 2)
    Ptr.block 0 1 ∈ s.owns 1 ∧ OnList s.next .null s.head (.block 0 1) ∧
      Ptr.block 0 1 ∈ s'.owns 1 ∧ Ptr.block 0 1 ∈ s'.owns 2 := by
  have hhead : (Machine.run slabStep (slabThreads slabInit 0) ([.alloc 0, .loadPop 0, .readNext 0] ++
      allocSteps 1 ++ allocSteps 1 ++ freeSteps 1 (.block 0 0) ++ [.casPop 0 true])).head =
      .block 0 1 := by decide +kernel
  refine ⟨by decide +kernel, ?_, by decide +kernel, by decide +kernel⟩
  rw [hhead]
  exact OnList.here (by decide)

end VoidCache
