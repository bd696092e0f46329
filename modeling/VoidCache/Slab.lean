import VoidCache.Lib.Cell
import VoidCache.Lib.Linked
import VoidCache.Lib.SlotSum

/-!
# The slab allocator, run sequentially

Sixteen size classes, each with an arena of equal blocks. A free block stores the link
to the next free block in its own first bytes, exactly where an allocated block stores
its value. The atomic steps of the same two operations are in `SlabConcurrent`.
-/
namespace VoidCache

/-- Addresses of the objects the cache allocates: arena blocks, `malloc` and `mmap`. -/
inductive Ptr where
  | null
  | block (cls idx : Nat)
  | heap (id : Nat)
  | map (id : Nat)
  deriving DecidableEq, Repr

abbrev Cells := List (Cell Ptr)

def slabBase : Nat := 64
def slabClasses : Nat := 16
def slabArenaMb : Nat := 16

def slabClassSize (cls : Nat) : Nat := slabBase <<< cls

/-- `while (s < sz && cls < VC_SLAB_CLASSES - 1) { s <<= 1; cls++; }` -/
def slabClassLoop (sz : Nat) : Nat → Nat → Nat → Nat
  | 0, _, cls => cls
  | n + 1, s, cls =>
    if s < sz ∧ cls < slabClasses - 1 then slabClassLoop sz n (s <<< 1) (cls + 1) else cls

def slabClassFor (sz : Nat) : Nat :=
  if sz ≤ slabBase then 0 else slabClassLoop sz slabClasses slabBase 0

structure SlabClass where
  head : Ptr
  allocCount : Nat
  freeCount : Nat

structure Slab where
  classes : Nat → SlabClass
  /-- Contents of block `idx` of the arena of class `cls`. -/
  node : Nat → Nat → Cells

namespace Slab

def load (sl : Slab) : Ptr → Cells
  | .block c i => sl.node c i
  | _ => []

def store (sl : Slab) (p : Ptr) (cs : Cells) : Slab :=
  match p with
  | .block c i => { sl with node := Function.update sl.node c (Function.update (sl.node c) i cs) }
  | _ => sl

/-- `node->next`; a block whose first bytes are not a link reads as the null pointer. -/
def next (sl : Slab) (p : Ptr) : Ptr := (Cell.toPtr (sl.load p)).getD .null

end Slab

/-- Blocks of a class: `arena_size / block_size` after rounding the arena down. -/
def slabBlocks (cls : Nat) : Nat :=
  let blockSize := slabClassSize cls
  (slabArenaMb * 1024 * 1024 / blockSize) * blockSize / blockSize

/-- `for (size_t i = n; i-- > 0; ) { node->next = prev; prev = node; }` -/
def slabInitLoop (cls : Nat) : Nat → (Nat → Cells) → Ptr → (Nat → Cells) × Ptr
  | 0, node, prev => (node, prev)
  | i + 1, node, prev =>
    slabInitLoop cls i (Function.update node i (blit (node i) 0 (Cell.ofPtr prev))) (.block cls i)

/-- Contents of a freshly mapped block. -/
def zeroBlock (cls : Nat) : Cells := List.replicate (slabClassSize cls) (.byte 0)

/-- The allocator after start-up: the loop `slabInitLoop` over each class, in closed form
(`slabInit_eq_loop`). Each block links to the next one and the last one to null. -/
def slabInit : Slab where
  classes cls :=
    { head := if slabBlocks cls = 0 then .null else .block cls 0, allocCount := 0, freeCount := 0 }
  node cls i :=
    if i < slabBlocks cls then
      blit (zeroBlock cls) 0
        (Cell.ofPtr (if i + 1 < slabBlocks cls then .block cls (i + 1) else .null))
    else zeroBlock cls

/-- Pop the free list of the class that fits `sz`; `none` when the class is exhausted. -/
def slabAlloc (sl : Slab) (sz : Nat) : Option Ptr × Slab :=
  let cls := slabClassFor sz
  let sc := sl.classes cls
  if sc.head = .null then (none, sl)
  else
    (some sc.head,
      { sl with
        classes := Function.update sl.classes cls
          { sc with head := sl.next sc.head, allocCount := sc.allocCount + 1 } })

/-- Push a block on the free list of class `cls`. -/
def slabFree (sl : Slab) (ptr : Ptr) (cls : Nat) : Slab :=
  let sc := sl.classes cls
  let sl := sl.store ptr (blit (sl.load ptr) 0 (Cell.ofPtr sc.head))
  { sl with
    classes := Function.update sl.classes cls
      { sc with head := ptr, freeCount := sc.freeCount + 1 } }

namespace Slab

@[simp] theorem load_store_self (sl : Slab) (c i : Nat) (cs : Cells) :
    (sl.store (.block c i) cs).load (.block c i) = cs := by simp [load, store]

theorem load_store_of_ne (sl : Slab) {p q : Ptr} (cs : Cells) (h : q ≠ p) :
    (sl.store p cs).load q = sl.load q := by
  cases p with
  | block c i =>
    cases q with
    | block c' i' =>
      by_cases hc : c' = c
      · subst hc
        have hi : i' ≠ i := fun he => h (by rw [he])
        simp [load, store, hi]
      · simp [load, store, hc]
    | _ => rfl
  | _ => rfl

@[simp] theorem next_classes (sl : Slab) (cs : Nat → SlabClass) :
    ({ sl with classes := cs } : Slab).next = sl.next := rfl

@[simp] theorem store_classes (sl : Slab) (p : Ptr) (cs : Cells) :
    (sl.store p cs).classes = sl.classes := by cases p <;> rfl

end Slab

theorem slabClassLoop_lt (sz n s cls : Nat) (h : cls < slabClasses) :
    slabClassLoop sz n s cls < slabClasses := by
  induction n generalizing s cls with
  | zero => exact h
  | succ n ih =>
    unfold slabClassLoop
    split_ifs with hs
    · exact ih _ _ (by have := hs.2; unfold slabClasses at *; omega)
    · exact h

theorem slabClassFor_lt (sz : Nat) : slabClassFor sz < slabClasses := by
  unfold slabClassFor
  split_ifs
  · decide
  · exact slabClassLoop_lt sz _ _ _ (by decide)

theorem slabClassSize_succ (cls : Nat) : slabClassSize (cls + 1) = slabClassSize cls <<< 1 := by
  rw [slabClassSize, slabClassSize, Nat.shiftLeft_add]

theorem slabClassSize_mono {c d : Nat} (h : c ≤ d) : slabClassSize c ≤ slabClassSize d := by
  simp only [slabClassSize, Nat.shiftLeft_eq]
  exact Nat.mul_le_mul_left _ (Nat.pow_le_pow_right (by decide) h)

/-- The loop stops at the first class that is large enough, or at the last one. -/
theorem slabClassLoop_spec (sz n cls : Nat) (hn : slabClasses - 1 ≤ cls + n)
    (hc : cls ≤ slabClasses - 1) :
    (sz ≤ slabClassSize (slabClasses - 1) →
      sz ≤ slabClassSize (slabClassLoop sz n (slabClassSize cls) cls)) ∧
    ∀ c, cls ≤ c → sz ≤ slabClassSize c → slabClassLoop sz n (slabClassSize cls) cls ≤ c := by
  induction n generalizing cls with
  | zero =>
    obtain rfl : cls = slabClasses - 1 := by omega
    exact ⟨id, fun c hle _ => hle⟩
  | succ n ih =>
    unfold slabClassLoop
    split_ifs with h
    · rw [← slabClassSize_succ]
      obtain ⟨hfits, hleast⟩ := ih (cls + 1) (by omega) (by omega)
      refine ⟨hfits, fun c hle hsz => hleast c ?_ hsz⟩
      -- the class just passed is too small
      by_contra hlt
      have := slabClassSize_mono (by omega : c ≤ cls)
      omega
    · refine ⟨fun hmax => ?_, fun c hle _ => hle⟩
      by_contra hlt
      have hlast : cls = slabClasses - 1 := by omega
      rw [hlast] at hlt
      exact hlt hmax

/-- The class of a size is large enough for it. -/
theorem le_slabClassSize_slabClassFor {sz : Nat} (h : sz ≤ slabClassSize (slabClasses - 1)) :
    sz ≤ slabClassSize (slabClassFor sz) := by
  unfold slabClassFor
  split_ifs with hbase
  · exact hbase
  · exact (slabClassLoop_spec sz slabClasses 0 (by decide) (by decide)).1 h

/-- The class of a size is the least one that is large enough. -/
theorem slabClassFor_le {sz c : Nat} (h : sz ≤ slabClassSize c) : slabClassFor sz ≤ c := by
  unfold slabClassFor
  split_ifs with hbase
  · exact Nat.zero_le c
  · exact (slabClassLoop_spec sz slabClasses 0 (by decide) (by decide)).2 c (Nat.zero_le c) h

/-- The free lists `fl` are the ones stored in the blocks, and hold blocks only. -/
structure FreeLists (sl : Slab) (fl : Nat → List Ptr) : Prop where
  linked : ∀ cls, cls < slabClasses → Linked sl.next .null (sl.classes cls).head (fl cls)
  blocks : ∀ cls, ∀ p ∈ fl cls, ∃ c i, p = .block c i

/-- All free blocks, over all classes. -/
def freeBlocks (fl : Nat → List Ptr) : Multiset Ptr :=
  slotSum slabClasses (fun l : List Ptr => (l : Multiset Ptr)) fl

theorem mem_freeBlocks {fl : Nat → List Ptr} {p : Ptr} :
    p ∈ freeBlocks fl ↔ ∃ cls, cls < slabClasses ∧ p ∈ fl cls := by
  simp [freeBlocks, slotSum.mem_iff]

theorem FreeLists.alloc {sl : Slab} {fl : Nat → List Ptr} (h : FreeLists sl fl) {sz : Nat}
    {p : Ptr} {sl' : Slab} (ha : slabAlloc sl sz = (some p, sl')) :
    ∃ l, fl (slabClassFor sz) = p :: l ∧
      FreeLists sl' (Function.update fl (slabClassFor sz) l) ∧ sl'.node = sl.node := by
  unfold slabAlloc at ha
  dsimp only at ha
  split_ifs at ha with hnull
  · simp at ha
  obtain ⟨rfl, rfl⟩ := Prod.mk.inj ha |>.imp Option.some.inj id
  obtain ⟨l, hl, hnext⟩ := (h.linked _ (slabClassFor_lt sz)).exists_cons hnull
  refine ⟨l, hl, ⟨?_, ?_⟩, rfl⟩
  · intro cls hcls
    by_cases he : cls = slabClassFor sz
    · subst he
      simpa using hnext
    · simpa [he] using h.linked cls hcls
  · intro cls p hp
    by_cases he : cls = slabClassFor sz
    · subst he
      rw [Function.update_self] at hp
      exact h.blocks (slabClassFor sz) p (by simp [hl, hp])
    · rw [Function.update_of_ne he] at hp
      exact h.blocks cls p hp

/-- The blocks determine the free lists. -/
theorem FreeLists.unique {sl : Slab} {fl fl' : Nat → List Ptr} (h : FreeLists sl fl)
    (h' : FreeLists sl fl') {cls : Nat} (hcls : cls < slabClasses) : fl cls = fl' cls :=
  (h.linked cls hcls).unique (h'.linked cls hcls)

theorem freeBlocks_congr {fl fl' : Nat → List Ptr} (h : ∀ cls, cls < slabClasses → fl cls = fl' cls) :
    freeBlocks fl = freeBlocks fl' := slotSum.congr fun cls hcls => by rw [h cls hcls]

/-- Writing to a block that is not free leaves the free lists alone. -/
theorem FreeLists.store {sl : Slab} {fl : Nat → List Ptr} (h : FreeLists sl fl) {p : Ptr}
    (hp : p ∉ freeBlocks fl) (cs : Cells) : FreeLists (sl.store p cs) fl := by
  refine ⟨fun cls hcls => ?_, h.blocks⟩
  rw [Slab.store_classes]
  refine (h.linked cls hcls).congr fun x hx => ?_
  have hne : x ≠ p := by
    rintro rfl
    exact hp (mem_freeBlocks.mpr ⟨cls, hcls, hx⟩)
  unfold Slab.next
  rw [Slab.load_store_of_ne _ _ hne]

theorem slabFree_load_of_ne (sl : Slab) {p q : Ptr} (cls : Nat) (h : q ≠ p) :
    (slabFree sl p cls).load q = sl.load q := sl.load_store_of_ne _ h

/-- Pushing a block rewrites exactly the link stored in it. -/
theorem slabFree_next (sl : Slab) (c i cls : Nat) :
    (slabFree sl (.block c i) cls).next =
      Function.update sl.next (.block c i) (sl.classes cls).head := by
  funext q
  by_cases hq : q = .block c i
  · subst hq
    have hload : (slabFree sl (.block c i) cls).load (.block c i) =
        blit (sl.load (.block c i)) 0 (Cell.ofPtr (sl.classes cls).head) :=
      sl.load_store_self c i _
    rw [Function.update_self]
    unfold Slab.next
    rw [hload, blit_zero, Cell.toPtr_ofPtr_append, Option.getD_some]
  · rw [Function.update_of_ne hq]
    unfold Slab.next
    rw [slabFree_load_of_ne sl cls hq]

theorem FreeLists.free {sl : Slab} {fl : Nat → List Ptr} (h : FreeLists sl fl) (c i cls : Nat)
    (hn : ∀ k, k < slabClasses → Ptr.block c i ∉ fl k) :
    FreeLists (slabFree sl (.block c i) cls)
      (Function.update fl cls (.block c i :: fl cls)) := by
  refine ⟨fun k hk => ?_, fun k p hp => ?_⟩
  · rw [slabFree_next]
    by_cases he : k = cls
    · subst he
      simpa [slabFree] using (h.linked k hk).push (by simp) (hn k hk)
    · have hhead : ((slabFree sl (.block c i) cls).classes k).head = (sl.classes k).head := by
        simp [slabFree, he]
      rw [hhead, Function.update_of_ne he]
      refine (h.linked k hk).congr fun x hx => Function.update_of_ne ?_ _ _
      rintro rfl
      exact hn k hk hx
  · by_cases he : k = cls
    · subst he
      rw [Function.update_self, List.mem_cons] at hp
      rcases hp with rfl | hp
      · exact ⟨c, i, rfl⟩
      · exact h.blocks k p hp
    · rw [Function.update_of_ne he] at hp
      exact h.blocks k p hp

theorem freeBlocks_alloc {fl : Nat → List Ptr} {cls : Nat} {p : Ptr} {l : List Ptr}
    (hc : cls < slabClasses) (hl : fl cls = p :: l) :
    freeBlocks fl = p ::ₘ freeBlocks (Function.update fl cls l) := by
  obtain ⟨R, hR⟩ := slotSum.exists_rest (fun l : List Ptr => (l : Multiset Ptr)) fl hc
  have h1 := hR (fl cls)
  rw [Function.update_eq_self] at h1
  unfold freeBlocks
  rw [h1, hR, hl, ← Multiset.cons_coe, Multiset.cons_add]

theorem freeBlocks_free {fl : Nat → List Ptr} {cls : Nat} (p : Ptr) (hc : cls < slabClasses) :
    freeBlocks (Function.update fl cls (p :: fl cls)) = p ::ₘ freeBlocks fl := by
  rw [freeBlocks_alloc hc (p := p) (l := fl cls) (Function.update_self ..)]
  simp

/-! ## The lists built at start-up -/

/-- The links of one arena, as a map on pointers. -/
def arenaNext (node : Nat → Cells) : Ptr → Ptr
  | .block _ i => (Cell.toPtr (node i)).getD .null
  | _ => .null

/-- Downward induction on the block index: the blocks from `i` up are already linked. -/
theorem slabInitLoop_linked (cls i : Nat) (node : Nat → Cells) (prev : Ptr) (l : List Ptr)
    (hl : Linked (arenaNext node) .null prev l) (hm : ∀ p ∈ l, ∃ j, i ≤ j ∧ p = .block cls j) :
    Linked (arenaNext (slabInitLoop cls i node prev).1) .null (slabInitLoop cls i node prev).2
      ((List.range i).map (.block cls) ++ l) := by
  induction i generalizing node prev l with
  | zero => simpa [slabInitLoop] using hl
  | succ i ih =>
    have hnot : Ptr.block cls i ∉ l := by
      intro h
      obtain ⟨j, hj, he⟩ := hm _ h
      simp only [Ptr.block.injEq, true_and] at he
      omega
    have hpush : Linked (arenaNext (Function.update node i (blit (node i) 0 (Cell.ofPtr prev))))
        .null (.block cls i) (.block cls i :: l) := by
      refine (hl.push (by simp) hnot).congr fun p hp => ?_
      rcases List.mem_cons.mp hp with rfl | hp
      · simp [arenaNext, blit_zero, Cell.toPtr_ofPtr_append]
      · obtain ⟨j, hj, rfl⟩ := hm p hp
        have hne : j ≠ i := by omega
        simp [arenaNext, hne]
    have := ih _ _ _ hpush (by
      intro p hp
      rcases List.mem_cons.mp hp with rfl | hp
      · exact ⟨i, le_refl i, rfl⟩
      · obtain ⟨j, hj, rfl⟩ := hm p hp
        exact ⟨j, by omega, rfl⟩)
    simpa [slabInitLoop, List.range_succ] using this

theorem slabInitLoop_eq (cls i : Nat) (node : Nat → Cells) (prev : Ptr) :
    slabInitLoop cls i node prev =
      (fun j => if j < i then blit (node j) 0 (Cell.ofPtr (if j + 1 < i then .block cls (j + 1) else prev))
        else node j, if i = 0 then prev else .block cls 0) := by
  induction i generalizing node prev with
  | zero => simp [slabInitLoop]
  | succ i ih =>
    rw [slabInitLoop, ih]
    refine Prod.ext (funext fun j => ?_) ?_
    · rcases Nat.lt_trichotomy j i with hj | rfl | hj
      · have h1 : j ≠ i := by omega
        have h2 : j < i + 1 := by omega
        have h3 : j + 1 < i + 1 := by omega
        by_cases h4 : j + 1 < i
        · simp [hj, h1, h2, h4]
        · obtain rfl : i = j + 1 := by omega
          simp only [h1, h2, h3, hj, h4, if_true, if_false, ne_eq, not_false_eq_true,
            Function.update_of_ne]
      · simp
      · have h1 : ¬ j < i := by omega
        have h2 : j ≠ i := by omega
        have h3 : ¬ j < i + 1 := by omega
        simp [h1, h2, h3]
    · by_cases hi : i = 0 <;> simp [hi]

/-- The closed form is what the start-up loop leaves. -/
theorem slabInit_eq_loop (cls : Nat) :
    (slabInit.node cls, (slabInit.classes cls).head) =
      slabInitLoop cls (slabBlocks cls) (fun _ => zeroBlock cls) .null := by
  rw [slabInitLoop_eq]
  rfl

/-- The initial free list of a class: all its blocks in order. -/
def initialFree (cls : Nat) : List Ptr := (List.range (slabBlocks cls)).map (.block cls)

theorem slabInit_freeLists : FreeLists slabInit initialFree := by
  refine ⟨fun cls _ => ?_, fun cls p hp => ?_⟩
  · have h := slabInitLoop_linked cls (slabBlocks cls) (fun _ => zeroBlock cls) .null [] rfl (by simp)
    rw [List.append_nil, ← slabInit_eq_loop] at h
    refine h.congr fun p hp => ?_
    obtain ⟨j, _, rfl⟩ := List.mem_map.mp hp
    rfl
  · obtain ⟨j, _, rfl⟩ := List.mem_map.mp hp
    exact ⟨cls, j, rfl⟩

theorem initialFree_cls_nodup (cls : Nat) : (initialFree cls).Nodup :=
  List.nodup_range.map fun a b h => by simpa using h

theorem initialFree_nodup : (freeBlocks initialFree).Nodup := by
  rw [Multiset.nodup_iff_count_le_one]
  intro p
  unfold freeBlocks slotSum
  rw [Multiset.count_sum']
  by_cases hp : ∃ c, p ∈ initialFree c
  · obtain ⟨c, hp⟩ := hp
    obtain ⟨i, _, rfl⟩ := List.mem_map.mp hp
    have hzero : ∀ k, k ≠ c → Multiset.count (Ptr.block c i) (initialFree k : Multiset Ptr) = 0 := by
      intro k hk
      refine Multiset.count_eq_zero.mpr fun hmem => hk ?_
      obtain ⟨j, _, he⟩ := List.mem_map.mp (Multiset.mem_coe.mp hmem)
      exact (Ptr.block.inj he).1
    have hone := Multiset.nodup_iff_count_le_one.mp (Multiset.coe_nodup.mpr (initialFree_cls_nodup c)) (.block c i)
    by_cases hc : c ∈ Finset.range slabClasses
    · rwa [Finset.sum_eq_single_of_mem c hc fun k _ hk => hzero k hk]
    · rw [Finset.sum_eq_zero]
      · omega
      · intro k hk
        exact hzero k fun he => hc (he ▸ hk)
  · rw [Finset.sum_eq_zero]
    · omega
    · intro k _
      exact Multiset.count_eq_zero.mpr fun hmem => hp ⟨k, hmem⟩

end VoidCache
