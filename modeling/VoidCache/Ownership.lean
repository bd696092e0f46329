import VoidCache.Entry

/-!
# Who owns which object

`Owned m A` says that the pointers in `A` are live objects, each listed once, and that no
block in `A` is on a free list. Every allocation adds a pointer, every release removes
one, and an object that stays owned keeps its contents. The entries of a cache own the
pointers stored in them; `Item` is what an entry means in a given memory.
-/
namespace VoidCache

def Mem.Live (m : Mem) : Ptr → Prop
  | .null => False
  | .block _ _ => True
  | .heap id => id ∈ m.heap
  | .map id => id ∈ m.maps

/-- The pointers `A` are owned, exclusively of each other and of the free lists. -/
def Owned (m : Mem) (A : Multiset Ptr) : Prop :=
  ∃ fl, FreeLists m.slab fl ∧ (freeBlocks fl + A).Nodup ∧ ∀ p ∈ A, m.Live p

/-- The objects in `A` have the same contents in both memories. -/
def Frame (m m' : Mem) (A : Multiset Ptr) : Prop := ∀ p ∈ A, m'.read p = m.read p

theorem Frame.refl (m : Mem) (A : Multiset Ptr) : Frame m m A := fun _ _ => rfl

theorem Frame.trans {m m' m'' : Mem} {A : Multiset Ptr} (h : Frame m m' A) (g : Frame m' m'' A) :
    Frame m m'' A := fun p hp => (g p hp).trans (h p hp)

theorem Frame.mono {m m' : Mem} {A B : Multiset Ptr} (h : Frame m m' A) (hs : B ⊆ A) :
    Frame m m' B := fun p hp => h p (hs hp)

/-- Contents change at most at `p`. -/
theorem Frame.of_ne {m m' : Mem} {A : Multiset Ptr} {p : Ptr}
    (h : ∀ q, q ≠ p → m'.read q = m.read q) (hp : p ∉ A) : Frame m m' A := by
  intro q hq
  refine h q ?_
  rintro rfl
  exact hp hq

namespace Owned

variable {m : Mem} {A B : Multiset Ptr} {p : Ptr}

theorem notMem (h : Owned m (p ::ₘ A)) : p ∉ A := by
  obtain ⟨fl, _, hn, _⟩ := h
  have : (p ::ₘ A).Nodup := Multiset.nodup_of_le (Multiset.le_add_left _ _) hn
  exact (Multiset.nodup_cons.mp this).1

theorem notFree (h : Owned m (p ::ₘ A)) :
    ∃ fl, FreeLists m.slab fl ∧ (freeBlocks fl + A).Nodup ∧ p ∉ freeBlocks fl ∧
      p ∉ A ∧ m.Live p ∧ ∀ q ∈ A, m.Live q := by
  obtain ⟨fl, hf, hn, hl⟩ := h
  rw [Multiset.add_cons, Multiset.nodup_cons] at hn
  refine ⟨fl, hf, hn.2, ?_, ?_, hl p (by simp), fun q hq => hl q (by simp [hq])⟩
  · exact fun hp => hn.1 (Multiset.mem_add.mpr (Or.inl hp))
  · exact fun hp => hn.1 (Multiset.mem_add.mpr (Or.inr hp))

/-- Ownership may be given up without releasing the object. -/
theorem weaken (h : Owned m (A + B)) : Owned m B := by
  obtain ⟨fl, hf, hn, hl⟩ := h
  refine ⟨fl, hf, Multiset.nodup_of_le ?_ hn, fun q hq => hl q (Multiset.mem_add.mpr (Or.inr hq))⟩
  exact add_le_add_right (Multiset.le_add_left B A) _

/-- What is owned is not on the free lists. -/
theorem nodup (h : Owned m A) {fl : Nat → List Ptr} (hf : FreeLists m.slab fl) :
    (freeBlocks fl + A).Nodup := by
  obtain ⟨fl', hf', hn, -⟩ := h
  rwa [freeBlocks_congr fun cls hcls => hf.unique hf' hcls]

theorem slabAlloc (h : Owned m A) {sz : Nat} {sl' : Slab}
    (ha : slabAlloc m.slab sz = (some p, sl')) :
    Owned { m with slab := sl' } (p ::ₘ A) ∧
      (∀ q, ({ m with slab := sl' } : Mem).read q = m.read q) ∧ ∃ c i, p = .block c i := by
  obtain ⟨fl, hf, hn, hl⟩ := h
  obtain ⟨l, hcls, hf', hnode⟩ := hf.alloc ha
  have hb : ∃ c i, p = .block c i := hf.blocks _ p (by rw [hcls]; simp)
  rw [freeBlocks_alloc (slabClassFor_lt sz) hcls] at hn
  refine ⟨⟨_, hf', ?_, ?_⟩, ?_, hb⟩
  · rw [Multiset.add_cons]
    rwa [Multiset.cons_add] at hn
  · intro q hq
    rcases Multiset.mem_cons.mp hq with rfl | hq
    · obtain ⟨c, i, rfl⟩ := hb
      trivial
    · exact hl q hq
  · intro q
    cases q <;> simp [Mem.read, Slab.load, hnode]

/-- Writing to an owned block leaves the free lists alone. -/
theorem store (h : Owned m (p ::ₘ A)) {c i : Nat} (hp : p = .block c i) (cs : Cells) :
    Owned { m with slab := m.slab.store p cs } (p ::ₘ A) := by
  obtain ⟨fl, hf, hn, hnf, hnA, hlp, hl⟩ := h.notFree
  refine ⟨fl, hf.store hnf cs, ?_, ?_⟩
  · rw [Multiset.add_cons, Multiset.nodup_cons]
    exact ⟨by simp [hnf, hnA], hn⟩
  · intro q hq
    rcases Multiset.mem_cons.mp hq with rfl | hq
    · exact hlp
    · exact hl q hq

theorem slabFree (h : Owned m (p ::ₘ A)) {c i : Nat} (hp : p = .block c i) {cls : Nat}
    (hcls : cls < slabClasses) : Owned { m with slab := slabFree m.slab p cls } A := by
  obtain ⟨fl, hf, hn, hnf, hnA, _, hl⟩ := h.notFree
  subst hp
  refine ⟨_, hf.free c i cls fun k hk hmem => hnf (mem_freeBlocks.mpr ⟨k, hk, hmem⟩), ?_, hl⟩
  rw [freeBlocks_free _ hcls, Multiset.cons_add, Multiset.nodup_cons]
  exact ⟨by simp [hnf, hnA], hn⟩

/-- A new object outside the arenas. -/
theorem fresh (h : Owned m A) {m' : Mem} (hs : m'.slab = m.slab) (hp : ¬ m.Live p)
    (hp' : m'.Live p) (hl : ∀ q, m.Live q → m'.Live q) : Owned m' (p ::ₘ A) := by
  obtain ⟨fl, hf, hn, hlive⟩ := h
  refine ⟨fl, hs ▸ hf, ?_, ?_⟩
  · rw [Multiset.add_cons, Multiset.nodup_cons]
    refine ⟨fun hmem => hp ?_, hn⟩
    rcases Multiset.mem_add.mp hmem with hmem | hmem
    · obtain ⟨cls, _, hm⟩ := mem_freeBlocks.mp hmem
      obtain ⟨c, i, rfl⟩ := hf.blocks cls _ hm
      trivial
    · exact hlive _ hmem
  · intro q hq
    rcases Multiset.mem_cons.mp hq with rfl | hq
    · exact hp'
    · exact hl q (hlive q hq)

/-- An object outside the arenas is released. -/
theorem discard (h : Owned m (p ::ₘ A)) {m' : Mem} (hs : m'.slab = m.slab)
    (hl : ∀ q, q ≠ p → m.Live q → m'.Live q) : Owned m' A := by
  obtain ⟨fl, hf, hn, _, hnA, _, hlive⟩ := h.notFree
  refine ⟨fl, hs ▸ hf, hn, fun q hq => hl q ?_ (hlive q hq)⟩
  rintro rfl
  exact hnA hq

theorem malloc (h : Owned m A) {env : Env} {bytes : List UInt8} {m' : Mem}
    (ha : malloc env m bytes = (some p, m')) :
    Owned m' (p ::ₘ A) ∧ (∀ q, q ≠ p → m'.read q = m.read q) ∧ m'.read p = Cell.bytes bytes ∧
      ∃ id, p = .heap id := by
  unfold VoidCache.malloc at ha
  split_ifs at ha
  · obtain ⟨rfl, rfl⟩ := Prod.mk.inj ha |>.imp Option.some.inj id
    refine ⟨h.fresh rfl (freshId_notMem m.heap env.mallocAt) (by simp [Mem.Live]) ?_, ?_,
      by simp [Mem.read], _, rfl⟩
    · intro q hq
      cases q <;> simp_all [Mem.Live]
    · intro q hq
      cases q with
      | heap id =>
        have hne : id ≠ freshId m.heap env.mallocAt := fun he => hq (by rw [he])
        simp [Mem.read, AList.lookup_insert_ne hne]
      | _ => rfl
  · simp at ha

theorem mmapAnon (h : Owned m A) {env : Env} {bytes : List UInt8} {m' : Mem}
    (ha : mmapAnon env m bytes = (some p, m')) :
    Owned m' (p ::ₘ A) ∧ (∀ q, q ≠ p → m'.read q = m.read q) ∧ m'.read p = Cell.bytes bytes ∧
      ∃ id, p = .map id := by
  unfold VoidCache.mmapAnon at ha
  split_ifs at ha
  · obtain ⟨rfl, rfl⟩ := Prod.mk.inj ha |>.imp Option.some.inj id
    refine ⟨h.fresh rfl (freshId_notMem m.maps env.mmapAt) (by simp [Mem.Live]) ?_, ?_,
      by simp [Mem.read], _, rfl⟩
    · intro q hq
      cases q <;> simp_all [Mem.Live]
    · intro q hq
      cases q with
      | map id =>
        have hne : id ≠ freshId m.maps env.mmapAt := fun he => hq (by rw [he])
        simp [Mem.read, AList.lookup_insert_ne hne]
      | _ => rfl
  · simp at ha

theorem free {id : Nat} (h : Owned m (.heap id ::ₘ A)) :
    Owned (free m (.heap id)) A ∧ Frame m (free m (.heap id)) A := by
  refine ⟨h.discard rfl fun q hq hl => ?_, Frame.of_ne (fun q hq => ?_) h.notMem⟩
  · cases q with
    | heap k =>
      have hne : k ≠ id := fun he => hq (by rw [he])
      simpa [VoidCache.free, Mem.Live, hne] using hl
    | _ => exact hl
  · cases q with
    | heap k =>
      have hne : k ≠ id := fun he => hq (by rw [he])
      simp [VoidCache.free, Mem.read, AList.lookup_erase_ne hne]
    | _ => rfl

theorem munmap {id : Nat} (h : Owned m (.map id ::ₘ A)) (len : Nat) :
    Owned (munmap m (.map id) len) A ∧ Frame m (munmap m (.map id) len) A := by
  cases hr : m.maps.lookup id with
  | none =>
    simp only [VoidCache.munmap, hr]
    exact ⟨h.weaken (A := {.map id}), Frame.refl _ _⟩
  | some r =>
    simp only [VoidCache.munmap, hr]
    refine ⟨h.discard rfl fun q hq hl => ?_, Frame.of_ne (fun q hq => ?_) h.notMem⟩
    · cases q with
      | map k => simp_all [Mem.Live]
      | _ => exact hl
    · cases q with
      | map k =>
        have hne : k ≠ id := fun he => hq (by rw [he])
        simp [Mem.read, AList.lookup_insert_ne hne]
      | _ => rfl

end Owned

/-! ## Entries as owners -/

theorem hasFlag_or (flags a b : UInt8) :
    hasFlag flags (a ||| b) = (hasFlag flags a || hasFlag flags b) := by
  have : flags &&& (a ||| b) = 0 ↔ flags &&& a = 0 ∧ flags &&& b = 0 := by
    simp only [← UInt8.toNat_inj, UInt8.toNat_and, UInt8.toNat_or, UInt8.toNat_zero,
      Nat.and_or_distrib_left, Nat.or_eq_zero_iff]
  rw [Bool.eq_iff_iff]
  simp only [hasFlag, bne_iff_ne, Bool.or_eq_true, ne_eq]
  tauto

namespace EntryData

/-- The objects an entry owns: its key buffer and its value buffer, when they are outside. -/
def ptrs (e : EntryData) : Multiset Ptr :=
  (if hasFlag e.flags flagKeyLong then {e.ptrAt 0} else 0) +
    (if hasFlag e.flags (flagValSlab ||| flagValMmap) then {e.ptrAt e.valOff} else 0)

/-- The stored pointers are of the kind the flags say. -/
structure Kinds (e : EntryData) : Prop where
  key : hasFlag e.flags flagKeyLong = true → ∃ id, e.ptrAt 0 = .heap id
  slab : hasFlag e.flags flagValSlab = true → ∃ c i, e.ptrAt e.valOff = .block c i
  map : hasFlag e.flags flagValSlab = false → hasFlag e.flags flagValMmap = true →
    ∃ id, e.ptrAt e.valOff = .map id

end EntryData

/-- What an entry means: its key, its value and its deadline. -/
structure Item where
  key : Cells
  val : Cells
  expireNs : Int
  deriving DecidableEq

def itemOf (m : Mem) (e : EntryData) : Item where
  key := (entryKey m e).take e.keyLen
  val := (if hasFlag e.flags (flagValSlab ||| flagValMmap) then m.read (e.ptrAt e.valOff)
    else e.payload.drop e.keyLen).take e.valLen
  expireNs := e.expireNs

/-- The meaning of an entry depends only on the objects it owns. -/
theorem itemOf_frame {m m' : Mem} {e : EntryData} (h : Frame m m' e.ptrs) :
    itemOf m' e = itemOf m e := by
  have hk : entryKey m' e = entryKey m e := by
    unfold entryKey
    split_ifs with hf
    · exact h _ (by simp [EntryData.ptrs, hf])
    · rfl
  unfold itemOf
  rw [hk]
  split_ifs with hf
  · rw [h _ (by simp [EntryData.ptrs, hf])]
  · rfl

/-- `entry_free_resources` returns everything the entry owns and touches nothing else. -/
theorem Owned.release {m : Mem} {e : EntryData} {A : Multiset Ptr} (h : Owned m (e.ptrs + A))
    (hk : e.Kinds) :
    Owned (entryFreeResources e m) A ∧ Frame m (entryFreeResources e m) A := by
  unfold EntryData.ptrs at h
  unfold entryFreeResources
  -- first the key buffer
  have hkey : ∀ B : Multiset Ptr,
      Owned m ((if hasFlag e.flags flagKeyLong then {e.ptrAt 0} else 0) + B) →
      Owned (if hasFlag e.flags flagKeyLong then VoidCache.free m (e.ptrAt 0) else m) B ∧
        Frame m (if hasFlag e.flags flagKeyLong then VoidCache.free m (e.ptrAt 0) else m) B := by
    intro B hB
    split_ifs at hB ⊢ with hf
    · obtain ⟨id, hid⟩ := hk.key hf
      rw [hid] at hB ⊢
      exact Owned.free hB
    · exact ⟨by simpa using hB, Frame.refl _ _⟩
  obtain ⟨h1, f1⟩ := hkey _ (by rw [← add_assoc]; exact h)
  dsimp only
  generalize (if hasFlag e.flags flagKeyLong then VoidCache.free m (e.ptrAt 0) else m) = m1 at h1 f1 ⊢
  -- then the value buffer
  rw [hasFlag_or] at h1 f1
  by_cases hs : hasFlag e.flags flagValSlab = true
  · obtain ⟨c, i, hp⟩ := hk.slab hs
    simp only [hs, Bool.true_or, if_true, Multiset.singleton_add] at h1 f1 ⊢
    refine ⟨h1.slabFree hp (slabClassFor_lt _),
      (f1.mono (Multiset.subset_cons _ _)).trans (Frame.of_ne (fun q hq => ?_) h1.notMem)⟩
    cases q with
    | block c' i' => exact slabFree_load_of_ne m1.slab _ hq
    | _ => rfl
  · rw [Bool.not_eq_true] at hs
    simp only [hs, Bool.false_or, Bool.false_eq_true, if_false] at h1 f1 ⊢
    split_ifs at h1 f1 ⊢ with hm
    · obtain ⟨id, hp⟩ := hk.map hs hm
      rw [hp] at h1 f1 ⊢
      rw [Multiset.singleton_add] at h1 f1
      obtain ⟨h2, f2⟩ := h1.munmap e.valLen
      exact ⟨h2, (f1.mono (Multiset.subset_cons _ _)).trans f2⟩
    · rw [zero_add] at h1 f1
      exact ⟨h1, f1⟩

end VoidCache
