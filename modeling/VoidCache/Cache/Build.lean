import VoidCache.Cache.Basic
import VoidCache.Ownership

/-!
# Building the new entry

`vc_set` packs key and value into the payload, or moves one or both of them out and packs
pointers. In all four layouts the finished entry owns exactly the objects that were
allocated for it, means the key and the (clipped) value, and no other object has changed.
When an allocation fails, what had been allocated before it is returned.
-/
namespace VoidCache

variable {env : Env} {m m' : Mem} {A : Multiset Ptr} {ne e : EntryData} {key val : List UInt8}

/-! ## Payload layouts -/

theorem packed_eq (a b : Cells) : ∃ rest, packed a b = a ++ (b ++ rest) := by
  refine ⟨(List.replicate payloadSize (Cell.byte 0)).drop (a.length + b.length), ?_⟩
  unfold packed
  rw [blit_zero, blit, List.take_left, List.append_assoc, List.drop_append, List.drop_drop,
    List.drop_eq_nil_of_le (by omega)]
  simp

theorem packed_take (a b : Cells) : (packed a b).take a.length = a := by
  obtain ⟨rest, hr⟩ := packed_eq a b
  rw [hr, List.take_left]

theorem packed_drop (a b : Cells) {n : Nat} (hn : n ≤ b.length) :
    ((packed a b).drop a.length).take n = b.take n := by
  obtain ⟨rest, hr⟩ := packed_eq a b
  rw [hr, List.drop_left, List.take_append_of_le_length hn]

theorem length_packed {a b : Cells} (h : a.length + b.length ≤ payloadSize) :
    (packed a b).length = payloadSize := by
  have ha : (blit (List.replicate payloadSize (Cell.byte 0)) 0 a).length = payloadSize := by
    rw [length_blit (by simp; omega), List.length_replicate]
  rw [packed, length_blit (by rwa [ha]), ha]

/-- A pointer packed second is read back from behind the first piece. -/
theorem ptrAt_packed_snd {a : Cells} {p : Ptr} {off : Nat} (ho : off = a.length)
    (he : e.payload = packed a (Cell.ofPtr p)) : e.ptrAt off = p := by
  obtain ⟨rest, hr⟩ := packed_eq a (Cell.ofPtr p)
  unfold EntryData.ptrAt
  rw [he, hr, ho, List.drop_left, Cell.toPtr_ofPtr_append, Option.getD_some]

theorem ptrAt_packed_fst {p : Ptr} {b : Cells} (he : e.payload = packed (Cell.ofPtr p) b) :
    e.ptrAt 0 = p := by
  obtain ⟨rest, hr⟩ := packed_eq (Cell.ofPtr p) b
  unfold EntryData.ptrAt
  rw [he, hr, List.drop_zero, Cell.toPtr_ofPtr_append, Option.getD_some]

/-! ## The finished entry -/

/-- The entry `vc_set` wants to store: it names the key and the first `ne.valLen` bytes of
the value, under the fixed fields of `ne`. -/
structure Built (m m' : Mem) (A : Multiset Ptr) (ne e : EntryData) (key val : List UInt8) : Prop where
  owned : Owned m' (e.ptrs + A)
  frame : Frame m m' A
  kinds : e.Kinds
  item : itemOf m' e = ⟨Cell.bytes key, Cell.bytes (val.take ne.valLen), ne.expireNs⟩
  keyLen : e.keyLen = ne.keyLen
  keyHash : e.keyHash = ne.keyHash
  valLen : e.valLen = ne.valLen
  expireNs : e.expireNs = ne.expireNs

theorem built_inline (h : Owned m A) (hk : ne.keyLen = key.length) (hv : ne.valLen ≤ val.length) :
    Built m m A ne { ne with flags := 0, payload := packed (Cell.bytes key) (Cell.bytes val) }
      key val := by
  have hkey : hasFlag 0 flagKeyLong = false := by decide
  have hval : hasFlag 0 (flagValSlab ||| flagValMmap) = false := by decide
  have hslab : hasFlag 0 flagValSlab = false := by decide
  have hmmap : hasFlag 0 flagValMmap = false := by decide
  refine ⟨by simpa [EntryData.ptrs, hkey, hval] using h, Frame.refl _ _, ?_, ?_, rfl, rfl, rfl, rfl⟩
  · exact ⟨by simp [hkey], by simp [hslab], by simp [hmmap]⟩
  · have ht := packed_take (Cell.bytes key) (Cell.bytes val)
    have hd := packed_drop (Cell.bytes key) (Cell.bytes val) (n := ne.valLen) (by simpa using hv)
    rw [Cell.length_bytes] at ht hd
    simp [itemOf, entryKey, hkey, hval, hk, ht, hd, Cell.take_bytes]

/-- A short key beside the pointer to a slab block. -/
theorem built_slab {p : Ptr} (ho : Owned m' (p ::ₘ A)) (hf : Frame m m' A)
    (hp : ∃ c i, p = .block c i) (hr : (m'.read p).take val.length = Cell.bytes val)
    (hk : ne.keyLen = key.length) (hv : ne.valLen ≤ val.length)
    (he : { ne with flags := flagValSlab, payload := packed (Cell.bytes key) (Cell.ofPtr p) } = e) :
    Built m m' A ne e key val := by
  have hkey : hasFlag flagValSlab flagKeyLong = false := by decide
  have hval : hasFlag flagValSlab (flagValSlab ||| flagValMmap) = true := by decide
  have hslab : hasFlag flagValSlab flagValSlab = true := by decide
  have hoff : e.valOff = (Cell.bytes key : Cells).length := by
    subst he
    simp [EntryData.valOff, hkey, hk]
  have hptr : e.ptrAt e.valOff = p := ptrAt_packed_snd hoff (by rw [← he])
  have hflags : e.flags = flagValSlab := by rw [← he]
  refine ⟨?_, hf, ⟨by simp [hflags, hkey], fun _ => hptr ▸ hp, by simp [hflags, hslab]⟩, ?_,
    by rw [← he], by rw [← he], by rw [← he], by rw [← he]⟩
  · simpa [EntryData.ptrs, hflags, hkey, hval, hptr] using ho
  · have ht := packed_take (Cell.bytes key) (Cell.ofPtr p)
    rw [Cell.length_bytes] at ht
    have hr' : (m'.read p).take ne.valLen = Cell.bytes (val.take ne.valLen) := by
      rw [← Cell.take_bytes, ← hr, List.take_take, Nat.min_eq_left hv]
    unfold itemOf entryKey
    rw [hptr, hflags, hkey, hval, ← he]
    simp [hk, ht, hr']

/-- Both key and value outside. -/
theorem built_long {k p : Ptr} {flag : UInt8} (ho : Owned m' (k ::ₘ p ::ₘ A)) (hf : Frame m m' A)
    (hkp : ∃ id, k = .heap id)
    (hflag : flag = flagValSlab ∧ (∃ c i, p = .block c i) ∨ flag = flagValMmap ∧ ∃ id, p = .map id)
    (hrk : m'.read k = Cell.bytes key) (hr : (m'.read p).take val.length = Cell.bytes val)
    (hk : ne.keyLen = key.length) (hv : ne.valLen ≤ val.length)
    (he : { ne with flags := flag ||| flagKeyLong,
                    payload := packed (Cell.ofPtr k) (Cell.ofPtr p) } = e) :
    Built m m' A ne e key val := by
  have hkey : hasFlag (flag ||| flagKeyLong) flagKeyLong = true := by
    rcases hflag with ⟨rfl, _⟩ | ⟨rfl, _⟩ <;> decide
  have hval : hasFlag (flag ||| flagKeyLong) (flagValSlab ||| flagValMmap) = true := by
    rcases hflag with ⟨rfl, _⟩ | ⟨rfl, _⟩ <;> decide
  have hflags : e.flags = flag ||| flagKeyLong := by rw [← he]
  have hoff : e.valOff = (Cell.ofPtr k : Cells).length := by
    simp [EntryData.valOff, hflags, hkey, ptrSize]
  have hp : e.ptrAt e.valOff = p := ptrAt_packed_snd hoff (by rw [← he])
  have hk0 : e.ptrAt 0 = k := ptrAt_packed_fst (by rw [← he])
  refine ⟨?_, hf, ⟨fun _ => hk0 ▸ hkp, fun hs => ?_, fun hs hm => ?_⟩, ?_,
    by rw [← he], by rw [← he], by rw [← he], by rw [← he]⟩
  · simpa [EntryData.ptrs, hflags, hkey, hval, hp, hk0] using ho
  · rcases hflag with ⟨rfl, hb⟩ | ⟨rfl, _⟩
    · rwa [hp]
    · rw [hflags] at hs
      exact absurd hs (by decide)
  · rcases hflag with ⟨rfl, _⟩ | ⟨rfl, hb⟩
    · rw [hflags] at hs
      exact absurd hs (by decide)
    · rwa [hp]
  · have hr' : (m'.read p).take ne.valLen = Cell.bytes (val.take ne.valLen) := by
      rw [← Cell.take_bytes, ← hr, List.take_take, Nat.min_eq_left hv]
    unfold itemOf entryKey
    rw [hp, hk0, hflags, hkey, hval, hrk, ← he]
    simp [hk, hr', Cell.take_bytes]

/-! ## Allocation -/

/-- Writing a value into a block just allocated for it. -/
theorem Owned.slabAlloc_store (h : Owned m A) {sl : Slab} {p : Ptr} {n : Nat} (bs : List UInt8)
    (ha : VoidCache.slabAlloc m.slab n = (some p, sl)) :
    let m' := { m with slab := sl.store p (blit (sl.load p) 0 (Cell.bytes bs)) }
    Owned m' (p ::ₘ A) ∧ Frame m m' A ∧ (m'.read p).take bs.length = Cell.bytes bs ∧
      ∃ c i, p = .block c i := by
  obtain ⟨ho, hr, c, i, rfl⟩ := h.slabAlloc ha
  refine ⟨ho.store rfl _, ?_, ?_, c, i, rfl⟩
  · refine Frame.of_ne (p := .block c i) (fun q hq => ?_) ho.notMem
    have hq' := hr q
    cases q with
    | block c' i' =>
      rw [← hq']
      exact Slab.load_store_of_ne _ _ hq
    | _ => rfl
  · simp only [Mem.read, Slab.load_store_self, blit_zero]
    exact List.take_left' (by simp)

theorem malloc_none {bs : List UInt8} (h : malloc env m bs = (none, m')) : m' = m := by
  unfold malloc at h
  split_ifs at h
  · simp at h
  · exact (Prod.mk.inj h).2.symm

theorem mmapAnon_none {bs : List UInt8} (h : mmapAnon env m bs = (none, m')) : m' = m := by
  unfold mmapAnon at h
  split_ifs at h
  · simp at h
  · exact (Prod.mk.inj h).2.symm

/-- The outcome of `buildEntry`, whichever it is, keeps the rest of the memory. -/
theorem buildEntry_outcome (env : Env) (h : Owned m A) (total : Nat) (hk : ne.keyLen = key.length)
    (hv : ne.valLen ≤ val.length) :
    (∃ e m' total', buildEntry env m total ne key val = (some e, m', total') ∧
      Built m m' A ne e key val) ∨
    (∃ m', buildEntry env m total ne key val = (none, m', total) ∧ Owned m' A ∧ Frame m m' A) := by
  unfold buildEntry
  by_cases hin : key.length + val.length ≤ payloadSize ∧ ¬ payloadSize < key.length
  · rw [if_pos hin]
    exact Or.inl ⟨_, _, _, rfl, built_inline h hk hv⟩
  rw [if_neg hin]
  by_cases hsl : val.length ≤ slabClassSize (slabClasses - 1)
  · rw [if_pos hsl]
    rcases ha : slabAlloc m.slab val.length with ⟨_ | vbuf, sl⟩
    · exact Or.inr ⟨m, rfl, h, Frame.refl _ _⟩
    obtain ⟨ho, hf, hr, hp⟩ := h.slabAlloc_store val ha
    dsimp only
    by_cases hshort : key.length ≤ payloadSize - ptrSize
    · rw [if_pos hshort]
      exact Or.inl ⟨_, _, _, rfl, built_slab ho hf hp hr hk hv rfl⟩
    rw [if_neg hshort]
    rcases hm : malloc env { m with slab := sl.store vbuf (blit (sl.load vbuf) 0 (Cell.bytes val)) }
      key with ⟨_ | kbuf, m2⟩
    · -- the block goes back to its class
      rw [malloc_none hm]
      obtain ⟨c, i, hp⟩ := hp
      refine Or.inr ⟨_, rfl, ho.slabFree hp (slabClassFor_lt _),
        hf.trans (Frame.of_ne (fun q hq => ?_) ho.notMem)⟩
      cases q with
      | block c' i' => exact slabFree_load_of_ne _ _ hq
      | _ => rfl
    · obtain ⟨ho2, hf2, hrk, hkp⟩ := ho.malloc hm
      have hne : vbuf ≠ kbuf := by
        rintro rfl
        exact ho2.notMem (Multiset.mem_cons_self _ _)
      refine Or.inl ⟨_, _, _, rfl, built_long ho2 (hf.trans ?_) hkp (Or.inl ⟨rfl, hp⟩) hrk
        (by rwa [hf2 _ hne]) hk hv rfl⟩
      exact (Frame.of_ne hf2 ho2.notMem).mono (Multiset.subset_cons _ _)
  · rw [if_neg hsl]
    rcases ha : mmapAnon env m val with ⟨_ | vbuf, m1⟩
    · rw [mmapAnon_none ha]
      exact Or.inr ⟨m, rfl, h, Frame.refl _ _⟩
    obtain ⟨ho, hf, hr, hp⟩ := h.mmapAnon ha
    dsimp only
    rcases hm : malloc env m1 key with ⟨_ | kbuf, m2⟩
    · rw [malloc_none hm]
      obtain ⟨id, rfl⟩ := hp
      obtain ⟨hfree, hframe⟩ := ho.munmap val.length
      exact Or.inr ⟨_, rfl, hfree, (Frame.of_ne hf ho.notMem).trans hframe⟩
    · obtain ⟨ho2, hf2, hrk, hkp⟩ := ho.malloc hm
      have hne : vbuf ≠ kbuf := by
        rintro rfl
        exact ho2.notMem (Multiset.mem_cons_self _ _)
      refine Or.inl ⟨_, _, _, rfl, built_long ho2 ((Frame.of_ne hf ho.notMem).trans ?_) hkp
        (Or.inr ⟨rfl, hp⟩) hrk
        (by rw [hf2 _ hne, hr]; exact List.take_of_length_le (by simp)) hk hv rfl⟩
      exact (Frame.of_ne hf2 ho2.notMem).mono (Multiset.subset_cons _ _)

/-- Every layout fills the payload exactly. -/
theorem length_payload_buildEntry {total total' : Nat}
    (h : buildEntry env m total ne key val = (some e, m', total')) :
    e.payload.length = payloadSize := by
  unfold buildEntry at h
  split_ifs at h with hin hsl hshort
  · obtain rfl := Option.some.inj (Prod.mk.inj h).1
    exact length_packed (by simpa using hin.1)
  · split at h
    · simp at h
    · obtain rfl := Option.some.inj (Prod.mk.inj h).1
      exact length_packed (by simp [payloadSize, ptrSize] at hshort ⊢; omega)
  · split at h
    · simp at h
    · dsimp only at h
      split at h
      · simp at h
      · obtain rfl := Option.some.inj (Prod.mk.inj h).1
        exact length_packed (by simp [payloadSize])
  · split at h
    · simp at h
    · split at h
      · simp at h
      · obtain rfl := Option.some.inj (Prod.mk.inj h).1
        exact length_packed (by simp [payloadSize])

/-- The counter grows by the length of a value that is moved out. -/
theorem total_buildEntry {total total' : Nat}
    (h : buildEntry env m total ne key val = (some e, m', total')) :
    total' = if hasFlag e.flags (flagValSlab ||| flagValMmap) then (total + val.length) % 2 ^ 64
      else total := by
  unfold buildEntry at h
  split_ifs at h with hin hsl hshort
  · cases h
    have hflag : ¬ hasFlag 0 (flagValSlab ||| flagValMmap) = true := by decide
    exact (if_neg hflag).symm
  · split at h
    · simp at h
    · cases h
      have hflag : hasFlag flagValSlab (flagValSlab ||| flagValMmap) = true := by decide
      exact (if_pos hflag).symm
  · split at h
    · simp at h
    · dsimp only at h
      split at h
      · simp at h
      · cases h
        have hflag : hasFlag (flagValSlab ||| flagKeyLong) (flagValSlab ||| flagValMmap) = true := by decide
        exact (if_pos hflag).symm
  · split at h
    · simp at h
    · split at h
      · simp at h
      · cases h
        have hflag : hasFlag (flagValMmap ||| flagKeyLong) (flagValSlab ||| flagValMmap) = true := by decide
        exact (if_pos hflag).symm

end VoidCache
