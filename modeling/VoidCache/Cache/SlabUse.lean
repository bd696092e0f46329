import VoidCache.Cache.Runs

/-!
# How blocks move between the free lists and the entries

A set takes a block from the free list of the class of its value. Every release pushes the
block of an entry on the list of the class that is computed from the length in the entry.
`SlabEffect` says for each call how the free lists and the live entries move, and
`step_slabEffect` proves it of the code; what the allocator guarantees over whole runs is
derived from it in `SlabBlocks`.
-/
namespace VoidCache

variable {m : Mem} {fl fl' : Nat → List Ptr} {A : Multiset Ptr} {C C' D : Multiset EntryData}
  {d ne : EntryData} {key val : List UInt8}

/-- The free lists after `entry_free_resources`. -/
def giveBack (d : EntryData) (fl : Nat → List Ptr) : Nat → List Ptr :=
  if hasFlag d.flags flagValSlab then
    Function.update fl (slabClassFor d.valLen) (d.ptrAt d.valOff :: fl (slabClassFor d.valLen))
  else fl

/-- Some of the entries are released, one after the other. -/
inductive Released : (Nat → List Ptr) → Multiset EntryData → (Nat → List Ptr) →
    Multiset EntryData → Prop
  | refl (fl : Nat → List Ptr) (C : Multiset EntryData) : Released fl C fl C
  | cons {d : EntryData} {fl fl' : Nat → List Ptr} {C C' : Multiset EntryData} :
      Released (giveBack d fl) C fl' C' → Released fl (d ::ₘ C) fl' C'

/-- The value is too long for the payload and short enough for a block. -/
def InSlab (key val : List UInt8) : Prop :=
  payloadSize < key.length + val.length ∧ val.length ≤ slabClassSize (slabClasses - 1)

instance (key val : List UInt8) : Decidable (InSlab key val) := inferInstanceAs (Decidable (_ ∧ _))

/-- The new entry takes a block, if its value is kept in one. -/
inductive Taken (fl : Nat → List Ptr) (key val : List UInt8) : (Nat → List Ptr) → EntryData → Prop
  | outside {ne : EntryData} : ¬ InSlab key val → hasFlag ne.flags flagValSlab = false →
      Taken fl key val fl ne
  | block {ne : EntryData} {p : Ptr} {l : List Ptr} :
      InSlab key val → fl (slabClassFor val.length) = p :: l →
      hasFlag ne.flags flagValSlab = true → ne.ptrAt ne.valOff = p →
      Taken fl key val (Function.update fl (slabClassFor val.length) l) ne

/-- The entry that a `vc_set` drops because its table is full. -/
def Cache.dropped (c : Cache) (now : Nat) (env : Env) (key val : List UInt8) (ttlSec : UInt32) :
    Option EntryData :=
  match buildEntry env c.mem c.totalMemory (freshEntry now key val ttlSec) key val with
  | (none, _, _) => none
  | (some ne, m, _) => lockedLeft (c.shards (homeShard key)) m now key ne

/-- One step from the cache `c` with the free lists `fl`. A set that succeeds takes its block
first and then releases what it replaces. -/
inductive SlabEffect (c : Cache) (now : Nat) (fl : Nat → List Ptr) :
    Op → Res → Cache → (Nat → List Ptr) → Prop
  | stored {key val : List UInt8} {ttlSec : UInt32} {env : Env} {c' : Cache}
      {fl₁ fl' : Nat → List Ptr} {ne : EntryData} {rest : Multiset EntryData} :
      Settable key val → Taken fl key val fl₁ ne → ne.valLen = min val.length valMax →
      Released fl₁ c.contents fl' rest →
      c'.contents + one (c.dropped now env key val ttlSec) = ne ::ₘ rest →
      SlabEffect c now fl (.set key val ttlSec env) (.done (.ok ())) c' fl'
  | failed {key val : List UInt8} {ttlSec : UInt32} {env : Env} {c' : Cache} {e : VcErr} :
      c'.contents = c.contents →
      SlabEffect c now fl (.set key val ttlSec env) (.done (.error e)) c' fl
  | released {op : Op} {r : Res} {c' : Cache} {fl' : Nat → List Ptr} :
      (∀ key val ttlSec env, op ≠ .set key val ttlSec env) →
      Released fl c.contents fl' c'.contents → SlabEffect c now fl op r c' fl'

namespace Released

theorem trans {fl'' : Nat → List Ptr} {C'' : Multiset EntryData} (h : Released fl C fl' C')
    (h' : Released fl' C' fl'' C'') : Released fl C fl'' C'' := by
  induction h with
  | refl => exact h'
  | cons _ ih => exact (ih h').cons

theorem add (h : Released fl C fl' C') (D : Multiset EntryData) :
    Released fl (C + D) fl' (C' + D) := by
  induction h with
  | refl => exact refl _ _
  | cons _ ih =>
    rw [Multiset.cons_add]
    exact ih.cons

end Released

/-! ## Releasing -/

theorem slab_free (m : Mem) (p : Ptr) : (free m p).slab = m.slab := by cases p <;> rfl

theorem slab_munmap (m : Mem) (p : Ptr) (len : Nat) : (munmap m p len).slab = m.slab := by
  unfold munmap
  cases p with
  | map id => cases h : m.maps.lookup id <;> simp [h]
  | _ => rfl

theorem slab_malloc (env : Env) (m : Mem) (bytes : List UInt8) : (malloc env m bytes).2.slab = m.slab := by
  unfold malloc
  split_ifs <;> rfl

theorem slab_mmapAnon (env : Env) (m : Mem) (bytes : List UInt8) :
    (mmapAnon env m bytes).2.slab = m.slab := by
  unfold mmapAnon
  split_ifs <;> rfl

theorem slab_entryFreeResources (d : EntryData) (m : Mem) :
    (entryFreeResources d m).slab =
      if hasFlag d.flags flagValSlab then slabFree m.slab (d.ptrAt d.valOff) (slabClassFor d.valLen)
      else m.slab := by
  have hkey : (if hasFlag d.flags flagKeyLong then free m (d.ptrAt 0) else m).slab = m.slab := by
    split_ifs
    · exact slab_free m _
    · rfl
  unfold entryFreeResources
  dsimp only
  generalize (if hasFlag d.flags flagKeyLong then free m (d.ptrAt 0) else m) = m₁ at hkey ⊢
  split_ifs with hs hm
  · rw [hkey]
  · rw [slab_munmap, hkey]
  · exact hkey

theorem FreeLists.release (hf : FreeLists m.slab fl) (ho : Owned m (d.ptrs + A)) (hk : d.Kinds) :
    FreeLists (entryFreeResources d m).slab (giveBack d fl) := by
  rw [slab_entryFreeResources, giveBack]
  split_ifs with hs
  · obtain ⟨c, i, hp⟩ := hk.slab hs
    have hmem : d.ptrAt d.valOff ∈ d.ptrs := by simp [EntryData.ptrs, hasFlag_or, hs]
    rw [hp] at hmem ⊢
    refine hf.free c i _ fun k hk' hin => ?_
    exact Multiset.disjoint_left.mp (Multiset.nodup_add.mp (ho.nodup hf)).2.2
      (mem_freeBlocks.mpr ⟨k, hk', hin⟩) (Multiset.mem_add.mpr (Or.inl hmem))
  · exact hf

theorem FreeLists.freeOpt {o : Option EntryData} (hf : FreeLists m.slab fl)
    (ho : Owned m (ptrsOf (one o) + A)) (hk : ∀ d ∈ one o, d.Kinds) (C : Multiset EntryData) :
    ∃ fl', FreeLists (freeOpt o m).slab fl' ∧ Released fl (one o + C) fl' C := by
  cases o with
  | none => exact ⟨fl, hf, by simpa using Released.refl fl C⟩
  | some d =>
    refine ⟨giveBack d fl, hf.release (by simpa using ho) (hk d (by simp)), ?_⟩
    rw [one_some, Multiset.singleton_add]
    exact (Released.refl _ C).cons

/-! ## Building -/

theorem freshEntry_valLen (now : Nat) (key val : List UInt8) (ttlSec : UInt32) :
    (freshEntry now key val ttlSec).valLen = min val.length valMax := by
  unfold freshEntry
  dsimp only
  split_ifs <;> omega

/-- A block that was just taken is on no list any more. -/
theorem FreeLists.alloc_notMem {sl sl' : Slab} (hf : FreeLists sl fl) (hn : (freeBlocks fl).Nodup)
    {sz : Nat} {p : Ptr} (ha : slabAlloc sl sz = (some p, sl')) :
    ∃ l, fl (slabClassFor sz) = p :: l ∧ FreeLists sl' (Function.update fl (slabClassFor sz) l) ∧
      p ∉ freeBlocks (Function.update fl (slabClassFor sz) l) := by
  obtain ⟨l, hl, hf', -⟩ := hf.alloc ha
  rw [freeBlocks_alloc (slabClassFor_lt sz) hl, Multiset.nodup_cons] at hn
  exact ⟨l, hl, hf', hn.1⟩

/-- A block that was taken and is pushed back at once leaves the lists as they were. -/
theorem FreeLists.undo {sl : Slab} {cls : Nat} {p : Ptr} {l : List Ptr} (hl : fl cls = p :: l)
    (hp : ∃ c i, p = .block c i) (hf : FreeLists sl (Function.update fl cls l))
    (hn : p ∉ freeBlocks (Function.update fl cls l)) : FreeLists (slabFree sl p cls) fl := by
  obtain ⟨c, i, rfl⟩ := hp
  have h := hf.free c i cls fun k hk hin => hn (mem_freeBlocks.mpr ⟨k, hk, hin⟩)
  rwa [Function.update_self, Function.update_idem, ← hl, Function.update_eq_self] at h

theorem buildEntry_lists (env : Env) (hf : FreeLists m.slab fl) (hn : (freeBlocks fl).Nodup)
    (total : Nat) (val : List UInt8) (hk : ne.keyLen = key.length) :
    (∃ e m' total' fl', buildEntry env m total ne key val = (some e, m', total') ∧
      FreeLists m'.slab fl' ∧ Taken fl key val fl' e) ∨
    (∃ m' total', buildEntry env m total ne key val = (none, m', total') ∧ FreeLists m'.slab fl) := by
  unfold buildEntry
  by_cases hin : key.length + val.length ≤ payloadSize ∧ ¬ payloadSize < key.length
  · rw [if_pos hin]
    have hout : ¬ InSlab key val := fun h => absurd h.1 (by omega)
    exact Or.inl ⟨_, _, _, fl, rfl, hf, .outside hout (by decide : hasFlag 0 flagValSlab = false)⟩
  rw [if_neg hin]
  by_cases hsl : val.length ≤ slabClassSize (slabClasses - 1)
  · have hin : InSlab key val := ⟨by omega, hsl⟩
    rw [if_pos hsl]
    rcases ha : slabAlloc m.slab val.length with ⟨_ | vbuf, sl⟩
    · exact Or.inr ⟨m, _, rfl, hf⟩
    obtain ⟨l, hl, hf₁, hnot⟩ := hf.alloc_notMem hn ha
    have hf₂ := hf₁.store hnot (blit (sl.load vbuf) 0 (Cell.bytes val))
    have hblock : ∃ c i, vbuf = .block c i := hf.blocks (slabClassFor val.length) vbuf (by simp [hl])
    dsimp only
    by_cases hshort : key.length ≤ payloadSize - ptrSize
    · rw [if_pos hshort]
      have hkey : hasFlag flagValSlab flagKeyLong = false := by decide
      refine Or.inl ⟨_, _, _, _, rfl, hf₂, .block hin hl
        (by decide : hasFlag flagValSlab flagValSlab = true) (ptrAt_packed_snd ?_ rfl)⟩
      simp [EntryData.valOff, hkey, hk]
    rw [if_neg hshort]
    have hslab := slab_malloc env
      { m with slab := sl.store vbuf (blit (sl.load vbuf) 0 (Cell.bytes val)) } key
    rcases hm : malloc env
      { m with slab := sl.store vbuf (blit (sl.load vbuf) 0 (Cell.bytes val)) } key with ⟨_ | kbuf, m₂⟩
    · rw [hm] at hslab
      refine Or.inr ⟨_, _, rfl, ?_⟩
      dsimp only at hslab ⊢
      rw [hslab]
      exact FreeLists.undo hl hblock hf₂ hnot
    · rw [hm] at hslab
      have hlong : hasFlag (flagValSlab ||| flagKeyLong) flagKeyLong = true := by decide
      refine Or.inl ⟨_, _, _, _, rfl, hslab.symm ▸ hf₂, .block hin hl
        (by decide : hasFlag (flagValSlab ||| flagKeyLong) flagValSlab = true)
        (ptrAt_packed_snd ?_ rfl)⟩
      simp [EntryData.valOff, hlong, ptrSize]
  · rw [if_neg hsl]
    have hslab := slab_mmapAnon env m val
    rcases ha : mmapAnon env m val with ⟨_ | vbuf, m₁⟩
    · rw [ha] at hslab
      exact Or.inr ⟨_, _, rfl, hslab.symm ▸ hf⟩
    rw [ha] at hslab
    have hslab' := slab_malloc env m₁ key
    dsimp only at hslab ⊢
    rcases hm : malloc env m₁ key with ⟨_ | kbuf, m₂⟩
    · rw [hm] at hslab'
      refine Or.inr ⟨_, _, rfl, ?_⟩
      rw [slab_munmap, hslab', hslab]
      exact hf
    · rw [hm] at hslab'
      refine Or.inl ⟨_, _, _, fl, rfl, ?_,
        .outside (fun h => hsl h.2) (by decide : hasFlag (flagValMmap ||| flagKeyLong) flagValSlab = false)⟩
      rw [hslab', hslab]
      exact hf

/-! ## Each call -/

section Step

variable {c c' : Cache} {now : Nat} {env : Env} {ttlSec : UInt32}

/-- The locked section releases the old copy of the key and the clock's victim. -/
theorem FreeLists.replace (ne : EntryData) {m₁ : Mem} {old ev : Option EntryData} {R : Multiset EntryData}
    (hf : FreeLists m₁.slab fl) (hkinds : ∀ d ∈ one old + (one ev + R), d.Kinds)
    (ho : Owned m₁ (ne.ptrs + ptrsOf (one old + (one ev + R)))) :
    ∃ fl', FreeLists (VoidCache.freeOpt ev (VoidCache.freeOpt old m₁)).slab fl' ∧
      Released fl (one old + (one ev + R)) fl' R := by
  have hown : Owned m₁ (ptrsOf (one old) + (ptrsOf (one ev) + (ne.ptrs + ptrsOf R))) := by
    convert ho using 1
    simp only [ptrsOf_add]
    ac_rfl
  have hold : ∀ d ∈ one old, d.Kinds := fun d hd => hkinds d (by simp [hd])
  obtain ⟨fl₁, hf₁, hr₁⟩ := hf.freeOpt hown hold (one ev + R)
  obtain ⟨fl₂, hf₂, hr₂⟩ := hf₁.freeOpt (hown.freeOpt hold).1 (fun d hd => hkinds d (by simp [hd])) R
  exact ⟨fl₂, hf₂, hr₁.trans hr₂⟩

theorem vcSetStore_slabEffect (hv : c.Valid) (hf : FreeLists c.mem.slab fl) (hs : Settable key val)
    (now : Nat) (env : Env) (ttlSec : UInt32) :
    ∃ fl', FreeLists (vcSetStore c now env key val ttlSec).2.mem.slab fl' ∧
      SlabEffect c now fl (.set key val ttlSec env) (.done (vcSetStore c now env key val ttlSec).1)
        (vcSetStore c now env key val ttlSec).2 fl' := by
  have hk : key.length < 2 ^ 32 := hs.2.1
  have hkl : (freshEntry now key val ttlSec).keyLen = key.length := Nat.mod_eq_of_lt hk
  have hn : (freeBlocks fl).Nodup := (Multiset.nodup_add.mp (hv.owned.nodup hf)).1
  rcases vcSetStore_cases hv.owned hk now env val ttlSec with
    ⟨ne, m₁, total, hb, _, hbuilt, hset⟩ | ⟨m₁, hb, _, _, hset⟩
  · rcases buildEntry_lists env hf hn c.totalMemory val hkl with
      ⟨e, m', total', fl₁, hb', hf₁, ht⟩ | ⟨m', total', hb', _⟩
    · obtain ⟨hne, hmem⟩ := Prod.mk.inj (hb.symm.trans hb')
      obtain rfl := Option.some.inj hne
      obtain ⟨rfl, rfl⟩ := Prod.mk.inj hmem
      obtain ⟨Q, hQ⟩ : ∃ Q, Beside c (homeShard key) Q := exists_beside c (shardIdx_lt _)
      obtain ⟨rest, hl⟩ := lockedSet_outcome (hv.shape (homeShard key)) m₁ now key ne
      have hc : c.contents = one (oldCopy (c.shards (homeShard key)) m₁ now key ne.keyLen ne.keyHash) +
          (one (victim (removeOld (c.shards (homeShard key)) m₁ now key ne).1
            (removeOld (c.shards (homeShard key)) m₁ now key ne).2) + (rest + Q)) := by
        rw [hQ.self, hl.before]
        simp only [add_assoc]
      obtain ⟨fl', hf', hr⟩ := hf₁.replace ne (hc ▸ hv.kinds) (hc ▸ hbuilt.owned)
      rw [← hc] at hr
      rw [← hl.mem] at hf'
      have hdrop : c.dropped now env key val ttlSec =
          lockedLeft (c.shards (homeShard key)) m₁ now key ne := by rw [Cache.dropped, hb]
      rw [hset]
      refine ⟨fl', hf', .stored hs ht (hbuilt.valLen.trans (freshEntry_valLen ..)) hr ?_⟩
      rw [hdrop, hQ.contents _ _ rfl, add_right_comm, hl.after, Multiset.cons_add]
    · rw [hb] at hb'
      cases hb'
  · rcases buildEntry_lists env hf hn c.totalMemory val hkl with
      ⟨e, m', total', fl₁, hb', _⟩ | ⟨m', total', hb', hf'⟩
    · rw [hb] at hb'
      cases hb'
    · obtain ⟨-, hmem⟩ := Prod.mk.inj (hb.symm.trans hb')
      obtain ⟨rfl, -⟩ := Prod.mk.inj hmem
      rw [hset]
      exact ⟨fl, hf', .failed rfl⟩

/-- Nothing is dropped where there is room. -/
theorem Cache.Valid.dropped_eq_none (hv : c.Valid) (hs : Settable key val) (hroom : c.HasRoom now key)
    (env : Env) (ttlSec : UInt32) : c.dropped now env key val ttlSec = none := by
  unfold Cache.dropped
  rcases vcSetStore_cases hv.owned hs.2.1 now env val ttlSec with
    ⟨ne, m₁, total, hb, _, hbuilt, _⟩ | ⟨m₁, hb, _⟩
  · obtain ⟨Q, hQ⟩ : ∃ Q, Beside c (homeShard key) Q := exists_beside c (shardIdx_lt _)
    obtain ⟨rest, hl⟩ := lockedSet_outcome (hv.shape (homeShard key)) m₁ now key ne
    rw [hb]
    refine hl.room ?_
    unfold Cache.HasRoom Room at hroom
    unfold Room
    rwa [hbuilt.find_eq hv hQ]
  · rw [hb]

/-- The free lists and the entries after a call that takes no block. -/
def Frees (c c' : Cache) (fl : Nat → List Ptr) : Prop :=
  ∃ fl', FreeLists c'.mem.slab fl' ∧ Released fl c.contents fl' c'.contents

theorem Touched.frees (h : Touched c c') (hf : FreeLists c.mem.slab fl) : Frees c c' fl := by
  refine ⟨fl, ?_, ?_⟩
  · rw [h.mem]
    exact hf
  · rw [h.contents]
    exact Released.refl _ _

theorem Takes.frees {si : Nat} {s' : Shard} {gone : Option EntryData} (hv : c.Valid)
    (hsi : si < numShards) (h : Takes (c.shards si) c.mem s' c'.mem gone)
    (hs : c'.shards = Function.update c.shards si s') (hf : FreeLists c.mem.slab fl) :
    Frees c c' fl := by
  obtain ⟨Q, hQ⟩ := exists_beside c hsi
  have hc : c.contents = one gone + (s'.contents + Q) := by rw [hQ.self, h.contents, add_assoc]
  have ho := hv.owned
  rw [hc, ptrsOf_add] at ho
  obtain ⟨fl', hf', hr⟩ := hf.freeOpt ho (fun d hd => hv.kinds d (by
    rw [hc]
    exact Multiset.mem_add.mpr (Or.inl hd))) (s'.contents + Q)
  refine ⟨fl', ?_, ?_⟩
  · rw [h.mem]
    exact hf'
  · rw [hQ.contents c' s' hs, hc]
    exact hr

theorem vcDelStore_frees (hv : c.Valid) (hf : FreeLists c.mem.slab fl) (now : Nat) (key : List UInt8) :
    Frees c (vcDelStore c now key).2 fl := by
  rw [vcDelStore_eq]
  cases hfind : c.find now key with
  | none => exact ⟨fl, hf, Released.refl _ _⟩
  | some slot =>
    obtain ⟨hlt, hm, _⟩ := shardFind_sound (hv.shape _) hfind
    have ht := Takes.kill (hv.shape (homeShard key)) c.mem hlt (slotMatches_iff.mp hm).1
    exact ht.frees hv (shardIdx_lt _) rfl hf

/-- The loop of `vc_flush` over the slots of one shard, beside the entries `D` of the others. -/
theorem flushSlots_frees (n : Nat) : ∀ (j : Nat) (s : Shard) (m : Mem) (fl : Nat → List Ptr),
    j + n ≤ s.cap → FreeLists m.slab fl → Owned m (ptrsOf (s.contents + D)) →
    (∀ d ∈ s.contents, d.Kinds) →
    ∃ fl', FreeLists (flushSlots n j s m).2.slab fl' ∧
      Released fl (s.contents + D) fl' ((flushSlots n j s m).1.contents + D) := by
  induction n with
  | zero => exact fun j s m fl _ hf _ _ => ⟨fl, hf, Released.refl _ _⟩
  | succ n ih =>
    intro j s m fl hj hf ho hk
    by_cases hl : (s.table j).state = .live
    · have hc := bury_contents (s := s) (i := j) (by omega) hl
      rw [hc, Multiset.cons_add, ptrsOf_cons] at ho
      have hkind : (s.table j).toEntryData.Kinds := hk _ (by simp [hc])
      obtain ⟨fl', hf', hr⟩ := ih (j + 1) (s.bury j) _ _ (by rw [bury_cap]; omega) (hf.release ho hkind)
        (ho.release hkind).1 fun d hd => hk d (by simp [hc, hd])
      rw [flushSlots_of_live hl, hc, Multiset.cons_add]
      exact ⟨fl', hf', hr.cons⟩
    · rw [flushSlots_of_not_live hl]
      exact ih (j + 1) s m fl (by omega) hf ho hk

theorem flushShard_frees {i : Nat} (hi : i < numShards) (hv : c.Valid) (hf : FreeLists c.mem.slab fl) :
    Frees c { (c.setShard i (flushShard (c.shards i) c.mem).1) with
      mem := (flushShard (c.shards i) c.mem).2 } fl := by
  obtain ⟨Q, hQ⟩ := exists_beside c hi
  obtain ⟨fl', hf', hr⟩ := flushSlots_frees (c.shards i).cap 0 (c.shards i) c.mem fl (by omega) hf
    (hQ.self ▸ hv.owned) fun d hd => hv.kinds d (by simp [hQ.self, hd])
  refine ⟨fl', hf', ?_⟩
  rw [hQ.self, hQ.contents _ _ rfl]
  exact hr

theorem flushShards_frees (n : Nat) : ∀ (i : Nat) (c : Cache) (fl : Nat → List Ptr), i + n ≤ numShards →
    c.Valid → FreeLists c.mem.slab fl → Frees c (flushShards n i c) fl := by
  induction n with
  | zero => exact fun i c fl _ _ hf => ⟨fl, hf, Released.refl _ _⟩
  | succ n ih =>
    intro i c fl hi hv hf
    obtain ⟨he, gone, hb⟩ := flushShard_buried (hv.shape i) c.mem
    obtain ⟨fl₁, hf₁, hr₁⟩ := flushShard_frees (by omega : i < numShards) hv hf
    have hv₁ : ({ (c.setShard i (flushShard (c.shards i) c.mem).1) with
        mem := (flushShard (c.shards i) c.mem).2 } : Cache).Valid :=
      hv.emptied (by omega) rfl he hb
    obtain ⟨fl₂, hf₂, hr₂⟩ := ih (i + 1) _ fl₁ (by omega) hv₁ hf₁
    exact ⟨fl₂, hf₂, hr₁.trans hr₂⟩

theorem SlabEffect.of_log {r : WalReq} {op : Op} {res : Res}
    (h : SlabEffect (c.log r) now fl op res c' fl') : SlabEffect c now fl op res c' fl' := by
  cases h with
  | stored hs ht hlen hr hafter => exact .stored hs ht hlen hr hafter
  | failed hc => exact .failed hc
  | released hop hr => exact .released hop hr

/-- Everything a step can do to the free lists and to the entries that refer to blocks. -/
theorem step_slabEffect {w : World} (hv : w.cache.Valid) (hf : FreeLists w.cache.mem.slab fl) (op : Op) :
    ∃ fl', FreeLists (step w op).1.cache.mem.slab fl' ∧
      SlabEffect w.cache w.now fl op (step w op).2 (step w op).1.cache fl' := by
  have hfrees {op : Op} {r : Res} {c' : Cache} (hop : ∀ key val ttlSec env, op ≠ .set key val ttlSec env)
      (h : Frees w.cache c' fl) :
      ∃ fl', FreeLists c'.mem.slab fl' ∧ SlabEffect w.cache w.now fl op r c' fl' := by
    obtain ⟨fl', hf', hr⟩ := h
    exact ⟨fl', hf', .released hop hr⟩
  cases op with
  | set key val ttlSec env =>
    unfold step
    dsimp only
    rw [vcSet_eq]
    split_ifs with hset
    · obtain ⟨fl', hf', he⟩ := vcSetStore_slabEffect (hv.log (setReq env key val ttlSec)) hf hset
        w.now env ttlSec
      exact ⟨fl', hf', he.of_log⟩
    · exact ⟨fl, hf, .failed rfl⟩
  | get key => exact hfrees (by simp) ((vcGet_touched w.cache w.now key).frees hf)
  | del key env =>
    exact hfrees (by simp) (vcDelStore_frees (hv.log (delReq env key)) hf w.now key)
  | flush => exact hfrees (by simp) (flushShards_frees numShards 0 w.cache fl (by omega) hv hf)
  | tick ns => exact hfrees (by simp) ⟨fl, hf, Released.refl _ _⟩

end Step

end VoidCache
