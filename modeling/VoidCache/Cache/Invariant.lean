import VoidCache.Cache.Locked
import VoidCache.Cache.Build

/-!
# The invariant of a cache

In a valid cache every table has the shape of `Shard.Shape`, the live entries own their
buffers exclusively, and each of them names a key that hashes to the shard it is in.
Abstractly a cache is the multiset `items` of what its live entries mean. All calls change
one shard by taking entries out and putting entries in, so `Valid.replace` carries the
invariant and the items through each of them.
-/
namespace VoidCache

/-! ## What a cache holds -/

def Cache.contents (c : Cache) : Multiset EntryData := slotSum numShards Shard.contents c.shards

/-- The live entries, as keys, values and deadlines. -/
def Cache.items (c : Cache) : Multiset Item := c.contents.map (itemOf c.mem)

@[simp] theorem emptyShard_contents (cap : Nat) : (emptyShard cap).contents = 0 := by
  unfold Shard.contents slotSum
  exact Finset.sum_eq_zero fun _ _ => rfl

def ptrsOf (C : Multiset EntryData) : Multiset Ptr := C.bind EntryData.ptrs

@[simp] theorem ptrsOf_zero : ptrsOf 0 = 0 := rfl

@[simp] theorem ptrsOf_add (C D : Multiset EntryData) : ptrsOf (C + D) = ptrsOf C + ptrsOf D :=
  Multiset.add_bind _ _ _

@[simp] theorem ptrsOf_cons (d : EntryData) (C : Multiset EntryData) :
    ptrsOf (d ::ₘ C) = d.ptrs + ptrsOf C := Multiset.cons_bind _ _ _

@[simp] theorem ptrsOf_singleton (d : EntryData) : ptrsOf {d} = d.ptrs := Multiset.singleton_bind _ _

theorem ptrs_subset {d : EntryData} {C : Multiset EntryData} (h : d ∈ C) : d.ptrs ⊆ ptrsOf C :=
  fun _ hp => Multiset.mem_bind.mpr ⟨d, h, hp⟩

theorem ptrsOf_subset {C D : Multiset EntryData} (h : C ⊆ D) : ptrsOf C ⊆ ptrsOf D := fun p hp => by
  obtain ⟨d, hd, hp⟩ := Multiset.mem_bind.mp hp
  exact ptrs_subset (h hd) hp

/-- Entries whose objects are untouched keep their meaning. -/
theorem Frame.items {m m' : Mem} {C : Multiset EntryData} (h : Frame m m' (ptrsOf C)) {d : EntryData}
    (hd : d ∈ C) : itemOf m' d = itemOf m d := itemOf_frame (h.mono (ptrs_subset hd))

theorem Frame.map_items {m m' : Mem} {C : Multiset EntryData} (h : Frame m m' (ptrsOf C)) :
    C.map (itemOf m') = C.map (itemOf m) := Multiset.map_congr rfl fun _ hd => h.items hd

/-- `entry_expired` on what an entry means. -/
def Item.expired (now : Nat) (i : Item) : Bool :=
  if i.expireNs = 0 then false else decide (i.expireNs < toInt64 now)

/-- The entry `d` stands for `key` and `val`. -/
structure Names (m : Mem) (d : EntryData) (key val : List UInt8) : Prop where
  item : itemOf m d = ⟨Cell.bytes key, Cell.bytes val, d.expireNs⟩
  keyLen : d.keyLen = key.length
  valLen : d.valLen = val.length
  keyHash : d.keyHash = wyhash64 key 0
  pos : 0 < key.length
  bound : key.length < 2 ^ 32

theorem Names.frame {m m' : Mem} {d : EntryData} {key val : List UInt8} (h : Names m d key val)
    (hf : itemOf m' d = itemOf m d) : Names m' d key val :=
  ⟨hf.trans h.item, h.keyLen, h.valLen, h.keyHash, h.pos, h.bound⟩

def homeShard (key : List UInt8) : Nat := shardIdx (wyhash64 key 0)

/-- The scan for `key` in its home shard. -/
def Cache.find (c : Cache) (now : Nat) (key : List UInt8) : Option Nat :=
  shardFind c.mem now (c.shards (homeShard key)) key (key.length % 2 ^ 32) (wyhash64 key 0)

structure Cache.Valid (c : Cache) : Prop where
  shape : ∀ si, (c.shards si).Shape
  owned : Owned c.mem (ptrsOf c.contents)
  kinds : ∀ d ∈ c.contents, d.Kinds
  named : ∀ si, si < numShards → ∀ d ∈ (c.shards si).contents,
    ∃ key val, Names c.mem d key val ∧ homeShard key = si

/-- The entries `Q` of all shards but `si`. -/
structure Beside (c : Cache) (si : Nat) (Q : Multiset EntryData) : Prop where
  contents : ∀ (c' : Cache) (s' : Shard), c'.shards = Function.update c.shards si s' →
    c'.contents = s'.contents + Q
  other : ∀ j, j < numShards → j ≠ si → ∀ d ∈ (c.shards j).contents, d ∈ Q

theorem exists_beside (c : Cache) {si : Nat} (hsi : si < numShards) : ∃ Q, Beside c si Q := by
  obtain ⟨Q, hQ⟩ := slotSum.exists_rest Shard.contents c.shards hsi
  refine ⟨Q, fun c' s' hs => ?_, fun j hj hjs d hd => ?_⟩
  · rw [← hQ s', ← hs]
    rfl
  · rw [← zero_add Q, ← emptyShard_contents 1, ← hQ, slotSum.mem_iff]
    exact ⟨j, hj, by rwa [Function.update_of_ne hjs]⟩

theorem Beside.self {c : Cache} {si : Nat} {Q : Multiset EntryData} (h : Beside c si Q) :
    c.contents = (c.shards si).contents + Q := h.contents c _ (Function.update_eq_self _ _).symm

namespace Cache.Valid

variable {c c' : Cache} {si : Nat} {now : Nat} {key : List UInt8}

theorem mem_contents {d : EntryData} :
    d ∈ c.contents ↔ ∃ si, si < numShards ∧ d ∈ (c.shards si).contents := slotSum.mem_iff

/-- One shard is replaced: `gone` leaves, `add` comes, `left` was meant to be stored and is
not. If the memory follows, the cache stays valid and the items of all shards follow. -/
theorem replace (hv : c.Valid) (gone rest add left : Multiset EntryData) {s' : Shard}
    {Q : Multiset EntryData} (hQ : Beside c si Q) (hs : c'.shards = Function.update c.shards si s') (hshape : s'.Shape)
    (hbefore : (c.shards si).contents = gone + rest) (hafter : s'.contents + left = add + rest)
    (hown : Owned c'.mem (ptrsOf (add + (rest + Q))))
    (hframe : Frame c.mem c'.mem (ptrsOf (rest + Q)))
    (hadd : ∀ d ∈ add, d.Kinds ∧ ∃ key val, Names c'.mem d key val ∧ homeShard key = si) :
    c'.Valid ∧ c.items = gone.map (itemOf c.mem) + (rest + Q).map (itemOf c.mem) ∧
      c'.items + left.map (itemOf c'.mem) =
        add.map (itemOf c'.mem) + (rest + Q).map (itemOf c.mem) := by
  have hc : c.contents = gone + (rest + Q) := by rw [hQ.self, hbefore, add_assoc]
  have hc' : c'.contents + left = add + (rest + Q) := by
    rw [hQ.contents c' s' hs, add_right_comm, hafter, add_assoc]
  refine ⟨⟨fun j => ?_, ?_, fun d hd => ?_, fun j hj d hd => ?_⟩, ?_, ?_⟩
  · rw [hs]
    by_cases hj : j = si
    · subst hj
      simpa using hshape
    · simpa [hj] using hv.shape j
  · rw [← hc', ptrsOf_add, add_comm] at hown
    exact hown.weaken
  · rcases Multiset.mem_add.mp (hc' ▸ Multiset.mem_add.mpr (Or.inl hd)) with h | h
    · exact (hadd d h).1
    · exact hv.kinds d (hc ▸ Multiset.mem_add.mpr (Or.inr h))
  · rw [hs] at hd
    by_cases hjs : j = si
    · subst hjs
      rw [Function.update_self] at hd
      rcases Multiset.mem_add.mp (hafter ▸ Multiset.mem_add.mpr (Or.inl hd)) with h | h
      · exact (hadd d h).2
      · obtain ⟨key, val, hn, hk⟩ := hv.named j hj d (by simp [hbefore, h])
        exact ⟨key, val, hn.frame (hframe.items (by simp [h])), hk⟩
    · rw [Function.update_of_ne hjs] at hd
      obtain ⟨key, val, hn, hk⟩ := hv.named j hj d hd
      exact ⟨key, val, hn.frame (hframe.items (by simp [hQ.other j hj hjs d hd])), hk⟩
  · rw [Cache.items, hc, Multiset.map_add]
  · rw [Cache.items, ← Multiset.map_add, hc', Multiset.map_add, hframe.map_items]

/-- Only the memory beside the entries changed. -/
theorem frame (hv : c.Valid) (c' : Cache) (hs : c'.shards = c.shards) (hown : Owned c'.mem (ptrsOf c.contents))
    (hframe : Frame c.mem c'.mem (ptrsOf c.contents)) : c'.Valid ∧ c'.items = c.items := by
  have hc : c'.contents = c.contents := by rw [Cache.contents, hs, Cache.contents]
  refine ⟨⟨?_, ?_, ?_, fun si hsi d hd => ?_⟩, ?_⟩
  · rw [hs]
    exact hv.shape
  · rw [hc]
    exact hown
  · rw [hc]
    exact hv.kinds
  · rw [hs] at hd
    obtain ⟨key, val, hn, hk⟩ := hv.named si hsi d hd
    exact ⟨key, val, hn.frame (hframe.items (mem_contents.mpr ⟨si, hsi, hd⟩)), hk⟩
  · rw [Cache.items, Cache.items, hc, hframe.map_items]

/-! ## Searching -/

theorem mem_items {i : Item} : i ∈ c.items ↔ ∃ d ∈ c.contents, itemOf c.mem d = i := by
  simp [Cache.items]

/-- Comparing a live entry with `key` compares what it means. -/
theorem slotMatches_named {m : Mem} {e : Entry} {key' val' : List UInt8} (hk : key.length < 2 ^ 32)
    (hn : Names m e.toEntryData key' val') (hl : e.state = .live) :
    slotMatches m e key (key.length % 2 ^ 32) (wyhash64 key 0) = true ↔ key' = key := by
  rw [slotMatches_iff, Nat.mod_eq_of_lt hk, List.take_length, hn.item, hn.keyLen, hn.keyHash]
  constructor
  · rintro ⟨_, _, _, h⟩
    exact Cell.bytes_injective h
  · rintro rfl
    exact ⟨hl, rfl, rfl, rfl⟩

theorem find_some (hv : c.Valid) (hk : key.length < 2 ^ 32) {slot : Nat}
    (h : c.find now key = some slot) :
    let d := ((c.shards (homeShard key)).table slot).toEntryData
    slot < (c.shards (homeShard key)).cap ∧
      ((c.shards (homeShard key)).table slot).state = .live ∧
      d ∈ (c.shards (homeShard key)).contents ∧
      (∃ val, Names c.mem d key val) ∧ entryExpired now d = false := by
  obtain ⟨hlt, hm, hx⟩ := shardFind_sound (hv.shape _) h
  have hl := (slotMatches_iff.mp hm).1
  have hd := Shard.mem_contents.mpr ⟨slot, hlt, hl, rfl⟩
  obtain ⟨key', val, hn, _⟩ := hv.named _ (shardIdx_lt _) _ hd
  obtain rfl := (slotMatches_named hk hn hl).mp hm
  exact ⟨hlt, hl, hd, ⟨val, hn⟩, hx⟩

/-- The scan for `key` answers `none` only if no item has that key, or an expired one has. -/
theorem find_none (hv : c.Valid) (hk : key.length < 2 ^ 32) (h : c.find now key = none) {i : Item}
    (hi : i ∈ c.items) (hik : i.key = Cell.bytes key) :
    ∃ j ∈ c.items, j.key = Cell.bytes key ∧ j.expired now = true := by
  obtain ⟨d, hd, rfl⟩ := mem_items.mp hi
  obtain ⟨sj, hsj, hd⟩ := mem_contents.mp hd
  obtain ⟨key', val, hn, rfl⟩ := hv.named sj hsj d hd
  rw [hn.item] at hik
  obtain rfl := Cell.bytes_injective hik
  obtain ⟨slot, hlt, hl, rfl⟩ := Shard.mem_contents.mp hd
  obtain ⟨slot', hlt', hm', hx'⟩ := shardFind_none (hv.shape _) h hlt
    ((slotMatches_named hk hn hl).mpr rfl)
  have hd' := Shard.mem_contents.mpr ⟨slot', hlt', (slotMatches_iff.mp hm').1, rfl⟩
  refine ⟨_, mem_items.mpr ⟨_, mem_contents.mpr ⟨_, hsj, hd'⟩, rfl⟩, ?_, hx'⟩
  have := (slotMatches_iff.mp hm').2.2.2
  rwa [Nat.mod_eq_of_lt hk, List.take_length] at this

end Cache.Valid
end VoidCache
