import VoidCache.Cache.Invariant

/-!
# What each call does to the items

One theorem per call: set, get, delete, flush and creation keep `Cache.Valid`, and each of
them says how the multiset of items changes. Everything proved about whole runs uses these
and does not open the calls again.
-/
namespace VoidCache

variable {c c' : Cache} {now : Nat} {env : Env} {key val : List UInt8} {ttlSec : UInt32}

/-- The item the scan for `key` returns. -/
def Cache.findItem (c : Cache) (now : Nat) (key : List UInt8) : Option Item :=
  (c.find now key).map fun slot => itemOf c.mem ((c.shards (homeShard key)).table slot).toEntryData

def Cache.HasRoom (c : Cache) (now : Nat) (key : List UInt8) : Prop :=
  Room (c.shards (homeShard key)) c.mem now key (key.length % 2 ^ 32) (wyhash64 key 0)

instance (c : Cache) (now : Nat) (key : List UInt8) : Decidable (c.HasRoom now key) :=
  inferInstanceAs (Decidable (Room _ _ _ _ _ _))

/-- The value of `expire_ns` for a time to live. -/
def deadline (now : Nat) (ttlSec : UInt32) : Int :=
  if ttlSec = 0 then 0 else toInt64 (now + ttlSec.toNat * 1000000000)

/-- The item a successful `vc_set` is meant to add. -/
def newItem (now : Nat) (key val : List UInt8) (ttlSec : UInt32) : Item :=
  ⟨Cell.bytes key, Cell.bytes (val.take valMax), deadline now ttlSec⟩

/-! ## Memory of a whole cache -/

theorem Owned.freeOpt {m : Mem} {o : Option EntryData} {A : Multiset Ptr}
    (h : Owned m (ptrsOf (one o) + A)) (hk : ∀ d ∈ one o, d.Kinds) :
    Owned (VoidCache.freeOpt o m) A ∧ Frame m (VoidCache.freeOpt o m) A := by
  cases o with
  | none =>
    rw [one_none, ptrsOf_zero, zero_add] at h
    exact ⟨h, Frame.refl _ _⟩
  | some d => exact Owned.release (by simpa using h) (hk d (by simp))

/-- Entries keep matching as long as the objects of the table are untouched. -/
theorem shardFind_frame {m m' : Mem} {s : Shard} (hs : s.Shape)
    (hf : Frame m m' (ptrsOf s.contents)) (now : Nat) (key : List UInt8) (keyLen : Nat)
    (hash : UInt64) : shardFind m' now s key keyLen hash = shardFind m now s key keyLen hash := by
  have hmatch : ∀ slot, slot < s.cap →
      slotMatches m' (s.table slot) key keyLen hash = slotMatches m (s.table slot) key keyLen hash := by
    intro slot hslot
    rw [Bool.eq_iff_iff, slotMatches_iff, slotMatches_iff]
    refine and_congr_right fun hl => ?_
    rw [hf.items (Shard.mem_contents.mpr ⟨slot, hslot, hl, rfl⟩)]
  have hloop : ∀ n slot, slot < s.cap →
      shardFindLoop m' now s key keyLen hash n slot = shardFindLoop m now s key keyLen hash n slot := by
    intro n
    induction n with
    | zero => exact fun _ _ => rfl
    | succ n ih =>
      intro slot hslot
      rw [shardFindLoop, shardFindLoop, hmatch slot hslot, ih _ (Cyclic.next_lt hs.cap_pow slot)]
  exact hloop _ _ (tableSlot_lt hs.cap_pow hash)

/-! ## Set -/

/-- A `vc_set` that returned `VC_OK`: the old item of the key and the clock's victim `ev`
leave, the new item comes, and `left` is dropped. -/
structure SetOk (c : Cache) (now : Nat) (key : List UInt8) (new : Item) (c' : Cache)
    (ev left : Option Item) (rest : Multiset Item) : Prop where
  valid : c'.Valid
  before : c.items = one (c.findItem now key) + (one ev + rest)
  after : c'.items + one left = new ::ₘ rest
  room : c.HasRoom now key → left = none
  trigger : (c.shards (homeShard key)).count = (c.shards (homeShard key)).liveCount → ev ≠ none →
    85 ≤ (c.shards (homeShard key)).liveCount * 100 / (c.shards (homeShard key)).cap
  others : ∀ j, j ≠ homeShard key → c'.shards j = c.shards j
  cap : (c'.shards (homeShard key)).cap = (c.shards (homeShard key)).cap
  evictions : (c'.shards (homeShard key)).evictions =
    if ev = none then (c.shards (homeShard key)).evictions
    else ((c.shards (homeShard key)).evictions + 1) % 2 ^ 64
  count : (c.shards (homeShard key)).count = (c.shards (homeShard key)).liveCount → left = none →
    (c'.shards (homeShard key)).count = (c'.shards (homeShard key)).liveCount

theorem freshEntry_valLen_le (now : Nat) (key val : List UInt8) (ttlSec : UInt32) :
    (freshEntry now key val ttlSec).valLen ≤ val.length := by
  unfold freshEntry
  dsimp only
  split_ifs <;> omega

theorem take_freshEntry_valLen (now : Nat) (key val : List UInt8) (ttlSec : UInt32) :
    val.take (freshEntry now key val ttlSec).valLen = val.take valMax := by
  unfold freshEntry
  dsimp only
  split_ifs with h
  · rfl
  · rw [List.take_length, List.take_of_length_le (by omega)]

/-- The new entry in the final memory. -/
theorem Built.names {m m1 m' : Mem} {A : Multiset Ptr} {ne : EntryData} (hpos : 0 < key.length)
    (hk : key.length < 2 ^ 32) (h : Built m m1 A (freshEntry now key val ttlSec) ne key val)
    (hf : itemOf m' ne = itemOf m1 ne) : Names m' ne key (val.take valMax) where
  item := by rw [hf, h.item, take_freshEntry_valLen, h.expireNs]
  keyLen := h.keyLen.trans (Nat.mod_eq_of_lt hk)
  valLen := by
    rw [h.valLen, ← take_freshEntry_valLen now key val ttlSec, List.length_take,
      Nat.min_eq_left (freshEntry_valLen_le now key val ttlSec)]
  keyHash := h.keyHash
  pos := hpos
  bound := hk

/-- Building, removing and evicting move ownership from the old entries to the new ones; `L`
are objects that no entry refers to any more. -/
theorem Owned.replace {m1 : Mem} {ne : EntryData} {old ev : Option EntryData}
    {R : Multiset EntryData} {L : Multiset Ptr} (hkinds : ∀ d ∈ one old + (one ev + R), d.Kinds)
    (h : Owned m1 (ne.ptrs + (L + ptrsOf (one old + (one ev + R))))) :
    Owned (VoidCache.freeOpt ev (VoidCache.freeOpt old m1)) (L + ptrsOf ({ne} + R)) ∧
      Frame m1 (VoidCache.freeOpt ev (VoidCache.freeOpt old m1)) (L + ptrsOf ({ne} + R)) := by
  have hown : Owned m1 (ptrsOf (one old) + (ptrsOf (one ev) + (L + ptrsOf ({ne} + R)))) := by
    convert h using 1
    simp only [ptrsOf_add, ptrsOf_singleton]
    ac_rfl
  obtain ⟨hown2, hframe2⟩ := hown.freeOpt fun d hd => hkinds d (by simp [hd])
  obtain ⟨hown3, hframe3⟩ := hown2.freeOpt fun d hd => hkinds d (by simp [hd])
  exact ⟨hown3, (hframe2.mono (Multiset.subset_of_le (Multiset.le_add_left _ _))).trans hframe3⟩

/-- Building the entry does not disturb the scan. -/
theorem Built.find_eq {m1 : Mem} {ne : EntryData} {Q : Multiset EntryData} (hv : c.Valid)
    (hQ : Beside c (homeShard key) Q)
    (h : Built c.mem m1 (ptrsOf c.contents) (freshEntry now key val ttlSec) ne key val) :
    shardFind m1 now (c.shards (homeShard key)) key ne.keyLen ne.keyHash = c.find now key := by
  have hkl : ne.keyLen = key.length % 2 ^ 32 := h.keyLen
  have hkh : ne.keyHash = wyhash64 key 0 := h.keyHash
  rw [hkl, hkh]
  refine shardFind_frame (hv.shape _) (h.frame.mono (ptrsOf_subset fun d hd => ?_)) _ _ _ _
  exact hQ.self ▸ Multiset.mem_add.mpr (Or.inl hd)

theorem LockedSet.trigger_liveCount {s s' : Shard} {m m' : Mem} {ne : EntryData}
    {ev left : Option EntryData} {rest : Multiset EntryData}
    (h : LockedSet s m now key ne s' m' ev left rest) (hcount : s.count = s.liveCount)
    (hev : ev ≠ none) : 85 ≤ s.liveCount * 100 / s.cap := by
  rw [← Shard.card_contents] at hcount ⊢
  refine (h.trigger hcount hev).trans ?_
  rw [h.before, Multiset.card_add (one (oldCopy _ _ _ _ _ _))]
  exact Nat.div_le_div_right (by omega)

theorem LockedSet.count_liveCount {s s' : Shard} {m m' : Mem} {ne : EntryData}
    {ev : Option EntryData} {rest : Multiset EntryData}
    (h : LockedSet s m now key ne s' m' ev none rest) (hcount : s.count = s.liveCount) :
    s'.count = s'.liveCount := by
  have ha := congrArg Multiset.card h.after
  rw [one_none, add_zero, Multiset.card_cons] at ha
  rw [h.count (hcount.trans (Shard.card_contents _).symm), ← Shard.card_contents, ← ha]
  exact Nat.mod_eq_of_lt h.shape.card_lt

theorem LockedSet.setOk {m1 : Mem} {ne : EntryData} {s' : Shard} {ev left : Option EntryData}
    {rest Q : Multiset EntryData} (hv : c.Valid) (hpos : 0 < key.length) (hk : key.length < 2 ^ 32)
    (hQ : Beside c (homeShard key) Q)
    (hb : Built c.mem m1 (ptrsOf c.contents) (freshEntry now key val ttlSec) ne key val)
    (h : LockedSet (c.shards (homeShard key)) m1 now key ne s' c'.mem ev left rest)
    (hs : c'.shards = Function.update c.shards (homeShard key) s') :
    SetOk c now key (newItem now key val ttlSec) c' (ev.map (itemOf c.mem))
      (left.map (itemOf c'.mem)) ((rest + Q).map (itemOf c.mem)) := by
  have hfind := hb.find_eq hv hQ
  have hroom : c.HasRoom now key →
      Room (c.shards (homeShard key)) m1 now key ne.keyLen ne.keyHash := by
    unfold Cache.HasRoom Room
    rw [hfind]
    exact id
  have hitem : (oldCopy (c.shards (homeShard key)) m1 now key ne.keyLen ne.keyHash).map
      (itemOf c.mem) = c.findItem now key := by
    rw [oldCopy, hfind, Option.map_map]
    rfl
  have hmem := h.mem
  have hbefore := h.before
  generalize oldCopy (c.shards (homeShard key)) m1 now key ne.keyLen ne.keyHash = old at *
  -- ownership moves from the old contents to the new ones
  have hc : c.contents = one old + (one ev + (rest + Q)) := by
    rw [hQ.self, hbefore]
    simp only [add_assoc]
  have hkinds := hv.kinds
  rw [hc] at hkinds
  obtain ⟨hown3, hframe13⟩ := Owned.replace (L := 0) hkinds (by
    rw [zero_add, ← hc]
    exact hb.owned)
  rw [← hmem, zero_add] at hown3 hframe13
  have hframe : Frame c.mem c'.mem (ptrsOf (rest + Q)) := by
    refine Frame.trans (hb.frame.mono (ptrsOf_subset fun d hd => ?_))
      (hframe13.mono (ptrsOf_subset fun d hd => Multiset.mem_add.mpr (Or.inr hd)))
    rw [hc]
    exact Multiset.mem_add.mpr (Or.inr (Multiset.mem_add.mpr (Or.inr hd)))
  have hne : itemOf c'.mem ne = itemOf m1 ne := hframe13.items (by simp)
  have hnames := hb.names hpos hk hne
  obtain ⟨hvalid, hi, hi'⟩ := hv.replace (one old + one ev) rest {ne} (one left) hQ hs h.shape
    (by rw [hbefore, add_assoc]) (by rw [h.after, Multiset.singleton_add]) hown3 hframe
    (fun d hd => by
      rw [Multiset.mem_singleton] at hd
      subst hd
      exact ⟨hb.kinds, key, _, hnames, rfl⟩)
  have hs' : c'.shards (homeShard key) = s' := by rw [hs, Function.update_self]
  exact {
    valid := hvalid
    before := by rw [hi, Multiset.map_add, map_one, map_one, hitem, add_assoc]
    after := by
      rw [map_one, Multiset.map_singleton, Multiset.singleton_add, hnames.item] at hi'
      rw [hi', newItem, hb.expireNs]
      rfl
    room := fun hr => by rw [h.room (hroom hr)]; rfl
    trigger := fun hcount hev => h.trigger_liveCount hcount (by simpa using hev)
    others := fun j hj => by rw [hs, Function.update_of_ne hj]
    cap := by rw [hs', h.cap]
    evictions := by
      rw [hs', h.evictions]
      simp
    count := fun hcount hleft => by
      rw [Option.map_eq_none_iff] at hleft
      subst hleft
      rw [hs']
      exact h.count_liveCount hcount }

/-- The two ways `vc_set` can go: the entry is built and stored, or an allocation fails. -/
theorem vcSetStore_cases {A : Multiset Ptr} (h : Owned c.mem A) (hk : key.length < 2 ^ 32)
    (now : Nat) (env : Env) (val : List UInt8) (ttlSec : UInt32) :
    (∃ ne m1 total, buildEntry env c.mem c.totalMemory (freshEntry now key val ttlSec) key val =
        (some ne, m1, total) ∧ shardIdx ne.keyHash = homeShard key ∧
      Built c.mem m1 A (freshEntry now key val ttlSec) ne key val ∧
      vcSetStore c now env key val ttlSec =
        (.ok (),
          { (c.setShard (homeShard key) (lockedSet (c.shards (homeShard key)) m1 now key ne).1) with
            mem := (lockedSet (c.shards (homeShard key)) m1 now key ne).2, totalMemory := total })) ∨
    (∃ m1, buildEntry env c.mem c.totalMemory (freshEntry now key val ttlSec) key val =
        (none, m1, c.totalMemory) ∧ Owned m1 A ∧ Frame c.mem m1 A ∧
      vcSetStore c now env key val ttlSec = (.error .oom, { c with mem := m1 })) := by
  unfold vcSetStore
  rcases buildEntry_outcome env h c.totalMemory
    (Nat.mod_eq_of_lt hk : (freshEntry now key val ttlSec).keyLen = key.length)
    (freshEntry_valLen_le now key val ttlSec) with
    ⟨ne, m1, total, hb, hbuilt⟩ | ⟨m1, hb, hown, hframe⟩
  · have hsi : shardIdx ne.keyHash = homeShard key := by
      rw [hbuilt.keyHash]
      rfl
    rw [hb]
    dsimp only
    rw [hsi]
    exact Or.inl ⟨ne, m1, total, rfl, hsi, hbuilt, rfl⟩
  · rw [hb]
    exact Or.inr ⟨m1, rfl, hown, hframe, rfl⟩

theorem vcSetStore_outcome (hv : c.Valid) (hpos : 0 < key.length) (hk : key.length < 2 ^ 32)
    (now : Nat) (env : Env) (val : List UInt8) (ttlSec : UInt32) :
    (∃ ev left rest, (vcSetStore c now env key val ttlSec).1 = .ok () ∧
      SetOk c now key (newItem now key val ttlSec) (vcSetStore c now env key val ttlSec).2
        ev left rest) ∨
    ((vcSetStore c now env key val ttlSec).1 = .error .oom ∧
      (vcSetStore c now env key val ttlSec).2.Valid ∧
      (vcSetStore c now env key val ttlSec).2.items = c.items ∧
      (vcSetStore c now env key val ttlSec).2.shards = c.shards) := by
  obtain ⟨Q, hQ⟩ : ∃ Q, Beside c (homeShard key) Q := exists_beside c (shardIdx_lt _)
  rcases vcSetStore_cases hv.owned hk now env val ttlSec with
    ⟨ne, m1, total, _, _, hbuilt, hset⟩ | ⟨m1, _, hown, hframe, hset⟩
  · rw [hset]
    obtain ⟨rest, ho⟩ := lockedSet_outcome (hv.shape (homeShard key)) m1 now key ne
    exact Or.inl ⟨_, _, _, rfl, LockedSet.setOk hv hpos hk hQ hbuilt ho rfl⟩
  · rw [hset]
    obtain ⟨hvalid, hitems⟩ := hv.frame { c with mem := m1 } rfl hown hframe
    exact Or.inr ⟨rfl, hvalid, hitems, rfl⟩

/-! ## Get -/

/-- Both paths of `vc_get` answer from the same scan. -/
theorem vcGet_eq (c : Cache) (now : Nat) (key : List UInt8) :
    vcGet c now key =
      match c.find now key with
      | none => (.error .notFnd, c.setShard (homeShard key) (c.shards (homeShard key)).miss)
      | some slot =>
        let e := (c.shards (homeShard key)).table slot
        (.ok (entryVal (homeShard key) slot e.toEntryData, e.valLen),
          c.setShard (homeShard key) ((c.shards (homeShard key)).hit slot)) := by
  unfold vcGet Cache.find homeShard
  cases hf : shardFind c.mem now (c.shards (shardIdx (wyhash64 key 0))) key (key.length % 2 ^ 32)
    (wyhash64 key 0) with
  | none => simp only [hf]
  | some slot =>
    simp only [hf]
    split_ifs <;> rfl

/-- The address of an entry's value leads to what the entry means. -/
theorem readLoc_entryVal (c : Cache) (si slot : Nat) :
    let d := ((c.shards si).table slot).toEntryData
    c.readLoc (entryVal si slot d) d.valLen = (itemOf c.mem d).val := by
  unfold Cache.readLoc entryVal itemOf
  dsimp only
  split_ifs <;> rfl

/-- `c'` holds what `c` holds, slot by slot. -/
structure Touched (c c' : Cache) : Prop where
  mem : c'.mem = c.mem
  same : ∀ si, SameEntries (c.shards si) (c'.shards si)

namespace Touched

theorem contents (h : Touched c c') : c'.contents = c.contents :=
  slotSum.congr fun si _ => (h.same si).contents

theorem valid (h : Touched c c') (hv : c.Valid) : c'.Valid := by
  refine ⟨fun si => (h.same si).shape (hv.shape si), ?_, ?_, fun si hsi d hd => ?_⟩
  · rw [h.mem, h.contents]
    exact hv.owned
  · rw [h.contents]
    exact hv.kinds
  · rw [(h.same si).contents] at hd
    rw [h.mem]
    exact hv.named si hsi d hd

theorem items (h : Touched c c') : c'.items = c.items := by
  rw [Cache.items, h.mem, h.contents, Cache.items]

theorem setShard {si : Nat} {s' : Shard} (h : SameEntries (c.shards si) s') :
    Touched c (c.setShard si s') := by
  refine ⟨rfl, fun j => ?_⟩
  by_cases hj : j = si
  · subst hj
    simpa [Cache.setShard] using h
  · simpa [Cache.setShard, hj] using SameEntries.refl _

end Touched

theorem vcGet_touched (c : Cache) (now : Nat) (key : List UInt8) :
    Touched c (vcGet c now key).2 := by
  rw [vcGet_eq]
  cases c.find now key with
  | none => exact Touched.setShard ⟨fun _ => rfl, fun _ => rfl, rfl, rfl, rfl⟩
  | some slot =>
    have h := (Swept.setClock (c.shards (homeShard key)) slot true).same
    exact Touched.setShard ⟨h.state, h.data, h.cap, h.count, h.evictions⟩

theorem Touched.readLoc (h : Touched c c') (loc : Loc) (len : Nat) :
    c'.readLoc loc len = c.readLoc loc len := by
  unfold Cache.readLoc
  cases loc with
  | payload si slot off =>
    have := (h.same si).data slot
    dsimp only
    rw [this]
  | obj p => rw [h.mem]

/-- A hit hands out the value of an item with that key which has not expired. -/
theorem vcGet_ok (hv : c.Valid) (hk : key.length < 2 ^ 32) {loc : Loc} {len : Nat}
    (h : (vcGet c now key).1 = .ok (loc, len)) :
    ∃ i val, c.findItem now key = some i ∧ i ∈ c.items ∧ i.key = Cell.bytes key ∧
      i.val = Cell.bytes val ∧ i.expired now = false ∧ len = val.length ∧
      c.readLoc loc len = Cell.bytes val := by
  rw [vcGet_eq] at h
  cases hf : c.find now key with
  | none => simp [hf] at h
  | some slot =>
    obtain ⟨_, _, hd, ⟨val, hn⟩, hx⟩ := hv.find_some hk hf
    rw [hf] at h
    simp only [Except.ok.injEq, Prod.mk.injEq] at h
    obtain ⟨rfl, rfl⟩ := h
    refine ⟨_, val, by rw [Cache.findItem, hf]; rfl,
      Cache.Valid.mem_items.mpr ⟨_, Cache.Valid.mem_contents.mpr ⟨_, shardIdx_lt _, hd⟩, rfl⟩,
      by rw [hn.item], by rw [hn.item], hx, hn.valLen, ?_⟩
    rw [readLoc_entryVal, hn.item]

/-! ## Delete -/

/-- A `vc_del` that returned `VC_OK`: exactly the item the scan found is gone. -/
structure DelOk (c : Cache) (now : Nat) (key : List UInt8) (c' : Cache) (i : Item) : Prop where
  valid : c'.Valid
  found : c.findItem now key = some i
  items : c.items = i ::ₘ c'.items
  others : ∀ j, j ≠ homeShard key → c'.shards j = c.shards j
  cap : (c'.shards (homeShard key)).cap = (c.shards (homeShard key)).cap
  evictions : (c'.shards (homeShard key)).evictions = (c.shards (homeShard key)).evictions
  count : (c.shards (homeShard key)).count = (c.shards (homeShard key)).liveCount →
    (c'.shards (homeShard key)).count = (c'.shards (homeShard key)).liveCount

theorem vcDelStore_eq (c : Cache) (now : Nat) (key : List UInt8) :
    vcDelStore c now key =
      match c.find now key with
      | none => (.error .notFnd, c)
      | some slot =>
        let r := killSlot (c.shards (homeShard key)) c.mem slot
        (.ok (), { (c.setShard (homeShard key) r.1) with mem := r.2 }) := rfl

theorem Takes.delOk {slot : Nat} {s' : Shard} (hv : c.Valid) (hf : c.find now key = some slot)
    (h : Takes (c.shards (homeShard key)) c.mem s' c'.mem
      (some ((c.shards (homeShard key)).table slot).toEntryData))
    (hs : c'.shards = Function.update c.shards (homeShard key) s')
    (hev : s'.evictions = (c.shards (homeShard key)).evictions) :
    DelOk c now key c' (itemOf c.mem ((c.shards (homeShard key)).table slot).toEntryData) := by
  have hfound : c.findItem now key =
      some (itemOf c.mem ((c.shards (homeShard key)).table slot).toEntryData) := by
    rw [Cache.findItem, hf]
    rfl
  generalize ((c.shards (homeShard key)).table slot).toEntryData = d at h hfound ⊢
  obtain ⟨Q, hQ⟩ : ∃ Q, Beside c (homeShard key) Q := exists_beside c (shardIdx_lt _)
  have hc : c.contents = one (some d) + (s'.contents + Q) := by
    rw [hQ.self, h.contents, add_assoc]
  have hown := hv.owned
  rw [hc, ptrsOf_add] at hown
  obtain ⟨hown', hframe⟩ := hown.freeOpt fun e he => hv.kinds e (by
    rw [hc]
    exact Multiset.mem_add.mpr (Or.inl he))
  rw [← h.mem] at hown' hframe
  obtain ⟨hvalid, hi, hi'⟩ := hv.replace (one (some d)) s'.contents 0 0 hQ hs h.shape
    h.contents (by rw [add_zero, zero_add]) (by rw [zero_add]; exact hown') hframe (by simp)
  rw [Multiset.map_zero, add_zero, zero_add] at hi'
  have hs' : c'.shards (homeShard key) = s' := by rw [hs, Function.update_self]
  exact {
    valid := hvalid
    found := hfound
    items := by rw [hi, hi', one_some, Multiset.map_singleton, Multiset.singleton_add]
    others := fun j hj => by rw [hs, Function.update_of_ne hj]
    cap := by rw [hs', h.cap]
    evictions := by rw [hs', hev]
    count := fun hcount => by
      rw [hs', ← Shard.card_contents]
      exact h.count (hcount.trans (Shard.card_contents _).symm) }

theorem vcDelStore_outcome (hv : c.Valid) (now : Nat) (key : List UInt8) :
    (∃ i, (vcDelStore c now key).1 = .ok () ∧ DelOk c now key (vcDelStore c now key).2 i) ∨
    (c.find now key = none ∧ vcDelStore c now key = (.error .notFnd, c)) := by
  rw [vcDelStore_eq]
  cases hf : c.find now key with
  | none => exact Or.inr ⟨rfl, rfl⟩
  | some slot =>
    obtain ⟨hlt, hm, _⟩ := shardFind_sound (hv.shape _) hf
    have h := Takes.kill (hv.shape (homeShard key)) c.mem hlt (slotMatches_iff.mp hm).1
    exact Or.inl ⟨_, rfl, h.delOk hv hf rfl rfl⟩

/-! ## Flush -/

/-- Some live entries `gone` of `s` have been freed and buried, with no change to `count`. -/
structure Buried (s : Shard) (m : Mem) (s' : Shard) (m' : Mem) (gone : Multiset EntryData) :
    Prop where
  contents : s.contents = gone + s'.contents
  shape : s'.Shape
  cap : s'.cap = s.cap
  evictions : s'.evictions = s.evictions
  mem : ∀ A, (∀ d ∈ gone, d.Kinds) → Owned m (ptrsOf gone + A) → Owned m' A ∧ Frame m m' A

theorem Buried.refl {s : Shard} (hs : s.Shape) (m : Mem) : Buried s m s m 0 where
  contents := (zero_add _).symm
  shape := hs
  cap := rfl
  evictions := rfl
  mem A _ h := by
    rw [ptrsOf_zero, zero_add] at h
    exact ⟨h, Frame.refl _ _⟩

theorem Buried.cons {s s' : Shard} {m m' : Mem} {gone : Multiset EntryData} {j : Nat}
    (hj : j < s.cap) (hl : (s.table j).state = .live)
    (h : Buried (s.bury j) (entryFreeResources (s.table j).toEntryData m) s' m' gone) :
    Buried s m s' m' ((s.table j).toEntryData ::ₘ gone) where
  contents := by rw [bury_contents hj hl, Multiset.cons_add, ← h.contents]
  shape := h.shape
  cap := h.cap
  evictions := h.evictions
  mem A hk hown := by
    rw [ptrsOf_cons, add_assoc] at hown
    obtain ⟨hown1, hframe1⟩ := hown.release (hk _ (by simp))
    obtain ⟨hown2, hframe2⟩ := h.mem A (fun d hd => hk d (by simp [hd])) hown1
    exact ⟨hown2, (hframe1.mono (Multiset.subset_of_le (Multiset.le_add_left _ _))).trans hframe2⟩

theorem flushSlots_of_live {s : Shard} {j : Nat} (hl : (s.table j).state = .live) (n : Nat) (m : Mem) :
    flushSlots (n + 1) j s m =
      flushSlots n (j + 1) (s.bury j) (entryFreeResources (s.table j).toEntryData m) := by
  rw [flushSlots, if_pos hl]
  rfl

theorem flushSlots_of_not_live {s : Shard} {j : Nat} (hl : (s.table j).state ≠ .live) (n : Nat) (m : Mem) :
    flushSlots (n + 1) j s m = flushSlots n (j + 1) s m := by
  rw [flushSlots, if_neg hl]

/-- The loop of `vc_flush` over the slots of one shard. -/
theorem flushSlots_buried (n : Nat) : ∀ (j : Nat) (s : Shard) (m : Mem), s.Shape → j + n ≤ s.cap →
    (∃ gone, Buried s m (flushSlots n j s m).1 (flushSlots n j s m).2 gone) ∧
      ∀ i, (j ≤ i → i < j + n → ((flushSlots n j s m).1.table i).state ≠ .live) ∧
        ((s.table i).state ≠ .live → ((flushSlots n j s m).1.table i).state ≠ .live) := by
  induction n with
  | zero =>
    intro j s m hs _
    exact ⟨⟨0, Buried.refl hs m⟩, fun i => ⟨by omega, id⟩⟩
  | succ n ih =>
    intro j s m hs hj
    by_cases hl : (s.table j).state = .live
    · rw [flushSlots_of_live hl]
      obtain ⟨⟨gone, hb⟩, hdead⟩ := ih (j + 1) (s.bury j)
        (entryFreeResources (s.table j).toEntryData m) (hs.bury j) (by
          show j + 1 + n ≤ s.cap
          omega)
      have hj' : ((s.bury j).table j).state ≠ .live := by simp [Shard.bury, Shard.setSlot]
      refine ⟨⟨_, hb.cons (by omega) hl⟩, fun i => ⟨fun h1 h2 => ?_, fun hi => ?_⟩⟩
      · rcases Nat.eq_or_lt_of_le h1 with rfl | h1
        · exact (hdead j).2 hj'
        · exact (hdead i).1 h1 (by omega)
      · refine (hdead i).2 ?_
        by_cases hij : i = j
        · rw [hij]
          exact hj'
        · simpa [Shard.bury, Shard.setSlot, hij] using hi
    · rw [flushSlots_of_not_live hl]
      obtain ⟨hb, hdead⟩ := ih (j + 1) s m hs (by omega)
      refine ⟨hb, fun i => ⟨fun h1 h2 => ?_, (hdead i).2⟩⟩
      rcases Nat.eq_or_lt_of_le h1 with rfl | h1
      · exact (hdead j).2 hl
      · exact (hdead i).1 h1 (by omega)

/-- An emptied shard. -/
structure Emptied (s s' : Shard) : Prop where
  contents : s'.contents = 0
  count : s'.count = 0
  cap : s'.cap = s.cap
  evictions : s'.evictions = s.evictions

theorem contents_eq_zero {s : Shard} (h : ∀ i, i < s.cap → (s.table i).state ≠ .live) :
    s.contents = 0 := by
  refine Multiset.eq_zero_of_forall_notMem fun d hd => ?_
  obtain ⟨i, hi, hl, _⟩ := Shard.mem_contents.mp hd
  exact h i hi hl

theorem flushShard_buried {s : Shard} (hs : s.Shape) (m : Mem) :
    Emptied s (flushShard s m).1 ∧
      ∃ gone, Buried s m (flushShard s m).1 (flushShard s m).2 gone := by
  obtain ⟨⟨gone, hb⟩, hdead⟩ := flushSlots_buried s.cap 0 s m hs (by omega)
  have hcap : (flushShard s m).1.cap = s.cap := hb.cap
  have hzero : (flushShard s m).1.contents = 0 := contents_eq_zero fun i hi =>
    (hdead i).1 (Nat.zero_le i) (by rw [hcap] at hi; omega)
  have hc : (flushShard s m).1.contents = (flushSlots s.cap 0 s m).1.contents :=
    contents_congr rfl rfl
  exact ⟨⟨hzero, rfl, hcap, hb.evictions⟩, gone, hc ▸ hb.contents, hb.shape.congr rfl rfl, hb.cap,
    hb.evictions, hb.mem⟩

/-- One shard of a valid cache is emptied. -/
theorem Cache.Valid.emptied {s' : Shard} {gone : Multiset EntryData} {si : Nat} (hv : c.Valid)
    (hsi : si < numShards) (hs : c'.shards = Function.update c.shards si s')
    (he : Emptied (c.shards si) s') (h : Buried (c.shards si) c.mem s' c'.mem gone) : c'.Valid := by
  obtain ⟨Q, hQ⟩ := exists_beside c hsi
  have hc : (c.shards si).contents = gone + 0 := by rw [h.contents, he.contents]
  have hown := hv.owned
  rw [hQ.self, hc, add_zero, ptrsOf_add] at hown
  obtain ⟨hown', hframe⟩ := h.mem _ (fun d hd => hv.kinds d (by
    rw [hQ.self, hc]
    simp [hd])) hown
  exact (hv.replace gone 0 0 0 hQ hs h.shape hc
    (by rw [he.contents]) (by simpa using hown') (by simpa using hframe) (by simp)).1

theorem flushShards_spec (n : Nat) : ∀ (i : Nat) (c : Cache), c.Valid → i + n ≤ numShards →
    (flushShards n i c).Valid ∧
      (∀ si, i ≤ si → si < i + n → Emptied (c.shards si) ((flushShards n i c).shards si)) ∧
      (∀ si, si < i → (flushShards n i c).shards si = c.shards si) := by
  induction n with
  | zero => exact fun i c hv _ => ⟨hv, by omega, fun _ _ => rfl⟩
  | succ n ih =>
    intro i c hv hi
    obtain ⟨he, gone, hb⟩ := flushShard_buried (hv.shape i) c.mem
    rw [flushShards]
    generalize flushShard (c.shards i) c.mem = r at he hb ⊢
    dsimp only
    obtain ⟨hvalid, hflush, hkeep⟩ := ih (i + 1) { (c.setShard i r.1) with mem := r.2 }
      (hv.emptied (by omega) rfl he hb) (by omega)
    refine ⟨hvalid, fun si h1 h2 => ?_, fun si h => ?_⟩
    · rcases Nat.eq_or_lt_of_le h1 with rfl | h1
      · rw [hkeep i (by omega)]
        simpa [Cache.setShard] using he
      · have := hflush si h1 (by omega)
        rwa [show ({ (c.setShard i r.1) with mem := r.2 } : Cache).shards si = c.shards si from
          Function.update_of_ne (by omega) _ _] at this
    · rw [hkeep si (by omega)]
      exact Function.update_of_ne (by omega) _ _

theorem vcFlush_outcome (hv : c.Valid) :
    (vcFlush c).Valid ∧ (vcFlush c).items = 0 ∧
      ∀ si, si < numShards → Emptied (c.shards si) ((vcFlush c).shards si) := by
  obtain ⟨hvalid, hflush, _⟩ := flushShards_spec numShards 0 c hv (by omega)
  refine ⟨hvalid, ?_, fun si hsi => hflush si (Nat.zero_le _) (by omega)⟩
  refine Multiset.eq_zero_of_forall_notMem fun i hi => ?_
  obtain ⟨d, hd, _⟩ := Cache.Valid.mem_items.mp hi
  obtain ⟨si, hsi, hd⟩ := Cache.Valid.mem_contents.mp hd
  have := (hflush si (Nat.zero_le _) (by omega)).contents
  unfold vcFlush at hd
  rw [this] at hd
  exact Multiset.notMem_zero d hd

end VoidCache
