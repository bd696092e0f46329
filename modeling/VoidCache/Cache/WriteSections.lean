import VoidCache.Shard.FastPath
import VoidCache.Cache.Build

/-!
# The write sections, store by store

What `vc_set`, `vc_del` and `vc_flush` do between the two increments of the sequence number is
a list of stores to single fields. Run one after the other, the stores of a section have the
effect of the call.
-/
namespace VoidCache

open Seqlock (applyAll applyAll_append)

/-- A store to one field of a slot; a payload is stored cell by cell. -/
inductive SlotWrite where
  | state (st : SlotState)
  | flags (f : UInt8)
  | valLen (n : Nat)
  | keyLen (n : Nat)
  | keyHash (h : UInt64)
  | expireNs (t : Int)
  | clockBit (b : Bool)
  | probeDist (n : Nat)
  | payload (j : Nat) (c : Cell Ptr)

def SlotWrite.apply : SlotWrite → Entry → Entry
  | .state st, e => { e with state := st }
  | .flags f, e => { e with flags := f }
  | .valLen n, e => { e with valLen := n }
  | .keyLen n, e => { e with keyLen := n }
  | .keyHash h, e => { e with keyHash := h }
  | .expireNs t, e => { e with expireNs := t }
  | .clockBit b, e => { e with clockBit := b }
  | .probeDist n, e => { e with probeDist := n }
  | .payload j c, e => { e with payload := e.payload.set j c }

theorem SlotWrite.length_payload (w : SlotWrite) (e : Entry) :
    (w.apply e).payload.length = e.payload.length := by
  cases w <;> simp [SlotWrite.apply]

/-- A store to a slot or to a counter of the shard, or a call that changes the memory outside
the table. -/
inductive Write where
  | slot (i : Nat) (w : SlotWrite)
  | count (n : Nat)
  | clockHand (n : Nat)
  | hits (n : Nat)
  | misses (n : Nat)
  | sets (n : Nat)
  | evictions (n : Nat)
  | mem (m : Mem)

def Write.apply : Write → TableMem → TableMem
  | .slot i w, d =>
    { d with
      shard := d.shard.setSlot i (w.apply (d.entry i))
      size := fun k => by
        simp only [Shard.setSlot, Function.update_apply]
        split_ifs
        exacts [(w.length_payload _).trans (d.size i), d.size k] }
  | .count n, d => { d with shard := { d.shard with count := n } }
  | .clockHand n, d => { d with shard := { d.shard with clockHand := n } }
  | .hits n, d => { d with shard := { d.shard with hits := n } }
  | .misses n, d => { d with shard := { d.shard with misses := n } }
  | .sets n, d => { d with shard := { d.shard with sets := n } }
  | .evictions n, d => { d with shard := { d.shard with evictions := n } }
  | .mem m, d => { d with mem := m }

/-- From `d` the stores `ws` lead to the table `s` and the memory `m`. -/
def LeadsTo (ws : List Write) (d : TableMem) (s : Shard) (m : Mem) : Prop :=
  (applyAll Write.apply ws d).shard = s ∧ (applyAll Write.apply ws d).mem = m

namespace LeadsTo

variable {ws ws' : List Write} {d : TableMem} {s s' : Shard} {m m' : Mem}

theorem nil (d : TableMem) : LeadsTo [] d d.shard d.mem := ⟨rfl, rfl⟩

theorem cons {w : Write} (h : LeadsTo ws (w.apply d) s m) : LeadsTo (w :: ws) d s m := h

theorem append (h : LeadsTo ws d s m)
    (h' : ∀ d', d'.shard = s → d'.mem = m → LeadsTo ws' d' s' m') : LeadsTo (ws ++ ws') d s' m' := by
  unfold LeadsTo
  rw [applyAll_append]
  exact h' _ h.1 h.2

/-- Stores to one slot. -/
theorem slot (i : Nat) (ws : List SlotWrite) : ∀ d : TableMem, LeadsTo (ws.map (.slot i)) d
    (d.shard.setSlot i (applyAll SlotWrite.apply ws (d.entry i))) d.mem := by
  induction ws with
  | nil => exact fun d => ⟨by simp [applyAll, Shard.setSlot, TableMem.entry], rfl⟩
  | cons w ws ih =>
    intro d
    obtain ⟨hs, hm⟩ := ih ((Write.slot i w).apply d)
    refine cons ⟨hs.trans ?_, hm⟩
    simp [applyAll, Write.apply, Shard.setSlot, TableMem.entry]

end LeadsTo

/-! ## Storing an entry -/

/-- `memcpy` into the payload from offset `j` on. -/
def copyCells : Nat → Cells → List SlotWrite
  | _, [] => []
  | j, c :: cs => .payload j c :: copyCells (j + 1) cs

theorem applyAll_copyCells (cs : Cells) : ∀ (j : Nat) (e : Entry), j + cs.length ≤ e.payload.length →
    applyAll SlotWrite.apply (copyCells j cs) e =
      { e with payload := blit e.payload j cs } := by
  induction cs with
  | nil => intro j e _; simp [applyAll, copyCells, blit]
  | cons c cs ih =>
    intro j e hj
    rw [List.length_cons] at hj
    rw [blit_cons (by omega)]
    exact ih (j + 1) _ (by simp [SlotWrite.apply]; omega)

/-- The stores of `_shard_insert` into the slot it has chosen; `marks` are those to the clock
bit and the probe distance, whose order differs between the two places. -/
def Incoming.stores (incoming : Incoming) (marks : List SlotWrite) : List SlotWrite :=
  [.state .busy, .flags incoming.flags, .valLen incoming.valLen, .keyLen incoming.keyLen,
    .keyHash incoming.keyHash, .expireNs incoming.expireNs] ++ marks ++
    copyCells 0 incoming.payload ++ [.state .live]

/-- Into an empty or dead slot. -/
def Incoming.fillStores (incoming : Incoming) : List SlotWrite :=
  incoming.stores [.clockBit true, .probeDist incoming.probeDist]

/-- Over an entry that is carried on. -/
def Incoming.swapStores (incoming : Incoming) : List SlotWrite :=
  incoming.stores [.probeDist incoming.probeDist, .clockBit true]

theorem Incoming.applyAll_stores {incoming : Incoming} {e : Entry}
    (h : incoming.payload.length = e.payload.length) {marks : List SlotWrite}
    (hm : ∀ e : Entry, applyAll SlotWrite.apply marks e =
      { e with clockBit := true, probeDist := incoming.probeDist }) :
    applyAll SlotWrite.apply (incoming.stores marks) e = incoming.placed := by
  rw [stores, applyAll_append, applyAll_append, applyAll_append, hm,
    applyAll_copyCells _ _ _ (by simp [h, applyAll, SlotWrite.apply])]
  simp only [applyAll, SlotWrite.apply, List.foldl_cons, List.foldl_nil, blit_all h]
  rfl

theorem Incoming.stores_leadsTo {incoming : Incoming} {d : TableMem} (slot : Nat)
    (h : incoming.payload.length = payloadSize) {marks : List SlotWrite}
    (hm : ∀ e : Entry, applyAll SlotWrite.apply marks e =
      { e with clockBit := true, probeDist := incoming.probeDist }) :
    LeadsTo ((incoming.stores marks).map (.slot slot)) d (d.shard.setSlot slot incoming.placed)
      d.mem := by
  have hall : applyAll SlotWrite.apply (incoming.stores marks) (d.entry slot) = incoming.placed :=
    applyAll_stores (h.trans (d.size slot).symm) hm
  exact hall ▸ LeadsTo.slot slot (incoming.stores marks) d

/-! ## Robin Hood insertion -/

def insertScript (cap : Nat) : Nat → Nat → (Nat → Entry) → Incoming → List Write
  | 0, _, _, _ => []
  | n + 1, slot, t, incoming =>
    let e := t slot
    if e.state = .empty ∨ e.state = .dead then incoming.fillStores.map (.slot slot)
    else if e.state = .live ∧ e.probeDist < incoming.probeDist then
      incoming.swapStores.map (.slot slot) ++
        insertScript cap n (Cyclic.next cap slot) (Function.update t slot incoming.placed)
          { toEntryData := e.toEntryData, probeDist := (e.probeDist + 1) % 256 }
    else
      insertScript cap n (Cyclic.next cap slot) t
        { incoming with probeDist := (incoming.probeDist + 1) % 256 }

theorem insertScript_leadsTo (cap n : Nat) : ∀ (slot : Nat) (d : TableMem) (incoming : Incoming),
    incoming.payload.length = payloadSize →
    LeadsTo (insertScript cap n slot d.shard.table incoming) d
      { d.shard with table := (shardInsertLoop cap n slot d.shard.table incoming).1 } d.mem := by
  induction n with
  | zero => exact fun _ d _ _ => LeadsTo.nil d
  | succ n ih =>
    intro slot d incoming hin
    unfold insertScript shardInsertLoop
    dsimp only
    split_ifs with hfree hrich
    · exact Incoming.stores_leadsTo slot hin fun _ => rfl
    · refine (Incoming.stores_leadsTo slot hin fun _ => rfl).append fun d' hs hm => ?_
      have hrest := ih (Cyclic.next cap slot) d'
        { toEntryData := (d.shard.table slot).toEntryData,
          probeDist := ((d.shard.table slot).probeDist + 1) % 256 } (d.size slot)
      rw [hs, hm] at hrest
      exact hrest
    · exact ih _ d _ hin

/-! ## Removing entries -/

/-- The stores of `vc_set` and `vc_del` that remove the entry in `slot`. -/
def killScript (s : Shard) (m : Mem) (slot : Nat) : List Write :=
  [.mem (entryFreeResources (s.table slot).toEntryData m), .slot slot (.state .dead),
    .count s.decCount.count]

theorem killScript_leadsTo (d : TableMem) (slot : Nat) :
    LeadsTo (killScript d.shard d.mem slot) d (killSlot d.shard d.mem slot).1
      (killSlot d.shard d.mem slot).2 := ⟨rfl, rfl⟩

/-- One sweep of the clock. -/
def evictScript (m : Mem) : Nat → Nat → Shard → List Write
  | 0, _, _ => []
  | n + 1, hand, s =>
    let h := Cyclic.next s.cap hand
    let e := s.table h
    if e.state ≠ .live then evictScript m n h s
    else if e.clockBit then
      .slot h (.clockBit false) :: evictScript m n h (s.setSlot h { e with clockBit := false })
    else
      .slot h (.state .busy) :: killScript s m h ++
        [.evictions ((s.evictions + 1) % 2 ^ 64), .clockHand h]

theorem evictScript_leadsTo (n : Nat) : ∀ (hand : Nat) (d : TableMem),
    LeadsTo (evictScript d.mem n hand d.shard) d (shardEvictLoop d.mem n hand d.shard).2.1
      (shardEvictLoop d.mem n hand d.shard).2.2 := by
  induction n with
  | zero => exact fun _ d => LeadsTo.nil d
  | succ n ih =>
    intro hand d
    unfold evictScript shardEvictLoop
    dsimp only
    split_ifs with hlive hbit
    · exact ih _ d
    · exact LeadsTo.cons (ih _ ((Write.slot _ (.clockBit false)).apply d))
    · refine ⟨?_, rfl⟩
      simp [applyAll, Write.apply, SlotWrite.apply, killScript, killSlot, Shard.setSlot,
        Shard.decCount, TableMem.entry]

/-- Tombstones for the live slots among `j, …, j + n - 1`. -/
def flushScript : Nat → Nat → Shard → Mem → List Write
  | 0, _, _, _ => []
  | n + 1, j, s, m =>
    let e := s.table j
    if e.state = .live then
      .mem (entryFreeResources e.toEntryData m) :: .slot j (.state .dead) ::
        flushScript n (j + 1) (s.setSlot j { e with state := .dead })
          (entryFreeResources e.toEntryData m)
    else flushScript n (j + 1) s m

theorem flushScript_leadsTo (n : Nat) : ∀ (j : Nat) (d : TableMem),
    LeadsTo (flushScript n j d.shard d.mem) d (flushSlots n j d.shard d.mem).1
      (flushSlots n j d.shard d.mem).2 := by
  induction n with
  | zero => exact fun _ d => LeadsTo.nil d
  | succ n ih =>
    intro j d
    unfold flushScript flushSlots
    dsimp only
    split_ifs with hlive
    · exact LeadsTo.cons (LeadsTo.cons (ih (j + 1) ((Write.slot j (.state .dead)).apply
        ((Write.mem (entryFreeResources (d.shard.table j).toEntryData d.mem)).apply d))))
    · exact ih _ d

/-! ## The three sections -/

def removeScript (s : Shard) (m : Mem) (now : Nat) (key : List UInt8) (keyLen : Nat)
    (hash : UInt64) : List Write :=
  match shardFind m now s key keyLen hash with
  | some slot => killScript s m slot
  | none => []

theorem removeScript_leadsTo (d : TableMem) (now : Nat) (key : List UInt8) (keyLen : Nat)
    (hash : UInt64) : ∀ {r : Shard × Mem},
    (match shardFind d.mem now d.shard key keyLen hash with
      | some slot => killSlot d.shard d.mem slot
      | none => (d.shard, d.mem)) = r →
    LeadsTo (removeScript d.shard d.mem now key keyLen hash) d r.1 r.2 := by
  rintro r rfl
  unfold removeScript
  split
  exacts [killScript_leadsTo d _, LeadsTo.nil d]

def evictIfFullScript (s : Shard) (m : Mem) : List Write :=
  if evictTrigger s then evictScript m s.cap s.clockHand s else []

theorem evictIfFullScript_leadsTo (d : TableMem) :
    LeadsTo (evictIfFullScript d.shard d.mem) d (evictIfFull d.shard d.mem).1
      (evictIfFull d.shard d.mem).2 := by
  unfold evictIfFullScript evictIfFull
  split_ifs
  exacts [evictScript_leadsTo _ _ d, LeadsTo.nil d]

/-- Insertion and the counters after it. -/
def storeScript (s : Shard) (ne : EntryData) : List Write :=
  insertScript s.cap s.cap (tableSlot ne.keyHash s.cap) s.table
      { toEntryData := ne, probeDist := 0 } ++
    [.count (shardInsert s ne).incCount.count, .sets ((s.sets + 1) % 2 ^ 64)]

theorem storeScript_leadsTo (d : TableMem) {ne : EntryData}
    (hne : ne.payload.length = payloadSize) :
    LeadsTo (storeScript d.shard ne) d
      { (shardInsert d.shard ne).incCount with sets := (d.shard.sets + 1) % 2 ^ 64 } d.mem := by
  refine (insertScript_leadsTo d.shard.cap d.shard.cap _ d
    { toEntryData := ne, probeDist := 0 } hne).append fun d' hs hm => ⟨?_, hm⟩
  simp [applyAll, Write.apply, hs, shardInsert, Shard.incCount]

/-- The section of `vc_set`. -/
def setSection (s : Shard) (m : Mem) (now : Nat) (key : List UInt8) (ne : EntryData) : List Write :=
  let r := removeOld s m now key ne
  removeScript s m now key ne.keyLen ne.keyHash ++ evictIfFullScript r.1 r.2 ++
    storeScript (evictIfFull r.1 r.2).1 ne

/-- The section of `vc_del`. -/
def delSection (s : Shard) (m : Mem) (now : Nat) (key : List UInt8) : List Write :=
  removeScript s m now key (key.length % 2 ^ 32) (wyhash64 key 0)

/-- The section of `vc_flush` for one shard. -/
def flushSection (s : Shard) (m : Mem) : List Write := flushScript s.cap 0 s m ++ [.count 0]

theorem setSection_leadsTo (d : TableMem) (now : Nat) (key : List UInt8) {ne : EntryData}
    (hne : ne.payload.length = payloadSize) :
    LeadsTo (setSection d.shard d.mem now key ne) d (lockedSet d.shard d.mem now key ne).1
      (lockedSet d.shard d.mem now key ne).2 := by
  have hremove := removeScript_leadsTo d now key ne.keyLen ne.keyHash
    (r := removeOld d.shard d.mem now key ne) rfl
  have hevict := hremove.append fun d₁ hs hm => hs ▸ hm ▸ evictIfFullScript_leadsTo d₁
  refine hevict.append fun d₂ hs hm => ?_
  have hstore := storeScript_leadsTo d₂ hne
  rw [hs, hm] at hstore
  exact hstore

theorem flushSection_leadsTo (d : TableMem) :
    LeadsTo (flushSection d.shard d.mem) d (flushShard d.shard d.mem).1
      (flushShard d.shard d.mem).2 :=
  (flushScript_leadsTo _ 0 d).append fun d' hs hm =>
    ⟨by simp [applyAll, Write.apply, hs, flushShard], hm⟩

end VoidCache
