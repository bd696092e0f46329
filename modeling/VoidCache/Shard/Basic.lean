import VoidCache.Entry
import VoidCache.Lib.Cyclic
import VoidCache.Lib.SlotSum

/-!
# One shard: an open-addressing table with a clock hand

The table is a power-of-two array of entries. `shardFind` is the linear probe scan,
`shardEvictOne` one sweep of the clock, `shardInsert` the Robin Hood insertion. The shard
lock and the sequence counter do not change what a single call computes; they are modelled
where calls overlap.
-/
namespace VoidCache

structure Shard where
  table : Nat → Entry
  cap : Nat
  count : Nat
  clockHand : Nat
  hits : Nat
  misses : Nat
  sets : Nat
  evictions : Nat

def shardBits : Nat := 6
def numShards : Nat := 2 ^ shardBits

def shardIdx (h : UInt64) : Nat := h.toNat >>> (64 - shardBits)

def tableSlot (h : UInt64) (cap : Nat) : Nat := h.toNat &&& (cap - 1)

/-- The comparison of `_shard_find`: only a live slot with equal hash and length is compared
byte by byte. -/
def slotMatches (m : Mem) (e : Entry) (key : List UInt8) (keyLen : Nat) (hash : UInt64) : Bool :=
  e.state != .busy && e.state == .live && e.keyHash == hash && e.keyLen == keyLen &&
    keyEq m e.toEntryData key keyLen

def shardFindLoop (m : Mem) (now : Nat) (s : Shard) (key : List UInt8) (keyLen : Nat)
    (hash : UInt64) : Nat → Nat → Option Nat
  | 0, _ => none
  | n + 1, slot =>
    if (s.table slot).state = .empty then none
    else if slotMatches m (s.table slot) key keyLen hash then
      -- an expired match ends the scan: later copies of the key are not looked for
      if entryExpired now (s.table slot).toEntryData then none else some slot
    else shardFindLoop m now s key keyLen hash n (Cyclic.next s.cap slot)

/-- Slot of `key`, or `none` for `UINT32_MAX`. -/
def shardFind (m : Mem) (now : Nat) (s : Shard) (key : List UInt8) (keyLen : Nat)
    (hash : UInt64) : Option Nat :=
  shardFindLoop m now s key keyLen hash s.cap (tableSlot hash s.cap)

def Shard.setSlot (s : Shard) (i : Nat) (e : Entry) : Shard :=
  { s with table := Function.update s.table i e }

/-- `atomic_fetch_sub(&s->count, 1)` on a 32-bit counter. -/
def Shard.decCount (s : Shard) : Shard := { s with count := (s.count + (2 ^ 32 - 1)) % 2 ^ 32 }

def Shard.incCount (s : Shard) : Shard := { s with count := (s.count + 1) % 2 ^ 32 }

/-- Free what the entry in `slot` owns and leave a tombstone. -/
def killSlot (s : Shard) (m : Mem) (slot : Nat) : Shard × Mem :=
  let e := s.table slot
  ((s.setSlot slot { e with state := .dead }).decCount, entryFreeResources e.toEntryData m)

def shardEvictLoop (m : Mem) : Nat → Nat → Shard → Option Nat × Shard × Mem
  | 0, _, s => (none, s, m)
  | n + 1, hand, s =>
    let h := Cyclic.next s.cap hand
    let e := s.table h
    if e.state ≠ .live then shardEvictLoop m n h s
    else if e.clockBit then
      -- second chance
      shardEvictLoop m n h (s.setSlot h { e with clockBit := false })
    else
      let killed := killSlot s m h
      (some h, { killed.1 with evictions := (s.evictions + 1) % 2 ^ 64, clockHand := h }, killed.2)

/-- One sweep of the clock over at most `cap` slots. -/
def shardEvictOne (s : Shard) (m : Mem) : Option Nat × Shard × Mem :=
  shardEvictLoop m s.cap s.clockHand s

/-- The entry being inserted; its state and clock bit are never read. -/
structure Incoming extends EntryData where
  probeDist : Nat

/-- The entry a slot holds once `incoming` has been stored in it. -/
def Incoming.placed (incoming : Incoming) : Entry :=
  { toEntryData := incoming.toEntryData, state := .live, clockBit := true
    probeDist := incoming.probeDist }

/-- The insertion loop. The second component is the entry still in hand when all `cap`
steps are used up; the caller does not look at it. -/
def shardInsertLoop (cap : Nat) :
    Nat → Nat → (Nat → Entry) → Incoming → (Nat → Entry) × Option Incoming
  | 0, _, t, incoming => (t, some incoming)
  | n + 1, slot, t, incoming =>
    let e := t slot
    if e.state = .empty ∨ e.state = .dead then
      (Function.update t slot incoming.placed, none)
    else if e.state = .live ∧ e.probeDist < incoming.probeDist then
      -- Robin Hood: the richer entry is displaced and carried on
      shardInsertLoop cap n (Cyclic.next cap slot) (Function.update t slot incoming.placed)
        { toEntryData := e.toEntryData, probeDist := (e.probeDist + 1) % 256 }
    else
      shardInsertLoop cap n (Cyclic.next cap slot) t
        { incoming with probeDist := (incoming.probeDist + 1) % 256 }

def shardInsert (s : Shard) (ne : EntryData) : Shard :=
  { s with
    table := (shardInsertLoop s.cap s.cap (tableSlot ne.keyHash s.cap) s.table
      { toEntryData := ne, probeDist := 0 }).1 }

/-! ## What a table holds -/

/-- The contribution of a slot to the contents of its table. -/
def Entry.contents (e : Entry) : Multiset EntryData := if e.state = .live then {e.toEntryData} else 0

/-- The live entries of a shard. -/
def Shard.contents (s : Shard) : Multiset EntryData := slotSum s.cap Entry.contents s.table

/-- Number of live slots. -/
def Shard.liveCount (s : Shard) : Nat :=
  ((Finset.range s.cap).filter fun i => (s.table i).state = .live).card

theorem Shard.card_contents (s : Shard) : s.contents.card = s.liveCount := by
  unfold Shard.contents slotSum Shard.liveCount
  rw [Multiset.card_sum, Finset.card_filter]
  refine Finset.sum_congr rfl fun i _ => ?_
  unfold Entry.contents
  split_ifs <;> simp

theorem Shard.mem_contents {s : Shard} {d : EntryData} :
    d ∈ s.contents ↔ ∃ i, i < s.cap ∧ (s.table i).state = .live ∧ (s.table i).toEntryData = d := by
  unfold Shard.contents
  rw [slotSum.mem_iff]
  refine exists_congr fun i => and_congr_right fun _ => ?_
  unfold Entry.contents
  split_ifs with h
  · simp [h, eq_comm]
  · simp [h]

@[simp] theorem contents_of_live {e : Entry} (h : e.state = .live) :
    e.contents = {e.toEntryData} := by simp [Entry.contents, h]

@[simp] theorem contents_of_not_live {e : Entry} (h : e.state ≠ .live) : e.contents = 0 := by
  simp [Entry.contents, h]

@[simp] theorem placed_contents (incoming : Incoming) :
    incoming.placed.contents = {incoming.toEntryData} := rfl

/-! ## The shape of a table -/

/-- A slot that was ever used. -/
def Shard.Used (s : Shard) (i : Nat) : Prop := (s.table i).state ≠ .empty

/-- Between calls: a power-of-two capacity below `2^32`, no slot is `BUSY`, and every live
entry is reachable from its home slot over used slots only. -/
structure Shard.Shape (s : Shard) : Prop where
  cap_pow : ∃ b, s.cap = 2 ^ b
  cap_lt : s.cap < 2 ^ 32
  no_busy : ∀ i, (s.table i).state ≠ .busy
  chain : ∀ i, i < s.cap → (s.table i).state = .live →
    Cyclic.Filled s.Used s.cap (tableSlot (s.table i).keyHash s.cap) i

theorem tableSlot_lt {cap : Nat} (hc : ∃ b, cap = 2 ^ b) (h : UInt64) : tableSlot h cap < cap := by
  unfold tableSlot
  rw [Cyclic.mask_eq_mod hc]
  exact Nat.mod_lt _ (Cyclic.pos_of_pow hc)

theorem shardIdx_lt (h : UInt64) : shardIdx h < numShards := by
  unfold shardIdx numShards shardBits
  rw [Nat.shiftRight_eq_div_pow]
  have := h.toNat_lt
  omega

end VoidCache
