import VoidCache.Shard.Basic
import VoidCache.Lib.Seqlock

/-!
# The lock-free path of `vc_get`, load by load

The reader takes no lock. It loads the capacity, then slot by slot the state, the hash, the
key length and the bytes of the key, and at the end the fields that locate the value. Each
load is one step, so that writes of other threads fall between any two of them. On a table
that does not change meanwhile the loads compute `shardFind` and `entryVal`.

A load from a buffer that has been freed finds nothing. A torn pointer is null.
-/
namespace VoidCache

/-- A table and the memory that its entries point to. -/
structure TableMem where
  shard : Shard
  mem : Mem
  size : ∀ i, (shard.table i).payload.length = payloadSize

/-- Where a run of bytes begins: at the payload of a slot, or at an object outside the table. -/
inductive Base where
  | payload (slot : Nat)
  | obj (p : Ptr)

inductive Field where
  | cap
  | state (slot : Nat)
  | flags (slot : Nat)
  | valLen (slot : Nat)
  | keyLen (slot : Nat)
  | keyHash (slot : Nat)
  | expireNs (slot : Nat)
  | cell (b : Base) (j : Nat)

@[reducible] def Field.Val : Field → Type
  | .cap => Nat
  | .state _ => SlotState
  | .flags _ => UInt8
  | .valLen _ => Nat
  | .keyLen _ => Nat
  | .keyHash _ => UInt64
  | .expireNs _ => Int
  | .cell _ _ => Option (Cell Ptr)

namespace TableMem

def entry (d : TableMem) (slot : Nat) : Entry := d.shard.table slot

def cells (d : TableMem) : Base → Cells
  | .payload slot => (d.entry slot).payload
  | .obj p => d.mem.read p

def load (d : TableMem) : (f : Field) → f.Val
  | .cap => d.shard.cap
  | .state slot => (d.entry slot).state
  | .flags slot => (d.entry slot).flags
  | .valLen slot => (d.entry slot).valLen
  | .keyLen slot => (d.entry slot).keyLen
  | .keyHash slot => (d.entry slot).keyHash
  | .expireNs slot => (d.entry slot).expireNs
  | .cell b j => (d.cells b)[j]?

/-- Buffers that hold the key of a live entry. -/
def KeyBuffer (d : TableMem) (p : Ptr) : Prop :=
  ∃ slot, slot < d.shard.cap ∧ (d.entry slot).state = .live ∧
    hasFlag (d.entry slot).flags flagKeyLong = true ∧ (d.entry slot).ptrAt 0 = p

/-- Writers change the fields of the slots, and the buffers of keys in use, inside the bracket
only. -/
def Guarded (d : TableMem) : Field → Prop
  | .cell (.obj p) _ => d.KeyBuffer p
  | _ => True

end TableMem

open TableMem in
def tableGuard : Seqlock.Guard TableMem Field.Val where
  read := load
  guarded := Guarded
  stable d d' h := by
    have hcap : d'.shard.cap = d.shard.cap := h .cap trivial
    have hstate : ∀ i, (d'.entry i).state = (d.entry i).state := fun i => h (.state i) trivial
    have hflags : ∀ i, (d'.entry i).flags = (d.entry i).flags := fun i => h (.flags i) trivial
    have hpay : ∀ i, (d'.entry i).payload = (d.entry i).payload := fun i =>
      List.ext_getElem? fun j => h (.cell (.payload i) j) trivial
    intro f
    match f with
    | .cell (.obj p) _ => simp [Guarded, KeyBuffer, EntryData.ptrAt, hcap, hstate, hflags, hpay]
    | .cell (.payload _) _ | .cap | .state _ | .flags _ | .valLen _ | .keyLen _ | .keyHash _
    | .expireNs _ => simp [Guarded]

/-! ## The programs -/

/-- Load `n` cells from offset `j` on. -/
def loadCells (b : Base) : Nat → Nat → Loads Field.Val Cells
  | 0, _ => pure []
  | n + 1, j => do
    let c ← Loads.get (.cell b j)
    let cs ← loadCells b n (j + 1)
    return c.toList ++ cs

/-- `memcmp(k, key, n) == 0` from offset `j` on. -/
def memcmpLoads (b : Base) (key : List UInt8) : Nat → Nat → Loads Field.Val Bool
  | 0, _ => pure true
  | n + 1, j => do
    let c ← Loads.get (.cell b j)
    if c = key[j]?.map .byte then memcmpLoads b key n (j + 1) else return false

def entryKeyLoads (slot : Nat) : Loads Field.Val Base := do
  let flags ← Loads.get (.flags slot)
  if hasFlag flags flagKeyLong then
    let cs ← loadCells (.payload slot) ptrSize 0
    return .obj ((Cell.toPtr cs).getD .null)
  else return .payload slot

/-- The condition of `_shard_find` on a slot whose state has been loaded. -/
def slotMatchesLoads (key : List UInt8) (keyLen : Nat) (hash : UInt64) (slot : Nat)
    (st : SlotState) : Loads Field.Val Bool :=
  if st ≠ .busy ∧ st = .live then do
    let h ← Loads.get (.keyHash slot)
    if h = hash then
      let n ← Loads.get (.keyLen slot)
      if n = keyLen then
        let k ← entryKeyLoads slot
        memcmpLoads k key keyLen 0
      else return false
    else return false
  else return false

/-- `entry_expired` loads the deadline a second time when it is not zero. -/
def entryExpiredLoads (now slot : Nat) : Loads Field.Val Bool := do
  let t ← Loads.get (.expireNs slot)
  if t = 0 then return false
  else
    let t ← Loads.get (.expireNs slot)
    return decide (t < toInt64 now)

def shardFindLoopLoads (now : Nat) (key : List UInt8) (keyLen : Nat) (hash : UInt64) (cap : Nat) :
    Nat → Nat → Loads Field.Val (Option Nat)
  | 0, _ => pure none
  | n + 1, slot => do
    let st ← Loads.get (.state slot)
    if st = SlotState.empty then return none
    else
      let found ← slotMatchesLoads key keyLen hash slot st
      if found then
        let old ← entryExpiredLoads now slot
        return if old then none else some slot
      else shardFindLoopLoads now key keyLen hash cap n (Cyclic.next cap slot)

def shardFindLoads (now : Nat) (key : List UInt8) (keyLen : Nat) (hash : UInt64) :
    Loads Field.Val (Option Nat) := do
  let cap ← Loads.get .cap
  shardFindLoopLoads now key keyLen hash cap cap (tableSlot hash cap)

/-- How an attempt of the fast path ends, before the sequence number is checked. -/
inductive FastOut where
  | notFnd
  | value (loc : Loc) (len : Nat)
  | inline
  deriving DecidableEq

/-- One attempt. The local copy of the entry has no hash and no deadline. -/
def fastLoads (now : Nat) (key : List UInt8) : Loads Field.Val FastOut := do
  let h := wyhash64 key 0
  let found ← shardFindLoads now key (key.length % 2 ^ 32) h
  match found with
  | none => return .notFnd
  | some slot =>
    let f ← Loads.get (.flags slot)
    if hasFlag f (flagValSlab ||| flagValMmap) then
      let flags ← Loads.get (.flags slot)
      let vlen ← Loads.get (.valLen slot)
      let klen ← Loads.get (.keyLen slot)
      let payload ← loadCells (.payload slot) payloadSize 0
      let snap : EntryData :=
        { flags := flags, valLen := vlen, keyLen := klen, keyHash := 0, expireNs := 0
          payload := payload }
      return .value (entryVal (shardIdx h) slot snap) vlen
    else return .inline

/-! ## What they compute on a table that does not change -/

variable {d : TableMem} {now : Nat} {key : List UInt8} {keyLen : Nat} {hash : UInt64}

/-- On this table the program stays inside the bracket and computes `r`. -/
abbrev TableMem.Gives {R : Type} (d : TableMem) (p : Loads Field.Val R) (r : R) : Prop :=
  Loads.Gives d.load d.Guarded p r

theorem gives_loadCells {b : Base} (hb : ∀ j, d.Guarded (.cell b j)) (n j : Nat) :
    d.Gives (loadCells b n j) (((d.cells b).drop j).take n) := by
  induction n generalizing j with
  | zero => exact .pure _
  | succ n ih =>
    rw [take_succ_drop]
    exact .bind (.get (hb j)) (.bind (ih (j + 1)) (.pure _))

/-- Comparing byte by byte compares the blocks. -/
theorem gives_memcmpLoads {b : Base} (hb : ∀ j, d.Guarded (.cell b j)) (n j : Nat) :
    d.Gives (memcmpLoads b key n j)
      (decide (((d.cells b).drop j).take n = Cell.bytes ((key.drop j).take n))) := by
  induction n generalizing j with
  | zero => exact .pure _
  | succ n ih =>
    refine .bind (.get (hb j)) ?_
    show d.Gives (if (d.cells b)[j]? = key[j]?.map .byte then _ else _) _
    by_cases hc : (d.cells b)[j]? = key[j]?.map .byte
    · rw [if_pos hc, take_succ_drop, take_succ_drop, hc]
      convert ih (j + 1) using 2
      cases key[j]? <;> simp [Cell.bytes]
    · have hne : ¬ ((d.cells b).drop j).take (n + 1) = Cell.bytes ((key.drop j).take (n + 1)) := by
        refine fun he => hc ?_
        have hhead := congrArg (·[0]?) he
        simpa [Cell.bytes] using hhead
      rw [if_neg hc, decide_eq_false hne]
      exact .pure _

/-- Where the key of an entry begins. -/
def TableMem.keyBase (d : TableMem) (slot : Nat) : Base :=
  if hasFlag (d.entry slot).flags flagKeyLong then .obj ((d.entry slot).ptrAt 0) else .payload slot

theorem TableMem.cells_keyBase (slot : Nat) :
    d.cells (d.keyBase slot) = entryKey d.mem (d.entry slot).toEntryData := by
  unfold keyBase entryKey
  split <;> rfl

theorem TableMem.guarded_keyBase {slot : Nat} (hs : slot < d.shard.cap)
    (hl : (d.entry slot).state = .live) (j : Nat) :
    d.Guarded (.cell (d.keyBase slot) j) := by
  unfold keyBase
  split_ifs with hlong
  · exact ⟨slot, hs, hl, hlong, rfl⟩
  · trivial

theorem gives_entryKeyLoads (slot : Nat) : d.Gives (entryKeyLoads slot) (d.keyBase slot) := by
  have hptr : (d.entry slot).ptrAt 0 =
      (Cell.toPtr (((d.cells (.payload slot)).drop 0).take ptrSize)).getD .null := by
    rw [ptrSize, Cell.toPtr_take]
    rfl
  refine .bind (.get trivial) (.ite (fun _ => ?_) fun _ => .pure _)
  rw [hptr]
  exact .bind (gives_loadCells (b := .payload slot) (fun _ => trivial) _ _) (.pure _)

theorem gives_slotMatchesLoads {slot : Nat} (hs : slot < d.shard.cap) :
    d.Gives (slotMatchesLoads key keyLen hash slot (d.entry slot).state)
      (slotMatches d.mem (d.entry slot) key keyLen hash) := by
  have hif : slotMatches d.mem (d.entry slot) key keyLen hash =
      if (d.entry slot).state ≠ .busy ∧ (d.entry slot).state = .live then
        if (d.entry slot).keyHash = hash then
          if (d.entry slot).keyLen = keyLen then keyEq d.mem (d.entry slot).toEntryData key keyLen
          else false
        else false
      else false := by
    unfold slotMatches
    grind
  rw [hif]
  refine .ite (fun hl => ?_) fun _ => .pure _
  refine .bind (.get trivial) (.ite (fun _ => ?_) fun _ => .pure _)
  refine .bind (.get trivial) (.ite (fun _ => ?_) fun _ => .pure _)
  refine .bind (gives_entryKeyLoads slot) ?_
  rw [keyEq, ← TableMem.cells_keyBase]
  exact gives_memcmpLoads (TableMem.guarded_keyBase hs hl.2) keyLen 0

theorem gives_entryExpiredLoads (slot : Nat) :
    d.Gives (entryExpiredLoads now slot) (entryExpired now (d.entry slot).toEntryData) :=
  .bind (.get trivial) (.ite (fun _ => .pure _) fun _ => .bind (.get trivial) (.pure _))

theorem mask_lt {cap : Nat} (hc : 0 < cap) (i : Nat) : i &&& (cap - 1) < cap :=
  (Nat.and_le_right).trans_lt (by omega)

theorem gives_shardFindLoopLoads (n : Nat) {slot : Nat} (hs : slot < d.shard.cap) :
    d.Gives (shardFindLoopLoads now key keyLen hash d.shard.cap n slot)
      (shardFindLoop d.mem now d.shard key keyLen hash n slot) := by
  induction n generalizing slot with
  | zero => exact .pure _
  | succ n ih =>
    refine .bind (.get trivial) (.ite (fun _ => .pure _) fun _ => ?_)
    refine .bind (gives_slotMatchesLoads hs) (.ite (fun _ => ?_) fun _ => ?_)
    · exact .bind (gives_entryExpiredLoads slot) (.pure _)
    · exact ih (mask_lt (Nat.zero_lt_of_lt hs) _)

theorem gives_shardFindLoads (d : TableMem) (now : Nat) (key : List UInt8) (keyLen : Nat)
    (hash : UInt64) :
    d.Gives (shardFindLoads now key keyLen hash) (shardFind d.mem now d.shard key keyLen hash) := by
  refine .bind (.get trivial) ?_
  show d.Gives (shardFindLoopLoads now key keyLen hash d.shard.cap d.shard.cap _) _
  rcases Nat.eq_zero_or_pos d.shard.cap with hc | hc
  · simp only [shardFind, hc]
    exact .pure _
  · exact gives_shardFindLoopLoads _ (mask_lt hc _)

/-- `_shard_find` and then `entry_val`, on one table. -/
def TableMem.lookup (d : TableMem) (now : Nat) (key : List UInt8) : FastOut :=
  match shardFind d.mem now d.shard key (key.length % 2 ^ 32) (wyhash64 key 0) with
  | none => .notFnd
  | some slot =>
    .value (entryVal (shardIdx (wyhash64 key 0)) slot (d.entry slot).toEntryData)
      (d.entry slot).valLen

/-- An attempt ends with `lookup`, or gives up because the value is in the table. -/
theorem gives_fastLoads (d : TableMem) (now : Nat) (key : List UInt8) :
    ∃ r, d.Gives (fastLoads now key) r ∧ (r = d.lookup now key ∨ r = .inline) := by
  have hfind := gives_shardFindLoads d now key (key.length % 2 ^ 32) (wyhash64 key 0)
  unfold TableMem.lookup
  cases hf : shardFind d.mem now d.shard key (key.length % 2 ^ 32) (wyhash64 key 0) with
  | none =>
    rw [hf] at hfind
    exact ⟨.notFnd, .bind hfind (.pure _), Or.inl rfl⟩
  | some slot =>
    rw [hf] at hfind
    have hall : ((d.cells (.payload slot)).drop 0).take payloadSize = (d.entry slot).payload :=
      List.take_of_length_le (d.size slot).le
    have hpay := gives_loadCells (d := d) (b := .payload slot) (fun _ => trivial) payloadSize 0
    rw [hall] at hpay
    by_cases hflag : hasFlag (d.entry slot).flags (flagValSlab ||| flagValMmap) = true
    · refine ⟨_, .bind hfind (.bind (.get trivial) ?_), Or.inl rfl⟩
      show d.Gives (if hasFlag (d.entry slot).flags _ = true then _ else _) _
      rw [if_pos hflag]
      exact .bind (.get trivial) (.bind (.get trivial) (.bind (.get trivial) (.bind hpay (.pure _))))
    · refine ⟨.inline, .bind hfind (.bind (.get trivial) ?_), Or.inr rfl⟩
      show d.Gives (if hasFlag (d.entry slot).flags _ = true then _ else _) _
      rw [if_neg hflag]
      exact .pure _

end VoidCache
