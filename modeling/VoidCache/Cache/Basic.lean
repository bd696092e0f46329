import VoidCache.Shard.Basic
import VoidCache.Wal

/-!
# The cache and its calls, run one after the other

`vcSet` logs the request, builds the new entry (inline, slab or mapped value), and then
replaces, evicts and inserts under the shard lock. `vcGet` answers with the address and the
length of the value; the bytes behind the address are read by `Cache.readLoc`. A `World` is
a cache together with the monotonic clock, and `step` is one call or one advance of the clock.
-/
namespace VoidCache

inductive VcErr where
  | oom | full | notFnd | expired | wal | inval
  deriving DecidableEq, Repr

structure Cache where
  shards : Nat → Shard
  mem : Mem
  wal : Option Wal
  totalMemory : Nat

/-! ## Creation -/

def nextPow232 (v : UInt32) : UInt32 :=
  if v = 0 then 1
  else
    let v := v - 1
    let v := v ||| v >>> 1
    let v := v ||| v >>> 2
    let v := v ||| v >>> 4
    let v := v ||| v >>> 8
    let v := v ||| v >>> 16
    v + 1

/-- A zeroed slot. -/
def emptyEntry : Entry where
  flags := 0
  valLen := 0
  keyLen := 0
  keyHash := 0
  expireNs := 0
  payload := List.replicate payloadSize (.byte 0)
  state := .empty
  clockBit := false
  probeDist := 0

def emptyShard (cap : Nat) : Shard where
  table _ := emptyEntry
  cap := cap
  count := 0
  clockHand := 0
  hits := 0
  misses := 0
  sets := 0
  evictions := 0

/-- The cache with tables of `cap` slots. `file` is what the log file holds, when there is one. -/
def newCache (file : Option (Nat → UInt8)) (cap : Nat) : Cache where
  shards _ := emptyShard cap
  mem := { slab := slabInit, heap := ∅, maps := ∅ }
  wal := file.map walInit
  totalMemory := 0

/-- Mapping a table of zero bytes fails, and then there is no cache. -/
def vcCreate (file : Option (Nat → UInt8)) (shardSlots : UInt32) : Option Cache :=
  let cap := (nextPow232 (if shardSlots = 0 then 1024 else shardSlots)).toNat
  if cap = 0 then none else some (newCache file cap)

/-! ## Set -/

/-- The bytes a pointer and a length cast to `uint32_t` delimit. -/
def clip32 (bs : List UInt8) : List UInt8 := bs.take (bs.length % 2 ^ 32)

def Cache.log (c : Cache) (r : WalReq) : Cache := { c with wal := c.wal.map (·.append r) }

def valMax : Nat := 65535

/-- The zeroed entry with its fixed fields. -/
def freshEntry (now : Nat) (key val : List UInt8) (ttlSec : UInt32) : EntryData where
  flags := 0
  valLen := if valMax < val.length then valMax else val.length
  keyLen := key.length % 2 ^ 32
  keyHash := wyhash64 key 0
  expireNs := if ttlSec = 0 then 0 else toInt64 (now + ttlSec.toNat * 1000000000)
  payload := List.replicate payloadSize (.byte 0)

/-- The payload with two consecutive pieces copied in. -/
def packed (a b : Cells) : Cells :=
  blit (blit (List.replicate payloadSize (.byte 0)) 0 a) a.length b

/-- Build the new entry. `none` is `VC_ERR_OOM`; the last component is `total_memory`. -/
def buildEntry (env : Env) (m : Mem) (totalMemory : Nat) (ne : EntryData) (key val : List UInt8) :
    Option EntryData × Mem × Nat :=
  if key.length + val.length ≤ payloadSize ∧ ¬ payloadSize < key.length then
    (some { ne with flags := 0, payload := packed (Cell.bytes key) (Cell.bytes val) }, m, totalMemory)
  else if val.length ≤ slabClassSize (slabClasses - 1) then
    match slabAlloc m.slab val.length with
    | (none, _) => (none, m, totalMemory)
    | (some vbuf, slab) =>
      let m := { m with slab := slab.store vbuf (blit (slab.load vbuf) 0 (Cell.bytes val)) }
      let total := (totalMemory + val.length) % 2 ^ 64
      if key.length ≤ payloadSize - ptrSize then
        (some { ne with flags := flagValSlab, payload := packed (Cell.bytes key) (Cell.ofPtr vbuf) },
          m, total)
      else
        match malloc env m key with
        | (none, m) =>
          (none, { m with slab := slabFree m.slab vbuf (slabClassFor val.length) }, totalMemory)
        | (some kbuf, m) =>
          (some
            { ne with
              flags := flagValSlab ||| flagKeyLong
              payload := packed (Cell.ofPtr kbuf) (Cell.ofPtr vbuf) },
            m, total)
  else
    match mmapAnon env m val with
    | (none, m) => (none, m, totalMemory)
    | (some vbuf, m) =>
      match malloc env m key with
      | (none, m) => (none, munmap m vbuf val.length, totalMemory)
      | (some kbuf, m) =>
        (some
          { ne with
            flags := flagValMmap ||| flagKeyLong
            payload := packed (Cell.ofPtr kbuf) (Cell.ofPtr vbuf) },
          m, (totalMemory + val.length) % 2 ^ 64)

/-- `cnt * 100 / s->cap >= 85` in 32-bit arithmetic. -/
def evictTrigger (s : Shard) : Bool := decide (85 ≤ s.count * 100 % 2 ^ 32 / s.cap)

/-- If the key already exists, remove the old entry first. -/
def removeOld (s : Shard) (m : Mem) (now : Nat) (key : List UInt8) (ne : EntryData) : Shard × Mem :=
  match shardFind m now s key ne.keyLen ne.keyHash with
  | some old => killSlot s m old
  | none => (s, m)

def evictIfFull (s : Shard) (m : Mem) : Shard × Mem :=
  if evictTrigger s then ((shardEvictOne s m).2.1, (shardEvictOne s m).2.2) else (s, m)

/-- The section of `vc_set` under the shard lock. -/
def lockedSet (s : Shard) (m : Mem) (now : Nat) (key : List UInt8) (ne : EntryData) : Shard × Mem :=
  let r := removeOld s m now key ne
  let r := evictIfFull r.1 r.2
  let s := (shardInsert r.1 ne).incCount
  ({ s with sets := (s.sets + 1) % 2 ^ 64 }, r.2)

def Cache.setShard (c : Cache) (si : Nat) (s : Shard) : Cache :=
  { c with shards := Function.update c.shards si s }

/-- Everything `vc_set` does after the log record has been written. -/
def vcSetStore (c : Cache) (now : Nat) (env : Env) (key val : List UInt8) (ttlSec : UInt32) :
    Except VcErr Unit × Cache :=
  match buildEntry env c.mem c.totalMemory (freshEntry now key val ttlSec) key val with
  | (none, m, total) => (.error .oom, { c with mem := m, totalMemory := total })
  | (some ne, m, total) =>
    let si := shardIdx ne.keyHash
    let r := lockedSet (c.shards si) m now key ne
    (.ok (), { (c.setShard si r.1) with mem := r.2, totalMemory := total })

def setReq (env : Env) (key val : List UInt8) (ttlSec : UInt32) : WalReq :=
  ⟨walSet, clip32 key, clip32 val, ttlSec, env.wallNs⟩

def vcSet (c : Cache) (now : Nat) (env : Env) (key val : List UInt8) (ttlSec : UInt32) :
    Except VcErr Unit × Cache :=
  if key.length = 0 ∨ val.length = 0 ∨ 2 ^ 32 - 1 < key.length then (.error .inval, c)
  else vcSetStore (c.log (setReq env key val ttlSec)) now env key val ttlSec

/-! ## Get -/

def Shard.hit (s : Shard) (slot : Nat) : Shard :=
  { (s.setSlot slot { s.table slot with clockBit := true }) with hits := (s.hits + 1) % 2 ^ 64 }

def Shard.miss (s : Shard) : Shard := { s with misses := (s.misses + 1) % 2 ^ 64 }

/-- The fast path answers misses and values outside the table; an inline value is looked up
again on the locked path. Without overlap the first attempt of the fast path is the last. -/
def vcGet (c : Cache) (now : Nat) (key : List UInt8) : Except VcErr (Loc × Nat) × Cache :=
  let h := wyhash64 key 0
  let si := shardIdx h
  let s := c.shards si
  let found := shardFind c.mem now s key (key.length % 2 ^ 32) h
  match found with
  | none => (.error .notFnd, c.setShard si s.miss)
  | some slot =>
    let e := s.table slot
    if hasFlag e.flags (flagValSlab ||| flagValMmap) then
      (.ok (entryVal si slot e.toEntryData, e.valLen), c.setShard si (s.hit slot))
    else
      match shardFind c.mem now s key (key.length % 2 ^ 32) h with
      | none => (.error .notFnd, c.setShard si s.miss)
      | some slot =>
        let e := s.table slot
        (.ok (entryVal si slot e.toEntryData, e.valLen), c.setShard si (s.hit slot))

/-- The `len` cells behind an address that `vcGet` returned. -/
def Cache.readLoc (c : Cache) (loc : Loc) (len : Nat) : Cells :=
  match loc with
  | .payload si slot off => (((c.shards si).table slot).payload.drop off).take len
  | .obj p => (c.mem.read p).take len

/-! ## Delete and flush -/

/-- Everything `vc_del` does after the log record has been written. -/
def vcDelStore (c : Cache) (now : Nat) (key : List UInt8) : Except VcErr Unit × Cache :=
  let h := wyhash64 key 0
  let si := shardIdx h
  match shardFind c.mem now (c.shards si) key (key.length % 2 ^ 32) h with
  | none => (.error .notFnd, c)
  | some slot =>
    let r := killSlot (c.shards si) c.mem slot
    (.ok (), { (c.setShard si r.1) with mem := r.2 })

def delReq (env : Env) (key : List UInt8) : WalReq := ⟨walDel, clip32 key, [], 0, env.wallNs⟩

def vcDel (c : Cache) (now : Nat) (env : Env) (key : List UInt8) : Except VcErr Unit × Cache :=
  vcDelStore (c.log (delReq env key)) now key

/-- Turn the live slots among `j, …, j + n - 1` into tombstones. -/
def flushSlots : Nat → Nat → Shard → Mem → Shard × Mem
  | 0, _, s, m => (s, m)
  | n + 1, j, s, m =>
    let e := s.table j
    if e.state = .live then
      flushSlots n (j + 1) (s.setSlot j { e with state := .dead }) (entryFreeResources e.toEntryData m)
    else flushSlots n (j + 1) s m

def flushShard (s : Shard) (m : Mem) : Shard × Mem :=
  let r := flushSlots s.cap 0 s m
  ({ r.1 with count := 0 }, r.2)

def flushShards : Nat → Nat → Cache → Cache
  | 0, _, c => c
  | n + 1, i, c =>
    let r := flushShard (c.shards i) c.mem
    flushShards n (i + 1) { (c.setShard i r.1) with mem := r.2 }

def vcFlush (c : Cache) : Cache := flushShards numShards 0 c

/-! ## Runs -/

structure World where
  cache : Cache
  now : Nat

inductive Op where
  | set (key val : List UInt8) (ttlSec : UInt32) (env : Env)
  | get (key : List UInt8)
  | del (key : List UInt8) (env : Env)
  | flush
  | tick (ns : Nat)
  deriving DecidableEq

/-- The value returned by a call. -/
inductive Res where
  | done (r : Except VcErr Unit)
  | value (r : Except VcErr (Loc × Nat))
  | none
  deriving DecidableEq

def step (w : World) : Op → World × Res
  | .set key val ttlSec env =>
    let r := vcSet w.cache w.now env key val ttlSec
    ({ w with cache := r.2 }, .done r.1)
  | .get key =>
    let r := vcGet w.cache w.now key
    ({ w with cache := r.2 }, .value r.1)
  | .del key env =>
    let r := vcDel w.cache w.now env key
    ({ w with cache := r.2 }, .done r.1)
  | .flush => ({ w with cache := vcFlush w.cache }, .none)
  | .tick ns => ({ w with now := w.now + ns }, .none)

end VoidCache
