import VoidCache.Hash
import VoidCache.Slab
import Mathlib.Data.List.AList

/-!
# Memory outside the tables, and table entries

An entry is one cache line: metadata and 32 payload cells. The payload holds the key and
the value inline, or the key and a pointer to the value, or two pointers. The fields that
travel with an entry when it is moved to another slot are grouped in `EntryData`.
-/
namespace VoidCache

/-- A private mapping; its first `lo` bytes have been unmapped again. -/
structure Region where
  lo : Nat
  bytes : List UInt8
  deriving DecidableEq

/-- Everything reachable through pointers: slab arenas, `malloc` buffers, mappings. -/
structure Mem where
  slab : Slab
  heap : AList (fun _ : Nat => List UInt8)
  maps : AList (fun _ : Nat => Region)

namespace Mem

/-- The cells readable from the start of an object. -/
def read (m : Mem) : Ptr → Cells
  | .null => []
  | .block c i => m.slab.load (.block c i)
  | .heap id => ((m.heap.lookup id).map Cell.bytes).getD []
  | .map id => ((m.maps.lookup id).map fun r => if r.lo = 0 then Cell.bytes r.bytes else []).getD []

end Mem

/-- An address no live object has. The environment proposes one; a proposal that is in
use is replaced, so every legal choice of the allocator is some proposal. -/
def freshId {β : Nat → Type} (objs : AList β) (hint : Nat) : Nat :=
  if hint ∈ objs.keys then objs.keys.foldr max 0 + 1 else hint

theorem freshId_notMem {β : Nat → Type} (objs : AList β) (hint : Nat) :
    freshId objs hint ∉ objs := by
  rw [AList.mem_keys]
  unfold freshId
  split_ifs with h
  · intro hm
    have hle : ∀ l : List Nat, ∀ x ∈ l, x ≤ l.foldr max 0 := by
      intro l
      induction l with
      | nil => simp
      | cons y l ih =>
        intro x hx
        rcases List.mem_cons.mp hx with rfl | hx
        · simp
        · exact (ih x hx).trans (by simp)
    have := hle _ _ hm
    omega
  · exact h

/-- What the environment decides during one call: whether `malloc` and `mmap` succeed and
where, and the wall clock. -/
structure Env where
  mallocOk : Bool
  mallocAt : Nat
  mmapOk : Bool
  mmapAt : Nat
  wallNs : Nat
  deriving DecidableEq

/-- `malloc` of a buffer that is filled with `bytes` at once. -/
def malloc (env : Env) (m : Mem) (bytes : List UInt8) : Option Ptr × Mem :=
  if env.mallocOk then
    let id := freshId m.heap env.mallocAt
    (some (.heap id), { m with heap := m.heap.insert id bytes })
  else (none, m)

/-- An anonymous mapping that is filled with `bytes` at once. -/
def mmapAnon (env : Env) (m : Mem) (bytes : List UInt8) : Option Ptr × Mem :=
  if env.mmapOk then
    let id := freshId m.maps env.mmapAt
    (some (.map id), { m with maps := m.maps.insert id ⟨0, bytes⟩ })
  else (none, m)

def pageSize : Nat := 4096

/-- `munmap(p, len)` releases the pages that `[p, p + len)` touches. -/
def munmap (m : Mem) (p : Ptr) (len : Nat) : Mem :=
  match p with
  | .map id =>
    match m.maps.lookup id with
    | some r =>
      let lo := max r.lo ((len + pageSize - 1) / pageSize * pageSize)
      { m with maps := m.maps.insert id ⟨lo, r.bytes⟩ }
    | none => m
  | _ => m

def free (m : Mem) (p : Ptr) : Mem :=
  match p with
  | .heap id => { m with heap := m.heap.erase id }
  | _ => m

def flagKeyLong : UInt8 := 0x01
def flagValSlab : UInt8 := 0x02
def flagValMmap : UInt8 := 0x04

/-- `flags & mask` as a condition. -/
def hasFlag (flags mask : UInt8) : Bool := flags &&& mask != 0

inductive SlotState where
  | empty | busy | live | dead
  deriving DecidableEq, Repr

/-- The fields of an entry that move with it. -/
structure EntryData where
  flags : UInt8
  valLen : Nat
  keyLen : Nat
  keyHash : UInt64
  expireNs : Int
  payload : Cells
  deriving DecidableEq

structure Entry extends EntryData where
  state : SlotState
  clockBit : Bool
  probeDist : Nat
  deriving DecidableEq

def ptrSize : Nat := 8
def payloadSize : Nat := 32

/-- `memcpy(&ptr, e->payload + off, sizeof(void *))` -/
def EntryData.ptrAt (e : EntryData) (off : Nat) : Ptr :=
  (Cell.toPtr (e.payload.drop off)).getD .null

/-- Where the value pointer of an entry is stored. -/
def EntryData.valOff (e : EntryData) : Nat :=
  if hasFlag e.flags flagKeyLong then ptrSize else e.keyLen

def entryKey (m : Mem) (e : EntryData) : Cells :=
  if hasFlag e.flags flagKeyLong then m.read (e.ptrAt 0) else e.payload

/-- The address of a value: inside the payload of a table slot, or another object. -/
inductive Loc where
  | payload (shard slot off : Nat)
  | obj (p : Ptr)
  deriving DecidableEq, Repr

/-- `entry_val` for the entry in slot `slot` of shard `shard`. -/
def entryVal (shard slot : Nat) (e : EntryData) : Loc :=
  if hasFlag e.flags (flagValSlab ||| flagValMmap) then .obj (e.ptrAt e.valOff)
  else .payload shard slot e.keyLen

/-- `(int64_t)n` for an unsigned 64-bit `n`. -/
def toInt64 (n : Nat) : Int :=
  if n % 2 ^ 64 < 2 ^ 63 then ((n % 2 ^ 64 : Nat) : Int)
  else ((n % 2 ^ 64 : Nat) : Int) - 2 ^ 64

theorem toInt64_of_lt {n : Nat} (h : n < 2 ^ 63) : toInt64 n = n := by
  unfold toInt64
  rw [Nat.mod_eq_of_lt (by omega), if_pos h]

theorem toInt64_bounds (n : Nat) : -2 ^ 63 ≤ toInt64 n ∧ toInt64 n < 2 ^ 63 := by
  unfold toInt64
  split_ifs <;> omega

theorem toInt64_emod {x : Int} (hge : -2 ^ 63 ≤ x) (hlt : x < 2 ^ 63) :
    toInt64 (x % 2 ^ 64).toNat = x := by
  unfold toInt64
  split_ifs <;> omega

def entryExpired (now : Nat) (e : EntryData) : Bool :=
  if e.expireNs = 0 then false else decide (e.expireNs < toInt64 now)

/-- `memcmp(entry_key(e), key, key_len) == 0` -/
def keyEq (m : Mem) (e : EntryData) (key : List UInt8) (keyLen : Nat) : Bool :=
  decide ((entryKey m e).take keyLen = Cell.bytes (key.take keyLen))

def entryFreeResources (e : EntryData) (m : Mem) : Mem :=
  let m := if hasFlag e.flags flagKeyLong then free m (e.ptrAt 0) else m
  if hasFlag e.flags flagValSlab then
    -- the size class is recovered from the stored 16-bit length
    { m with slab := slabFree m.slab (e.ptrAt e.valOff) (slabClassFor e.valLen) }
  else if hasFlag e.flags flagValMmap then munmap m (e.ptrAt e.valOff) e.valLen
  else m

end VoidCache
