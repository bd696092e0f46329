import VoidCache.Cache.Basic
import VoidCache.Lib.Calls
import VoidCache.Lib.Machine

/-!
# What a command asks of its surroundings

A command handler is a program that calls the cache (`vc_get`, `vc_set`, `vc_del`, `vc_flush`,
`vc_stats`, or a walk over the tables) and the C library. `HostReq` are these calls and
`HostReq.Resp` their answers. `hostExec` answers them from a cache and an environment, each
call of the cache as one step: time may pass before it, and the environment decides about its
memory. A read past the end of a buffer is a call too, with an unknown answer.
-/
namespace VoidCache

structure Stats where
  hits : Nat
  misses : Nat
  sets : Nat
  evictions : Nat
  expirations : Nat
  totalKeys : Nat
  memoryBytes : Nat
  deriving DecidableEq, Repr

/-- `vc_stats`. No code counts expirations. -/
def vcStats (c : Cache) : Stats :=
  let total (f : Shard → Nat) := ((List.range numShards).map fun i => f (c.shards i)).sum % 2 ^ 64
  { hits := total Shard.hits
    misses := total Shard.misses
    sets := total Shard.sets
    evictions := total Shard.evictions
    expirations := 0
    totalKeys := total Shard.count
    memoryBytes := c.totalMemory }

/-- The byte a cell shows to a program that reads it as one. What a piece of a pointer looks
like is not known; values and keys hold none. -/
def Cell.toByte {P : Type} : Cell P → UInt8
  | .byte b => b
  | .frag _ _ => 0

@[simp] theorem Cell.map_toByte_bytes {P : Type} (l : List UInt8) :
    (Cell.bytes l : List (Cell P)).map Cell.toByte = l := by
  simp [Cell.bytes, Cell.toByte, Function.comp_def]

/-- The keys of the live slots of a shard, slot by slot. -/
def Cache.slotKeys (c : Cache) (si : Nat) : List (Option (List UInt8)) :=
  (List.range (c.shards si).cap).map fun j =>
    let e := (c.shards si).table j
    if e.state = .live then some (((entryKey c.mem e.toEntryData).take e.keyLen).map Cell.toByte)
    else none

inductive HostReq where
  | get (key : List UInt8)
  | set (key val : List UInt8) (ttlSec : UInt32)
  | del (key : List UInt8)
  | flush
  | stats
  | tables
  | malloc (size : Nat)
  | overread (n : Nat)
  deriving DecidableEq

def HostReq.Resp : HostReq → Type
  | get _ => Except VcErr (List UInt8)
  | set .. => Except VcErr Unit
  | del _ => Except VcErr Unit
  | flush => Unit
  | stats => Stats
  | tables => Nat → List (Option (List UInt8))
  | malloc _ => Bool
  | overread n => Fin n → UInt8

/-- Programs of the server. -/
abbrev Prog := Calls HostReq.Resp

/-- The surroundings of one call: the time before it and the memory it gets, whether an
allocation of some size succeeds, and the bytes that a read past the end would see. -/
structure CallEnv where
  elapsed : Nat
  env : Env
  mallocOk : Nat → Bool
  spill : Nat → UInt8

structure Host where
  world : World
  /-- What the environment does at call number 0, 1, … -/
  envs : Nat → CallEnv
  calls : Nat

/-- The time that passes before the next call, and the next environment. -/
def Host.advance (h : Host) : Host :=
  { h with
    world := { h.world with now := h.world.now + (h.envs h.calls).elapsed }
    calls := h.calls + 1 }

/-- An allocation is a call that takes no time. -/
def Host.allocated (h : Host) : Host := { h with calls := h.calls + 1 }

@[simp] theorem Host.allocated_world (h : Host) : h.allocated.world = h.world := rfl

@[simp] theorem Host.allocated_envs (h : Host) : h.allocated.envs = h.envs := rfl

@[simp] theorem Host.allocated_calls (h : Host) : h.allocated.calls = h.calls + 1 := rfl

def Host.withCache (h : Host) (c : Cache) : Host := { h with world := { h.world with cache := c } }

/-- `vc_get`, and the bytes behind the address it returns. -/
def getBytes (c : Cache) (now : Nat) (key : List UInt8) : Except VcErr (List UInt8) :=
  match vcGet c now key with
  | (.ok (loc, len), c) => .ok ((c.readLoc loc len).map Cell.toByte)
  | (.error e, _) => .error e

def hostExec (h : Host) : (a : HostReq) → Host × a.Resp
  | .get key =>
    let g := h.advance
    (g.withCache (vcGet g.world.cache g.world.now key).2, getBytes g.world.cache g.world.now key)
  | .set key val ttlSec =>
    let g := h.advance
    let r := vcSet g.world.cache g.world.now (h.envs h.calls).env key val ttlSec
    (g.withCache r.2, r.1)
  | .del key =>
    let g := h.advance
    let r := vcDel g.world.cache g.world.now (h.envs h.calls).env key
    (g.withCache r.2, r.1)
  | .flush =>
    let g := h.advance
    (g.withCache (vcFlush g.world.cache), ())
  | .stats => (h, vcStats h.world.cache)
  | .tables => (h, h.world.cache.slotKeys)
  | .malloc size => (h.allocated, (h.envs h.calls).mallocOk size)
  | .overread _ => (h, fun i => (h.envs h.calls).spill i)

def Host.get (h : Host) (key : List UInt8) : Host × Except VcErr (List UInt8) := hostExec h (.get key)

def Host.set (h : Host) (key val : List UInt8) (ttlSec : UInt32) : Host × Except VcErr Unit :=
  hostExec h (.set key val ttlSec)

def Host.del (h : Host) (key : List UInt8) : Host × Except VcErr Unit := hostExec h (.del key)

/-- The steps of the cache that a call stands for. -/
def Host.ops (h : Host) : HostReq → List Op
  | .get key => [.tick (h.envs h.calls).elapsed, .get key]
  | .set key val ttlSec =>
    [.tick (h.envs h.calls).elapsed, .set key val ttlSec (h.envs h.calls).env]
  | .del key => [.tick (h.envs h.calls).elapsed, .del key (h.envs h.calls).env]
  | .flush => [.tick (h.envs h.calls).elapsed, .flush]
  | _ => []

theorem hostExec_world (h : Host) (a : HostReq) :
    (hostExec h a).1.world = Machine.run step h.world (h.ops a) := by
  cases a <;> rfl

/-- Whatever a program does, it does to the cache by a run of calls. -/
theorem run_world {R : Type} (p : Prog R) (h : Host) :
    ∃ ops, (p.run hostExec h).1.world = Machine.run step h.world ops := by
  induction p generalizing h with
  | ret r => exact ⟨[], rfl⟩
  | call a next ih =>
    obtain ⟨ops, hops⟩ := ih (hostExec h a).2 (hostExec h a).1
    exact ⟨h.ops a ++ ops, by rw [Machine.run_append, ← hostExec_world, ← hops]; rfl⟩

/-- Surroundings in which time stands still and memory never runs out. -/
def quietHost (c : Cache) : Host where
  world := ⟨c, 0⟩
  envs _ := ⟨0, ⟨true, 0, true, 0, 0⟩, fun _ => true, fun _ => 0⟩
  calls := 0

end VoidCache
