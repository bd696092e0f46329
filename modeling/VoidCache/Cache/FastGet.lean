import VoidCache.Cache.WriteSections
import VoidCache.Cache.Ops

/-!
# `vc_get` without the lock

One shard as a sequence lock: any number of threads run write sections, single stores of one
thread between single loads of the reader, and the reader makes up to `VC_SEQLOCK_RETRY`
attempts. When it leaves the fast path, its answer is that of `_shard_find` and `entry_val` on
the table as it was when the attempt read the even sequence number.

`vc_set`, `vc_del` and `vc_flush` change the table inside their write sections only. Outside of
them there are the clock bits and the counters, and the memory that a `vc_set` prepares before
it takes the lock.
-/
namespace VoidCache

open Seqlock (Act Reader bracket)

def seqlockRetry : Nat := 8

/-- The reader of `key`. `clock tries` is the time `entry_expired` sees in the attempt after
which `tries` are left. -/
def fastPath (clock : Nat → Nat) (key : List UInt8) : Seqlock.Path Field.Val FastOut where
  prog tries := fastLoads (clock tries) key
  check r := r ≠ .inline

abbrev ShardState (T : Type) := Seqlock.State T TableMem Field.Val FastOut

variable {T : Type} [DecidableEq T]

def shardStep (clock : Nat → Nat) (key : List UInt8) (s : ShardState T) (a : Act T Write) :
    ShardState T × Unit := Seqlock.step tableGuard Write.apply (fastPath clock key) s a

/-- Nobody is in the lock and the reader has not begun. -/
def ShardState.start (T : Type) (d : TableMem) : ShardState T where
  wlock := false
  seq := 0
  data := d
  phase _ := .outside
  reader := .start seqlockRetry

/-- Stores outside the write sections touch neither the fields the reader loads nor the keys of
live entries. -/
def Undisturbed (s : ShardState T) (a : Act T Write) : Prop :=
  Seqlock.Outside tableGuard Write.apply s a

/-! ## Stores outside the write sections -/

/-- The stores of `vc_get`: to clock bits and counters. -/
def Write.Quiet : Write → Prop
  | .slot _ (.clockBit _) | .hits _ | .misses _ => True
  | _ => False

/-- Tables that the reader cannot tell apart. -/
theorem agrees_of_same {d d' : TableMem} (hcap : d'.shard.cap = d.shard.cap)
    (hstate : ∀ k, (d'.entry k).state = (d.entry k).state)
    (hdata : ∀ k, (d'.entry k).toEntryData = (d.entry k).toEntryData)
    (hmem : ∀ p, d.KeyBuffer p → d'.mem.read p = d.mem.read p) : tableGuard.Agrees d d' := by
  intro f hf
  cases f with
  | cap => exact hcap
  | state k => exact hstate k
  | flags k => exact congrArg EntryData.flags (hdata k)
  | valLen k => exact congrArg EntryData.valLen (hdata k)
  | keyLen k => exact congrArg EntryData.keyLen (hdata k)
  | keyHash k => exact congrArg EntryData.keyHash (hdata k)
  | expireNs k => exact congrArg EntryData.expireNs (hdata k)
  | cell b j =>
    cases b with
    | payload k => exact congrArg (·.payload[j]?) (hdata k)
    | obj p => exact congrArg (·[j]?) (hmem p hf)

theorem Write.Quiet.agrees {w : Write} (h : w.Quiet) (d : TableMem) :
    tableGuard.Agrees d (w.apply d) := by
  cases w with
  | slot i w =>
    cases w with
    | clockBit b =>
      refine agrees_of_same rfl (fun k => ?_) (fun k => ?_) fun _ _ => rfl
      all_goals
        by_cases hk : k = i <;>
          simp [hk, Write.apply, SlotWrite.apply, TableMem.entry, Shard.setSlot]
    | _ => exact h.elim
  | hits n => exact agrees_of_same rfl (fun _ => rfl) (fun _ => rfl) fun _ _ => rfl
  | misses n => exact agrees_of_same rfl (fun _ => rfl) (fun _ => rfl) fun _ _ => rfl
  | _ => exact h.elim

theorem agrees_mem {d : TableMem} {m : Mem} (h : ∀ p, d.KeyBuffer p → m.read p = d.mem.read p) :
    tableGuard.Agrees d ((Write.mem m).apply d) :=
  agrees_of_same rfl (fun _ => rfl) (fun _ => rfl) h

/-- Runs whose only stores outside the sections are those of `vc_get`. -/
def QuietActs (acts : List (Act T Write)) : Prop := ∀ w, Act.touch w ∈ acts → w.Quiet

theorem QuietActs.undisturbed {acts : List (Act T Write)} (h : QuietActs acts) (clock : Nat → Nat)
    (key : List UInt8) (s : ShardState T) :
    Machine.Along (shardStep clock key) Undisturbed s acts := by
  apply Machine.along_of_forall
  intro a ha s
  cases a with
  | touch w => exact (h w ha).agrees s.data
  | _ => trivial

/-! ## The answers of the fast path -/

/-- Whatever the threads do, an answer of the fast path is right for the table as it was when
the attempt began. -/
theorem fast_path_answer (clock : Nat → Nat) (key : List UInt8) (d : TableMem)
    (acts : List (Act T Write))
    (hrun : Machine.Along (shardStep clock key) Undisturbed (ShardState.start T d) acts)
    {tries seq : Nat} {snap : TableMem} {r : FastOut}
    (hleft : (Machine.run (shardStep clock key) (ShardState.start T d) acts).reader =
      .left tries seq snap r) :
    r = snap.lookup (clock tries) key ∧
      ∃ before after, acts = before ++ .reader :: after ∧
        (Machine.run (shardStep clock key) (ShardState.start T d) before).reader =
          .start (tries + 1) ∧
        (Machine.run (shardStep clock key) (ShardState.start T d) before).seq = seq ∧
        seq % 2 = 0 ∧
        (Machine.run (shardStep clock key) (ShardState.start T d) before).data = snap := by
  have hprog : (fastPath clock key).Protected tableGuard := fun tries d => by
    obtain ⟨r, hgives, _⟩ := gives_fastLoads d (clock tries) key
    exact hgives.within
  have hstart : Seqlock.Writers (ShardState.start T d) :=
    ⟨fun _ _ h => absurd rfl h, fun _ h => absurd rfl h, by simp [ShardState.start]⟩
  obtain ⟨⟨hcheck, heval⟩, hbegan⟩ := Seqlock.left_eq_eval hprog hstart rfl hrun hleft
  refine ⟨?_, hbegan⟩
  obtain ⟨r', hgives, hr'⟩ := gives_fastLoads snap (clock tries) key
  have hr : r = r' := heval.trans hgives.eval
  subst hr
  exact hr'.resolve_right (by simpa [fastPath] using hcheck)

/-- The first table and the memory after `vc_create`. -/
def TableMem.create (cap : Nat) : TableMem where
  shard := emptyShard cap
  mem := (newCache none cap).mem
  size _ := by simp [emptyShard, emptyEntry]

/-- The reader finds the table empty, a writer comes in before the check, and the second
attempt has to wait for the end of the section. -/
theorem answer_after_retry :
    let ne : EntryData :=
      { freshEntry 0 [97] (List.replicate 40 7) 0 with
        flags := flagValSlab
        payload := packed (Cell.bytes [97]) (Cell.ofPtr (.block 0 0)) }
    let d := TableMem.create 2
    let acts : List (Act Nat Write) :=
      [.reader, .reader, .reader, .lock 1, .seqBegin 1, .reader, .lock 2, .reader] ++
        (setSection d.shard d.mem 0 [97] ne).map (.write 1) ++
        [.seqEnd 1, .reader, .unlock 1, .touch (.slot 0 (.clockBit true))] ++
        List.replicate 50 .reader
    ∃ tries seq snap,
      (Machine.run (shardStep (fun _ => 0) [97]) (ShardState.start Nat d) acts).reader =
        .left tries seq snap (.value (.obj (.block 0 0)) 40) ∧
      snap.lookup 0 [97] = .value (.obj (.block 0 0)) 40 := by
  intro ne d acts
  have hquiet : QuietActs acts := by
    intro w hw
    obtain rfl : w = .slot 0 (.clockBit true) := by simpa [acts] using hw
    trivial
  have hout : (Machine.run (shardStep (fun _ => 0) [97]) (ShardState.start Nat d) acts).reader.outcome =
      some (.value (.obj (.block 0 0)) 40) := by decide +kernel
  obtain ⟨tries, seq, snap, hleft⟩ := Reader.left_of_outcome hout
  exact ⟨tries, seq, snap, hleft,
    (fast_path_answer (fun _ => 0) [97] d acts (hquiet.undisturbed _ _ _) hleft).1.symm⟩

/-! ## The calls as write sections -/

/-- The table of shard `si` and the memory of a cache. -/
def TableMem.IsOf (d : TableMem) (c : Cache) (si : Nat) : Prop :=
  d.shard = c.shards si ∧ d.mem = c.mem

variable {clock : Nat → Nat} {rkey key : List UInt8} {c : Cache} {s : ShardState T} {t : T}

theorem TableMem.KeyBuffer.mem_ptrsOf {d : TableMem} {p : Ptr} (h : d.KeyBuffer p) {si : Nat}
    (hd : d.IsOf c si) (hsi : si < numShards) : p ∈ ptrsOf c.contents := by
  obtain ⟨slot, hslot, hlive, hlong, rfl⟩ := h
  have hmem : (d.entry slot).toEntryData ∈ c.contents :=
    slotSum.mem_iff.mpr ⟨si, hsi, hd.1 ▸ Shard.mem_contents.mpr ⟨slot, hslot, hlive, rfl⟩⟩
  exact ptrs_subset hmem (by simp [EntryData.ptrs, hlong])

/-- `vc_set` after the log record: allocation, and then the write section. -/
def setActs (t : T) (c : Cache) (now : Nat) (env : Env) (key val : List UInt8) (ttlSec : UInt32) :
    List (Act T Write) :=
  match buildEntry env c.mem c.totalMemory (freshEntry now key val ttlSec) key val with
  | (none, m, _) => [.touch (.mem m)]
  | (some ne, m, _) =>
    .touch (.mem m) :: bracket t (setSection (c.shards (shardIdx ne.keyHash)) m now key ne)

def delActs (t : T) (c : Cache) (now : Nat) (key : List UInt8) : List (Act T Write) :=
  bracket t (delSection (c.shards (homeShard key)) c.mem now key)

/-- One round of the loop of `vc_flush`. -/
def flushActs (t : T) (s : Shard) (m : Mem) : List (Act T Write) := bracket t (flushSection s m)

/-- A write section on its own. -/
theorem run_section (clock : Nat → Nat) (rkey : List UInt8) (hfree : s.wlock = false)
    (ht : s.phase t = .outside) {ws : List Write} {sh : Shard} {m : Mem} (h : LeadsTo ws s.data sh m) :
    (Machine.run (shardStep clock rkey) s (bracket t ws)).data.shard = sh ∧
      (Machine.run (shardStep clock rkey) s (bracket t ws)).data.mem = m := by
  have hrun : Machine.run (shardStep clock rkey) s (bracket t ws) = _ :=
    Seqlock.run_bracket hfree ht ws
  rw [hrun]
  exact h

/-- From a shard of a valid cache, and without overlap, the section of `vc_set` leads to the
shard after the call; the preparation before it disturbs no reader. -/
theorem setActs_run (hv : c.Valid) (hk : key.length < 2 ^ 32) (hfree : s.wlock = false)
    (ht : s.phase t = .outside) (hd : s.data.IsOf c (homeShard key)) (now : Nat) (env : Env)
    (val : List UInt8) (ttlSec : UInt32) :
    Machine.Along (shardStep clock rkey) Undisturbed s (setActs t c now env key val ttlSec) ∧
      (Machine.run (shardStep clock rkey) s (setActs t c now env key val ttlSec)).data.IsOf
        (vcSetStore c now env key val ttlSec).2 (homeShard key) := by
  have hspare : ∀ {m : Mem}, Frame c.mem m (ptrsOf c.contents) →
      tableGuard.Agrees s.data ((Write.mem m).apply s.data) := fun hf => agrees_mem fun p hp => by
    rw [hd.2]
    exact hf p (hp.mem_ptrsOf hd (shardIdx_lt _))
  unfold setActs
  rcases vcSetStore_cases hv.owned hk now env val ttlSec with
    ⟨ne, m1, total, hb, hsi, hbuilt, hcall⟩ | ⟨m1, hb, _, hframe, hcall⟩
  · rw [hb, hcall]
    dsimp only
    rw [hsi]
    refine ⟨⟨hspare hbuilt.frame, Seqlock.along_bracket t _⟩, ?_⟩
    have hset := setSection_leadsTo ((Write.mem m1).apply s.data) now key
      (length_payload_buildEntry hb)
    have hshard : ((Write.mem m1).apply s.data).shard = c.shards (homeShard key) := hd.1
    rw [hshard] at hset
    obtain ⟨hs, hm⟩ := run_section clock rkey (t := t)
      (s := { s with data := (Write.mem m1).apply s.data }) hfree ht hset
    exact ⟨hs.trans (by simp [Cache.setShard]; rfl), hm⟩
  · rw [hb, hcall]
    exact ⟨⟨hspare hframe, trivial⟩, hd.1, rfl⟩

/-- `vc_del` changes the table inside its section only. -/
theorem delActs_run (hfree : s.wlock = false) (ht : s.phase t = .outside)
    (hd : s.data.IsOf c (homeShard key)) (now : Nat) :
    (Machine.run (shardStep clock rkey) s (delActs t c now key)).data.IsOf
      (vcDelStore c now key).2 (homeShard key) := by
  have hdel := removeScript_leadsTo s.data now key (key.length % 2 ^ 32) (wyhash64 key 0) rfl
  rw [hd.1, hd.2] at hdel
  obtain ⟨hs, hm⟩ := run_section clock rkey hfree ht hdel
  rw [vcDelStore_eq, Cache.find]
  refine ⟨hs.trans ?_, hm.trans ?_⟩
  all_goals
    cases shardFind c.mem now (c.shards (homeShard key)) key (key.length % 2 ^ 32) (wyhash64 key 0)
    all_goals simp [Cache.setShard]

/-- So does each round of `vc_flush`. -/
theorem flushActs_run (hfree : s.wlock = false) (ht : s.phase t = .outside) :
    (Machine.run (shardStep clock rkey) s (flushActs t s.data.shard s.data.mem)).data.shard =
        (flushShard s.data.shard s.data.mem).1 ∧
      (Machine.run (shardStep clock rkey) s (flushActs t s.data.shard s.data.mem)).data.mem =
        (flushShard s.data.shard s.data.mem).2 :=
  run_section clock rkey hfree ht (flushSection_leadsTo s.data)

/-- The stores of `vc_get` once it has its answer. -/
def getStores (c : Cache) (now : Nat) (key : List UInt8) : List Write :=
  match c.find now key with
  | none => [.misses (c.shards (homeShard key)).miss.misses]
  | some slot =>
    [.slot slot (.clockBit true), .hits (((c.shards (homeShard key)).hits + 1) % 2 ^ 64)]

/-- `vc_get` has no section, and needs none. -/
theorem getStores_quiet (c : Cache) (now : Nat) (key : List UInt8) :
    ∀ w ∈ getStores c now key, w.Quiet := by
  unfold getStores
  split <;> simp [Write.Quiet]

theorem getStores_leadsTo {d : TableMem} (hd : d.IsOf c (homeShard key)) (now : Nat) :
    LeadsTo (getStores c now key) d ((vcGet c now key).2.shards (homeShard key))
      (vcGet c now key).2.mem := by
  rw [vcGet_eq, getStores]
  cases c.find now key with
  | none => exact ⟨by simp [Seqlock.applyAll, Write.apply, Cache.setShard, Shard.miss, hd.1], hd.2⟩
  | some slot =>
    refine ⟨?_, hd.2⟩
    simp [Seqlock.applyAll, Write.apply, SlotWrite.apply, Cache.setShard, Shard.hit, Shard.setSlot,
      TableMem.entry, hd.1]

/-- The answer of the fast path is the one `vc_get` gives when it runs alone. -/
theorem vcGet_eq_lookup {d : TableMem} (hd : d.IsOf c (homeShard key)) (now : Nat) :
    (d.lookup now key = .notFnd ∧ (vcGet c now key).1 = .error .notFnd) ∨
      ∃ loc len, d.lookup now key = .value loc len ∧ (vcGet c now key).1 = .ok (loc, len) := by
  rw [vcGet_eq, TableMem.lookup, hd.1, hd.2, Cache.find]
  cases hf : shardFind c.mem now (c.shards (homeShard key)) key (key.length % 2 ^ 32)
    (wyhash64 key 0) with
  | none => exact Or.inl ⟨rfl, rfl⟩
  | some slot =>
    refine Or.inr ⟨_, _, rfl, ?_⟩
    rw [TableMem.entry, hd.1]
    rfl

end VoidCache
