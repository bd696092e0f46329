import Mathlib.Algebra.Order.BigOperators.Group.Multiset
import VoidCache.Cache.SlabUse
import VoidCache.Cache.TwoStepGet

/-!
# The memory counter

`vc_set` adds the length of every value that it moves out of the table to `total_memory`, and no
code takes anything off again. `step_contents` says for each call which entry comes into the
tables and which ones leave. The counter is the number of bytes of the live values outside the
tables exactly as long as no entry with such a value leaves.
-/
namespace VoidCache

variable {c : Cache} {w : World} {lengths : Ptr → Nat} {d : EntryData} {C D : Multiset EntryData}

/-- The value is kept in a block or in a mapping of its own. -/
def EntryData.Outside (d : EntryData) : Prop := hasFlag d.flags (flagValSlab ||| flagValMmap) = true

instance (d : EntryData) : Decidable d.Outside := inferInstanceAs (Decidable (_ = true))

/-! ## Entries that come and go -/

/-- The entry that a call builds. -/
def World.arriving (w : World) : Op → Option EntryData
  | .set key val ttlSec env =>
    if Settable key val then
      (buildEntry env w.cache.mem w.cache.totalMemory (freshEntry w.now key val ttlSec) key val).1
    else none
  | _ => none

/-- The entries that a call takes out of the tables: an old copy of the key, the clock's victim,
the entry that a full table drops. -/
def World.leaving (w : World) : Op → Multiset EntryData
  | .set key val ttlSec env =>
    if (w.arriving (.set key val ttlSec env)).isSome then
      let r := removeOld (w.cache.shards (homeShard key)) w.cache.mem w.now key
        (freshEntry w.now key val ttlSec)
      one (w.cache.findEntry w.now key) +
        (one (victim r.1 r.2) + one (w.cache.dropped w.now env key val ttlSec))
    else 0
  | .del key _ => one (w.cache.findEntry w.now key)
  | .flush => w.cache.contents
  | _ => 0

section Set

variable {key val : List UInt8} {ttlSec : UInt32} {env : Env}

theorem arriving_set_eq_some {ne : EntryData} (h : w.arriving (.set key val ttlSec env) = some ne) :
    Settable key val ∧ ∃ m₁ total, buildEntry env w.cache.mem w.cache.totalMemory
      (freshEntry w.now key val ttlSec) key val = (some ne, m₁, total) := by
  unfold World.arriving at h
  dsimp only at h
  split_ifs at h with hset
  rcases hb : buildEntry env w.cache.mem w.cache.totalMemory
    (freshEntry w.now key val ttlSec) key val with ⟨e, m₁, total⟩
  rw [hb] at h
  exact ⟨hset, m₁, total, by rw [← h]⟩

/-- A set that builds no entry changes neither the tables nor the counter. -/
theorem step_set_of_none (hv : w.cache.Valid) (h : w.arriving (.set key val ttlSec env) = none) :
    (step w (.set key val ttlSec env)).1.cache.contents = w.cache.contents ∧
      (step w (.set key val ttlSec env)).1.cache.totalMemory = w.cache.totalMemory := by
  unfold World.arriving at h
  unfold step
  dsimp only at h ⊢
  rw [vcSet_eq]
  split_ifs at h ⊢ with hset
  · rcases vcSetStore_cases (hv.log (setReq env key val ttlSec)).owned hset.2.1 w.now env val
      ttlSec with ⟨ne, m₁, total, hb, -⟩ | ⟨m₁, -, -, -, heq⟩
    · have hb' : (buildEntry env w.cache.mem w.cache.totalMemory
          (freshEntry w.now key val ttlSec) key val).1 = some ne := congrArg Prod.fst hb
      rw [h] at hb'
      cases hb'
    · rw [heq]
      exact ⟨rfl, rfl⟩
  · exact ⟨rfl, rfl⟩

theorem vcSetStore_contents (hv : c.Valid) {key : List UInt8} (hk : key.length < 2 ^ 32) (now : Nat)
    (env : Env) (val : List UInt8) (ttlSec : UInt32) {ne : EntryData} {m₁ : Mem} {total : Nat}
    (hb : buildEntry env c.mem c.totalMemory (freshEntry now key val ttlSec) key val =
      (some ne, m₁, total)) :
    let r := removeOld (c.shards (homeShard key)) c.mem now key (freshEntry now key val ttlSec)
    (vcSetStore c now env key val ttlSec).2.contents + (one (c.findEntry now key) +
      (one (victim r.1 r.2) + one (c.dropped now env key val ttlSec))) = ne ::ₘ c.contents := by
  intro r
  have hown : Owned c.mem (0 + ptrsOf c.contents) := by
    rw [zero_add]
    exact hv.owned
  rcases vcSetStore_cases hown hk now env val ttlSec with
    ⟨ne', m', total', hb', -, hbuilt, hset⟩ | ⟨m', hb', -⟩
  · rw [hb] at hb'
    cases hb'
    obtain ⟨hold, hremove⟩ := hbuilt.same_shard hv
    obtain ⟨Q, hQ⟩ : ∃ Q, Beside c (homeShard key) Q := exists_beside c (shardIdx_lt _)
    obtain ⟨rest, hl⟩ := lockedSet_outcome (hv.shape (homeShard key)) m₁ now key ne
    have hbefore := hl.before
    rw [hold, hremove, victim_mem _ _ r.2] at hbefore
    have hdrop : c.dropped now env key val ttlSec =
        lockedLeft (c.shards (homeShard key)) m₁ now key ne := by rw [Cache.dropped, hb]
    have hafter := hl.after
    rw [hset, hdrop, hQ.contents _ _ rfl, hQ.self, hbefore]
    generalize lockedLeft (c.shards (homeShard key)) m₁ now key ne = left at hafter ⊢
    generalize (lockedSet (c.shards (homeShard key)) m₁ now key ne).1.contents = S at hafter ⊢
    calc S + Q + (one (c.findEntry now key) + (one (victim r.1 r.2) + one left))
        = (S + one left) + (one (c.findEntry now key) + (one (victim r.1 r.2) + Q)) := by ac_rfl
      _ = ne ::ₘ (one (c.findEntry now key) + (one (victim r.1 r.2) + rest) + Q) := by
        rw [hafter, ← Multiset.singleton_add, ← Multiset.singleton_add]
        ac_rfl
  · rw [hb] at hb'
    cases hb'

end Set

theorem vcDelStore_contents (hv : c.Valid) (now : Nat) (key : List UInt8) :
    (vcDelStore c now key).2.contents + one (c.findEntry now key) = c.contents := by
  rw [vcDelStore_eq, Cache.findEntry]
  cases hf : c.find now key with
  | none => simp
  | some slot =>
    obtain ⟨hlt, hm, -⟩ := shardFind_sound (hv.shape _) hf
    have htakes := Takes.kill (hv.shape (homeShard key)) c.mem hlt (slotMatches_iff.mp hm).1
    obtain ⟨Q, hQ⟩ : ∃ Q, Beside c (homeShard key) Q := exists_beside c (shardIdx_lt _)
    dsimp only
    rw [hQ.contents _ _ rfl, hQ.self, htakes.contents, Option.map_some]
    ac_rfl

/-- What is in the tables after a call, together with what left, is what was there before,
together with what came. -/
theorem step_contents (hv : w.cache.Valid) (op : Op) :
    (step w op).1.cache.contents + w.leaving op = one (w.arriving op) + w.cache.contents := by
  cases op with
  | set key val ttlSec env =>
    cases ha : w.arriving (.set key val ttlSec env) with
    | none =>
      rw [(step_set_of_none hv ha).1, World.leaving, ha]
      simp
    | some ne =>
      obtain ⟨hset, m₁, total, hb⟩ := arriving_set_eq_some ha
      have hstored := vcSetStore_contents (hv.log (setReq env key val ttlSec)) hset.2.1 w.now env val
        ttlSec hb
      rw [World.leaving, ha, step, vcSet_eq, if_pos hset, one_some, Multiset.singleton_add]
      exact hstored
  | get key =>
    show (vcGet w.cache w.now key).2.contents + 0 = one none + _
    rw [(vcGet_touched w.cache w.now key).contents, add_zero, one_none, zero_add]
  | del key env =>
    have hdel := vcDelStore_contents (hv.log (delReq env key)) w.now key
    rw [show w.arriving (.del key env) = none from rfl, one_none, zero_add]
    exact hdel
  | flush =>
    have hempty : (vcFlush w.cache).contents = 0 := Multiset.map_eq_zero.mp (vcFlush_outcome hv).2.1
    show (vcFlush w.cache).contents + w.cache.contents = one none + _
    rw [hempty, one_none]
  | tick ns =>
    show w.cache.contents + 0 = one none + _
    rw [add_zero, one_none, zero_add]

/-! ## Lengths

An entry records at most 65535 bytes of the length of its value. A run is therefore followed
together with a record of the lengths, by the object that holds the value. -/

/-- The length of the value that a call is given. -/
def Op.valLength : Op → Nat
  | .set _ val _ _ => val.length
  | _ => 0

/-- The bytes that a call moves out of the table. -/
def World.added (w : World) (op : Op) : Nat :=
  match w.arriving op with
  | some ne => if ne.Outside then op.valLength else 0
  | none => 0

def noteLength (lengths : Ptr → Nat) (w : World) (op : Op) : Ptr → Nat :=
  match w.arriving op with
  | some ne =>
    if ne.Outside then Function.update lengths (ne.ptrAt ne.valOff) op.valLength else lengths
  | none => lengths

def stepMeasuring (s : World × (Ptr → Nat)) (op : Op) : (World × (Ptr → Nat)) × Res :=
  (((step s.1 op).1, noteLength s.2 s.1 op), (step s.1 op).2)

theorem run_stepMeasuring (s : World × (Ptr → Nat)) (ops : List Op) :
    (Machine.run stepMeasuring s ops).1 = Machine.run step s.1 ops := by
  induction ops generalizing s with
  | nil => rfl
  | cons op ops ih => exact ih _

/-- The length of the value that an entry keeps outside the table. -/
def EntryData.measured (lengths : Ptr → Nat) (d : EntryData) : Nat :=
  if d.Outside then lengths (d.ptrAt d.valOff) else 0

/-- The bytes of the values that the entries `C` keep outside the tables. -/
def outsideBytes (lengths : Ptr → Nat) (C : Multiset EntryData) : Nat :=
  (C.map (EntryData.measured lengths)).sum

theorem outsideBytes_add (lengths : Ptr → Nat) (C D : Multiset EntryData) :
    outsideBytes lengths (C + D) = outsideBytes lengths C + outsideBytes lengths D := by
  simp [outsideBytes]

theorem outsideBytes_eq_zero (hpos : ∀ d ∈ C, d.Outside → 0 < lengths (d.ptrAt d.valOff)) :
    outsideBytes lengths C = 0 ↔ ∀ d ∈ C, ¬ d.Outside := by
  unfold outsideBytes EntryData.measured
  rw [Multiset.sum_eq_zero_iff]
  constructor
  · intro h d hd hout
    have hzero := h _ (Multiset.mem_map_of_mem _ hd)
    rw [if_pos hout] at hzero
    exact absurd hzero (hpos d hd hout).ne'
  · intro h n hn
    obtain ⟨d, hd, rfl⟩ := Multiset.mem_map.mp hn
    exact if_neg (h d hd)

theorem mem_ptrs_of_outside (h : d.Outside) : d.ptrAt d.valOff ∈ d.ptrs := by
  unfold EntryData.Outside at h
  simp [EntryData.ptrs, h]

section Step

variable {op : Op} {ne : EntryData}

theorem arriving_eq_some (h : w.arriving op = some ne) :
    ∃ key val ttlSec env, op = .set key val ttlSec env := by
  cases op with
  | set key val ttlSec env => exact ⟨key, val, ttlSec, env, rfl⟩
  | _ => cases h

/-- The object of a new value is not yet in use. -/
theorem arriving_fresh (hv : w.cache.Valid) (h : w.arriving op = some ne) (hout : ne.Outside) :
    ne.ptrAt ne.valOff ∉ ptrsOf w.cache.contents := by
  obtain ⟨key, val, ttlSec, env, rfl⟩ := arriving_eq_some h
  obtain ⟨hset, m₁, total, hb⟩ := arriving_set_eq_some h
  rcases vcSetStore_cases hv.owned hset.2.1 w.now env val ttlSec with
    ⟨ne', m', total', hb', -, hbuilt, -⟩ | ⟨m', hb', -⟩
  · rw [hb] at hb'
    cases hb'
    obtain ⟨fl, -, hn, -⟩ := hbuilt.owned
    have hdisj := (Multiset.nodup_add.mp (Multiset.nodup_add.mp hn).2.1).2.2
    exact Multiset.disjoint_left.mp hdisj (mem_ptrs_of_outside hout)
  · rw [hb] at hb'
    cases hb'

theorem noteLength_of_mem (hv : w.cache.Valid) (lengths : Ptr → Nat) (hd : d ∈ w.cache.contents)
    (hout : d.Outside) :
    noteLength lengths w op (d.ptrAt d.valOff) = lengths (d.ptrAt d.valOff) := by
  unfold noteLength
  cases ha : w.arriving op with
  | none => rfl
  | some ne =>
    dsimp only
    split_ifs with hne
    · refine Function.update_of_ne ?_ _ _
      intro he
      exact arriving_fresh hv ha hne (he ▸ ptrs_subset hd (mem_ptrs_of_outside hout))
    · rfl

theorem noteLength_arriving (h : w.arriving op = some ne) (hout : ne.Outside) :
    noteLength lengths w op (ne.ptrAt ne.valOff) = op.valLength := by
  unfold noteLength
  rw [h]
  dsimp only
  rw [if_pos hout, Function.update_self]

theorem outsideBytes_noteLength (hv : w.cache.Valid) :
    outsideBytes (noteLength lengths w op) w.cache.contents =
      outsideBytes lengths w.cache.contents := by
  unfold outsideBytes EntryData.measured
  congr 1
  refine Multiset.map_congr rfl fun d hd => ?_
  split_ifs with hout
  · exact noteLength_of_mem hv lengths hd hout
  · rfl

theorem outsideBytes_arriving :
    outsideBytes (noteLength lengths w op) (one (w.arriving op)) = w.added op := by
  unfold World.added
  cases ha : w.arriving op with
  | none => rfl
  | some ne =>
    rw [one_some, outsideBytes, Multiset.map_singleton, Multiset.sum_singleton, EntryData.measured]
    dsimp only
    split_ifs with hout
    · exact noteLength_arriving ha hout
    · rfl

/-- The sum that a call adds to fits in the counter. -/
def FitsCounter (w : World) (op : Op) : Prop := w.cache.totalMemory + op.valLength < 2 ^ 64

instance (w : World) (op : Op) : Decidable (FitsCounter w op) := inferInstanceAs (Decidable (_ < _))

theorem vcSetStore_totalMemory {key val : List UInt8} {ttlSec : UInt32} {env : Env} {now : Nat}
    {m₁ : Mem} {total : Nat}
    (hb : buildEntry env c.mem c.totalMemory (freshEntry now key val ttlSec) key val =
      (some ne, m₁, total)) :
    (vcSetStore c now env key val ttlSec).2.totalMemory = total := by
  unfold vcSetStore
  rw [hb]

theorem flushShards_totalMemory (n : Nat) :
    ∀ (i : Nat) (c : Cache), (flushShards n i c).totalMemory = c.totalMemory := by
  induction n with
  | zero => exact fun _ _ => rfl
  | succ n ih => exact fun i c => (ih (i + 1) _).trans rfl

theorem step_totalMemory (hv : w.cache.Valid) (hfit : FitsCounter w op) :
    (step w op).1.cache.totalMemory = w.cache.totalMemory + w.added op := by
  cases op with
  | set key val ttlSec env =>
    unfold World.added
    cases ha : w.arriving (.set key val ttlSec env) with
    | none => exact (step_set_of_none hv ha).2
    | some ne =>
      obtain ⟨hset, m₁, total, hb⟩ := arriving_set_eq_some ha
      have htotal : (step w (.set key val ttlSec env)).1.cache.totalMemory = total := by
        rw [step, vcSet_eq, if_pos hset]
        exact vcSetStore_totalMemory hb
      rw [htotal, total_buildEntry hb]
      show (if ne.Outside then (w.cache.totalMemory + val.length) % 2 ^ 64 else w.cache.totalMemory) =
        w.cache.totalMemory + if ne.Outside then val.length else 0
      by_cases hout : ne.Outside
      · rw [if_pos hout, if_pos hout]
        exact Nat.mod_eq_of_lt hfit
      · rw [if_neg hout, if_neg hout, Nat.add_zero]
  | get key =>
    show (vcGet w.cache w.now key).2.totalMemory = _
    rw [vcGet_eq]
    split <;> rfl
  | del key env =>
    show (vcDelStore (w.cache.log _) w.now key).2.totalMemory = _
    rw [vcDelStore_eq]
    split <;> rfl
  | flush => exact flushShards_totalMemory _ _ _
  | tick ns => rfl

/-- No entry that the call takes out of the tables keeps its value outside. -/
def KeepsOutside (w : World) (op : Op) : Prop := ∀ d ∈ w.leaving op, ¬ d.Outside

instance (w : World) (op : Op) : Decidable (KeepsOutside w op) :=
  inferInstanceAs (Decidable (∀ d ∈ _, _))

/-- What is kept along a run that notes the lengths. -/
structure Measured (s : World × (Ptr → Nat)) : Prop where
  valid : s.1.cache.Valid
  pos : ∀ d ∈ s.1.cache.contents, d.Outside → 0 < s.2 (d.ptrAt d.valOff)

/-- The counter is the number of bytes of the live values outside the tables. -/
def Accounted (s : World × (Ptr → Nat)) : Prop :=
  s.1.cache.totalMemory = outsideBytes s.2 s.1.cache.contents

namespace Measured

variable {s : World × (Ptr → Nat)}

/-- Lengths of what was in the tables and of what came. -/
theorem noted (h : Measured s) (op : Op) :
    ∀ d ∈ one (s.1.arriving op) + s.1.cache.contents, d.Outside →
      0 < noteLength s.2 s.1 op (d.ptrAt d.valOff) := by
  intro d hd hout
  rcases Multiset.mem_add.mp hd with hd | hd
  · cases ha : s.1.arriving op with
    | none =>
      rw [ha] at hd
      exact absurd hd (Multiset.notMem_zero d)
    | some ne =>
      rw [ha, one_some, Multiset.mem_singleton] at hd
      subst hd
      rw [noteLength_arriving ha hout]
      obtain ⟨key, val, ttlSec, env, rfl⟩ := arriving_eq_some ha
      exact (arriving_set_eq_some ha).1.2.2
  · rw [noteLength_of_mem h.valid s.2 hd hout]
    exact h.pos d hd hout

theorem step (h : Measured s) (op : Op) : Measured (stepMeasuring s op).1 := by
  refine ⟨(step_effect h.valid op).valid h.valid, fun d hd hout => h.noted op d ?_ hout⟩
  rw [← step_contents h.valid op]
  exact Multiset.mem_add.mpr (Or.inl hd)

/-- A call keeps the counter right exactly when no value outside the tables leaves. -/
theorem accounted_iff (h : Measured s) (hacc : Accounted s) (hfit : FitsCounter s.1 op) :
    Accounted (stepMeasuring s op).1 ↔ KeepsOutside s.1 op := by
  have hmoves := congrArg (outsideBytes (noteLength s.2 s.1 op)) (step_contents h.valid op)
  rw [outsideBytes_add, outsideBytes_add, outsideBytes_arriving, outsideBytes_noteLength h.valid]
    at hmoves
  have htotal := step_totalMemory h.valid hfit
  have hzero : outsideBytes (noteLength s.2 s.1 op) (s.1.leaving op) = 0 ↔ KeepsOutside s.1 op := by
    refine outsideBytes_eq_zero fun d hd => h.noted op d ?_
    rw [← step_contents h.valid op]
    exact Multiset.mem_add.mpr (Or.inr hd)
  unfold Accounted at hacc
  rw [← hzero]
  show (VoidCache.step s.1 op).1.cache.totalMemory =
    outsideBytes (noteLength s.2 s.1 op) (VoidCache.step s.1 op).1.cache.contents ↔ _
  omega

theorem run_accounted_iff (h : Measured s) (hacc : Accounted s) {ops : List Op}
    (hfit : Machine.Along VoidCache.step FitsCounter s.1 ops) :
    (∀ pre, pre <+: ops → Accounted (Machine.run stepMeasuring s pre)) ↔
      Machine.Along VoidCache.step KeepsOutside s.1 ops := by
  induction ops generalizing s with
  | nil =>
    refine ⟨fun _ => trivial, fun _ pre hpre => ?_⟩
    rw [List.prefix_nil.mp hpre]
    exact hacc
  | cons op ops ih =>
    obtain ⟨hop, hops⟩ := hfit
    have hstep := h.accounted_iff hacc hop
    constructor
    · intro hall
      have hacc' : Accounted (stepMeasuring s op).1 := hall [op] ⟨ops, rfl⟩
      refine ⟨hstep.mp hacc', (ih (h.step op) hacc' hops).mp fun pre hpre => ?_⟩
      exact hall (op :: pre) (List.cons_prefix_cons.mpr ⟨rfl, hpre⟩)
    · rintro ⟨hkeep, hrest⟩ pre hpre
      have hacc' := hstep.mpr hkeep
      cases pre with
      | nil => exact hacc
      | cons op' pre =>
        obtain ⟨rfl, htail⟩ := List.cons_prefix_cons.mp hpre
        exact (ih (h.step op') hacc' hops).mpr hrest pre htail

end Measured

end Step

/-- In every run whose sums fit in the counter, the counter is at all times the number of bytes
of the live values outside the tables if and only if no call takes an entry with such a value
out of them. -/
theorem memory_accounted {file : Option (Nat → UInt8)} {slots : UInt32}
    (hc : vcCreate file slots = some c) (now : Nat) (ops : List Op)
    (hfit : Machine.Along step FitsCounter ⟨c, now⟩ ops) :
    (∀ pre, pre <+: ops →
      let w := Machine.run step ⟨c, now⟩ pre
      let lengths := (Machine.run stepMeasuring (⟨c, now⟩, fun _ => 0) pre).2
      w.cache.totalMemory = outsideBytes lengths w.cache.contents) ↔
    Machine.Along step KeepsOutside ⟨c, now⟩ ops := by
  have hempty : c.contents = 0 := Multiset.map_eq_zero.mp (vcCreate_outcome hc).2
  obtain ⟨cap, -, -, rfl⟩ := vcCreate_cases hc
  have hinit : Measured (⟨newCache file cap, now⟩, fun _ => 0) := by
    refine ⟨(vcCreate_outcome hc).1, fun d hd => ?_⟩
    rw [hempty] at hd
    exact absurd hd (Multiset.notMem_zero d)
  have hacc : Accounted (⟨newCache file cap, now⟩, fun _ => 0) := by
    unfold Accounted
    rw [hempty]
    rfl
  rw [← hinit.run_accounted_iff hacc hfit]
  refine forall_congr' fun pre => forall_congr' fun _ => ?_
  unfold Accounted
  rw [run_stepMeasuring]

theorem accounted_two_values :
    let ops := [Op.set [97] (List.replicate 40 7) 0 calmEnv, .set [98] [1] 0 calmEnv, .del [98] calmEnv]
    ∀ pre, pre <+: ops →
      let w := Machine.run step ⟨newCache none 8, 0⟩ pre
      let lengths := (Machine.run stepMeasuring (⟨newCache none 8, 0⟩, fun _ => 0) pre).2
      w.cache.totalMemory = outsideBytes lengths w.cache.contents :=
  have hc : vcCreate none 8 = some (newCache none 8) := rfl
  (memory_accounted hc 0 _ (by decide +kernel)).mpr (by decide +kernel)

/-- After a value of 40 bytes was deleted, the counter still has its bytes. -/
theorem deleted_value_stays_counted :
    let ops := [Op.set [97] (List.replicate 40 7) 0 calmEnv, .del [97] calmEnv]
    let w := Machine.run step ⟨newCache none 8, 0⟩ ops
    let lengths := (Machine.run stepMeasuring (⟨newCache none 8, 0⟩, fun _ => 0) ops).2
    vcCreate none 8 = some (newCache none 8) ∧ w.cache.totalMemory = 40 ∧
      outsideBytes lengths w.cache.contents = 0 := by
  refine ⟨rfl, ?_⟩
  decide +kernel

end VoidCache
