import VoidCache.Net.KeyMap
import VoidCache.Cache.SlabBlocks
import VoidCache.Cache.LastWrite

/-!
# A cache that is large enough is a map

An eviction cache may forget. Here is how much room it takes to rule that out: if all sets are for
keys of a set `K`, with values of at most `L` bytes and no time to live, `K` has fewer keys than 85%
of the slots of a table and than there are slab blocks for `L` bytes, and `malloc` does not fail,
then no call fails, nothing is evicted, and every result is the one of a map. The counts behind it:
a table has at most one live entry for each key of `K`, and each live entry holds at most one block.
-/
namespace VoidCache

variable {K : Finset (List UInt8)} {L : Nat} {w : World} {m : KvMap} {op : Op}

/-- The calls that the room is enough for. -/
def Op.Fits (K : Finset (List UInt8)) (L : Nat) : Op → Prop
  | .set key val ttlSec env =>
    key ∈ K ∧ Settable key val ∧ val.length ≤ L ∧ ttlSec = 0 ∧ env.mallocOk = true
  | .get key => key.length < 2 ^ 32
  | .del key _ => key.length < 2 ^ 32
  | _ => True

instance Op.decidableFits : (op : Op) → Decidable (op.Fits K L)
  | .set .. => inferInstanceAs (Decidable (_ ∧ _))
  | .get _ | .del .. => inferInstanceAs (Decidable (_ < _))
  | .flush | .tick _ => isTrue trivial

/-- The tables have room for all keys of `K`, and the slab for a value of each. -/
structure Enough (K : Finset (List UInt8)) (L : Nat) (c : Cache) : Prop where
  slots : ∀ si, si < numShards → K.card * 100 / (c.shards si).cap < 85
  blocks : K.card < slabBlocks (slabClassFor L)
  len : L ≤ valMax

/-- A cache that holds keys of `K` only, for ever, and all the blocks that it was created with. -/
structure Ample (K : Finset (List UInt8)) (L : Nat) (w : World) : Prop extends Steady w where
  forever : ∀ i ∈ w.cache.items, i.expireNs = 0
  keys : ∀ i ∈ w.cache.items, ∃ k ∈ K, i.key = Cell.bytes k
  balanced : ∃ fl, FreeLists w.cache.mem.slab fl ∧ Balanced fl w.cache.contents
  enough : Enough K L w.cache

/-! ## The counts -/

namespace Ample

theorem card_items_le (h : Ample K L w) : w.cache.items.card ≤ K.card := by
  classical
  have hnodup : (w.cache.items.map Item.key).Nodup := h.unique
  have hsub : (w.cache.items.map Item.key).toFinset ⊆ K.image Cell.bytes := by
    intro x hx
    obtain ⟨i, hi, rfl⟩ := Multiset.mem_map.mp (Multiset.mem_toFinset.mp hx)
    obtain ⟨k, hk, hik⟩ := h.keys i hi
    exact Finset.mem_image.mpr ⟨k, hk, hik.symm⟩
  calc w.cache.items.card = (w.cache.items.map Item.key).card := (Multiset.card_map ..).symm
    _ = (w.cache.items.map Item.key).toFinset.card := (Multiset.toFinset_card_of_nodup hnodup).symm
    _ ≤ (K.image Cell.bytes).card := Finset.card_le_card hsub
    _ ≤ K.card := Finset.card_image_le

theorem card_contents_le (h : Ample K L w) : w.cache.contents.card ≤ K.card := by
  have hcard := h.card_items_le
  rwa [Cache.items, Multiset.card_map] at hcard

theorem liveCount_le (h : Ample K L w) {si : Nat} (hsi : si < numShards) :
    (w.cache.shards si).liveCount ≤ K.card := by
  obtain ⟨R, hR⟩ := slotSum.exists_rest Shard.contents w.cache.shards hsi
  have hsplit : w.cache.contents = (w.cache.shards si).contents + R := by
    rw [← hR, Function.update_eq_self]
    rfl
  have hcard := h.card_contents_le
  rw [hsplit, Multiset.card_add, Shard.card_contents] at hcard
  omega

theorem below (h : Ample K L w) : w.cache.Below := by
  intro si hsi
  have hle := Nat.mul_le_mul_right 100 (h.liveCount_le hsi)
  exact lt_of_le_of_lt (Nat.div_le_div_right hle) (h.enough.slots si hsi)

theorem unshadowed (h : Ample K L w) (now : Nat) (key : List UInt8) : w.cache.Unshadowed now key :=
  fun i hi _ => by simp [Item.expired, h.forever i hi]

theorem calm (h : Ample K L w) (hop : op.Fits K L) : Calm w op where
  below := h.below
  unhidden := by
    cases op with
    | set key => exact h.unshadowed w.now key
    | _ => trivial
  fits := by
    cases op with
    | del key => exact hop
    | _ => trivial

end Ample

theorem slabBlocks_anti {c d : Nat} (h : c ≤ d) : slabBlocks d ≤ slabBlocks c := by
  have hpos (c : Nat) : 0 < slabClassSize c := by
    rw [slabClassSize, Nat.shiftLeft_eq]
    exact Nat.mul_pos (by decide) (Nat.pow_pos (by decide))
  simp only [slabBlocks, Nat.mul_div_cancel _ (hpos _)]
  exact Nat.div_le_div_left (slabClassSize_mono h) (hpos c)

theorem usedBlocks_card_le (cls : Nat) (C : Multiset EntryData) : (usedBlocks cls C).card ≤ C.card := by
  have hone (d : EntryData) : d.valBlock.card ≤ 1 := by
    unfold EntryData.valBlock
    split <;> simp
  have hin (d : EntryData) : (d.valBlock.filter (Ptr.InClass cls)).card ≤ 1 :=
    (Multiset.card_le_card (Multiset.filter_le ..)).trans (hone d)
  induction C using Multiset.induction_on with
  | empty => simp [usedBlocks]
  | cons d C ih =>
    have hd := hin d
    rw [usedBlocks] at ih ⊢
    rw [Multiset.cons_bind, Multiset.filter_add, Multiset.card_add, Multiset.card_cons]
    omega

/-- Some block of the class is free while fewer entries are live than it has blocks. -/
theorem Ample.head_ne_null (h : Ample K L w) {n : Nat} (hn : n ≤ L) :
    (w.cache.mem.slab.classes (slabClassFor n)).head ≠ .null := by
  obtain ⟨fl, hf, hb⟩ := h.balanced
  have hL := h.enough.len
  have hcls : slabClassFor n ≤ slabClassFor L :=
    slabClassFor_le (hn.trans (le_slabClassSize_slabClassFor (hL.trans (by decide))))
  have hused := (usedBlocks_card_le (slabClassFor n) w.cache.contents).trans h.card_contents_le
  have hcount := congrArg Multiset.card (hb.classes _ (slabClassFor_lt n))
  rw [Multiset.card_add, Multiset.coe_card, Multiset.coe_card, initialFree, List.length_map,
    List.length_range] at hcount
  have hmore := slabBlocks_anti hcls
  have hblocks := h.enough.blocks
  intro hnull
  have hlist := hf.linked _ (slabClassFor_lt n)
  rw [hnull] at hlist
  rw [hlist.eq_nil, List.length_nil] at hcount
  omega

theorem Ample.canStore (h : Ample K L w) {key val : List UInt8} {env : Env} (hlen : val.length ≤ L)
    (hmalloc : env.mallocOk = true) : CanStore env w.cache.mem key val := by
  have hL := h.enough.len
  have hslab : val.length ≤ slabClassSize (slabClasses - 1) := (hlen.trans hL).trans (by decide)
  unfold CanStore
  split
  · trivial
  · exact ⟨h.head_ne_null hlen, .inr hmalloc⟩

/-! ## Every call keeps the room -/

section Step

variable {c c' : Cache} {now : Nat} {r : Res}

/-- The entries after a step were there before, up to the one that a set has stored. -/
theorem Effect.mem_items (h : Effect c now op r c') {i : Item} (hi : i ∈ c'.items) :
    i ∈ c.items ∨ ∃ key val ttlSec env, op = .set key val ttlSec env ∧ i = newItem now key val ttlSec := by
  cases h with
  | @stored key val ttlSec env _ ev left rest hset hs =>
    rcases Multiset.mem_cons.mp (hs.after ▸ Multiset.mem_add.mpr (.inl hi)) with rfl | hi
    · exact .inr ⟨key, val, ttlSec, env, rfl, rfl⟩
    · left
      rw [hs.before]
      exact Multiset.mem_add.mpr (.inr (Multiset.mem_add.mpr (.inr hi)))
  | oom _ _ hsame => exact .inl (hsame ▸ hi)
  | invalid => exact .inl hi
  | got ht => exact .inl (ht.items ▸ hi)
  | deleted hd => exact .inl (hd.items ▸ Multiset.mem_cons_of_mem hi)
  | absent _ ht => exact .inl (ht.items ▸ hi)
  | flushed _ hz =>
    rw [hz] at hi
    exact absurd hi (Multiset.notMem_zero i)
  | ticked => exact .inl hi

/-- No step changes the size of a table. -/
theorem Effect.cap (h : Effect c now op r c') {si : Nat} (hsi : si < numShards) :
    (c'.shards si).cap = (c.shards si).cap := by
  cases h with
  | @stored key _ _ _ _ _ _ _ _ hs =>
    by_cases hhome : si = homeShard key
    · rw [hhome, hs.cap]
    · rw [hs.others si hhome]
  | oom _ _ _ hsame => rw [hsame]
  | invalid => rfl
  | got ht => exact (ht.same si).cap
  | @deleted key _ _ _ hd =>
    by_cases hhome : si = homeShard key
    · rw [hhome, hd.cap]
    · rw [hd.others si hhome]
  | absent _ ht => exact (ht.same si).cap
  | flushed _ _ he => exact (he si hsi).cap
  | ticked => rfl

end Step

namespace Ample

theorem undropped (h : Ample K L w) (op : Op) : Undropped w op := by
  cases op with
  | set key val ttlSec env =>
    exact fun hset => h.valid.dropped_eq_none hset (h.below.hasRoom h.valid w.now key) env ttlSec
  | _ => trivial

theorem step (h : Ample K L w) (hop : op.Fits K L) : Ample K L (VoidCache.step w op).1 := by
  have he := step_effect h.valid op
  have hnew {i : Item} (hi : i ∈ (VoidCache.step w op).1.cache.items) :
      i.expireNs = 0 ∧ ∃ k ∈ K, i.key = Cell.bytes k := by
    rcases he.mem_items hi with hold | ⟨key, val, ttlSec, env, rfl, rfl⟩
    · exact ⟨h.forever i hold, h.keys i hold⟩
    · obtain ⟨hkey, -, -, rfl, -⟩ := hop
      exact ⟨rfl, key, hkey, rfl⟩
  have hkept : op.ClassKept := by
    cases op with
    | set key val ttlSec env =>
      have hlen := h.enough.len
      have hval := hop.2.2.1
      exact .inl ((hval.trans hlen).trans (by decide))
    | _ => trivial
  obtain ⟨fl, hf, hb⟩ := h.balanced
  obtain ⟨fl', hf', hslab⟩ := step_slabEffect h.valid hf op
  refine { h.toSteady.step (h.calm hop) with
    forever := fun i hi => (hnew hi).1
    keys := fun i hi => (hnew hi).2
    balanced := ⟨fl', hf', hslab.balanced (h.undropped op) hkept hb⟩
    enough := ⟨fun si hsi => ?_, h.enough.blocks, h.enough.len⟩ }
  rw [he.cap hsi]
  exact h.enough.slots si hsi

theorem run (h : Ample K L w) {ops : List Op} (hops : ∀ op ∈ ops, op.Fits K L) :
    Ample K L (Machine.run VoidCache.step w ops) := by
  induction ops generalizing w with
  | nil => exact h
  | cons op ops ih =>
    obtain ⟨hop, hops⟩ := List.forall_mem_cons.mp hops
    exact ih (h.step hop) hops

theorem create {file : Option (Nat → UInt8)} {slots : UInt32} {c : Cache}
    (hc : vcCreate file slots = some c) (henough : Enough K L c) (now : Nat) : Ample K L ⟨c, now⟩ := by
  obtain ⟨hvalid, hempty⟩ := vcCreate_outcome hc
  obtain ⟨hlists, hcontents⟩ := vcCreate_lists hc
  have hnone (i : Item) : i ∉ c.items := by
    rw [hempty]
    exact Multiset.notMem_zero i
  refine ⟨⟨hvalid, Cache.Unique.of_empty hempty, vcCreate_exact hc⟩, fun i hi => absurd hi (hnone i),
    fun i hi => absurd hi (hnone i), ⟨initialFree, hlists, ?_⟩, henough⟩
  rw [hcontents]
  exact ⟨fun cls _ => add_zero _, fun d hd => absurd hd (Multiset.notMem_zero d)⟩

end Ample

/-! ## The cache against the map -/

/-- What a caller sees of a call: its result, and the bytes of a value it returns. -/
inductive Outcome where
  | done (r : Except VcErr Unit)
  | value (r : Except VcErr (List UInt8))
  | none
  deriving DecidableEq

/-- A step, with what the caller sees of it. -/
def seenStep (w : World) (op : Op) : World × Outcome :=
  ((step w op).1,
    match op with
    | .set key val ttlSec env => .done (vcSet w.cache w.now env key val ttlSec).1
    | .get key => .value (getBytes w.cache w.now key)
    | .del key env => .done (vcDel w.cache w.now env key).1
    | _ => .none)

/-- The same calls on a map. -/
def mapStep (m : KvMap) : Op → KvMap × Outcome
  | .set key val _ _ => (Function.update m key (some val), .done (.ok ()))
  | .get key => (m, .value (lookupResult (m key)))
  | .del key _ => (Function.update m key none, .done (if (m key).isSome then .ok () else .error .notFnd))
  | .flush => (fun _ => none, .none)
  | .tick _ => (m, .none)

/-- The world as a single call finds it. -/
def hostAt (w : World) (env : Env) : Host := ⟨w, fun _ => ⟨0, env, fun _ => true, fun _ => 0⟩, 0⟩

theorem Steady.flush_reflects (h : Steady w) : (vcFlush w.cache).Reflects fun _ => none := by
  have he := step_effect h.valid .flush
  refine ⟨he.valid h.valid, he.exact trivial h.exact, fun key => ?_⟩
  show (vcFlush w.cache).copies key = 0
  rw [Cache.copies, (vcFlush_outcome h.valid).2.1]
  rfl

theorem seenStep_map (h : Ample K L w) (hm : w.cache.Reflects m) (hop : op.Fits K L) :
    (seenStep w op).2 = (mapStep m op).2 ∧ (seenStep w op).1.cache.Reflects (mapStep m op).1 := by
  cases op with
  | set key val ttlSec env =>
    obtain ⟨hkey, hset, hlen, rfl, hmalloc⟩ := hop
    obtain ⟨hr, hnext⟩ := @set_reflects (hostAt w env) m key val 0 hm ⟨h.unshadowed _ key, h.below⟩
      fun _ => h.canStore hlen hmalloc
    rw [if_pos hset] at hr
    rw [kvSet, if_pos hset, List.take_of_length_le (hlen.trans h.enough.len)] at hnext
    exact ⟨congrArg Outcome.done hr, hnext⟩
  | get key =>
    obtain ⟨hr, hnext⟩ := get_reflects (h := hostAt w calmEnv) hm hop (h.unshadowed _ key)
    exact ⟨congrArg Outcome.value hr, hnext⟩
  | del key env =>
    obtain ⟨hr, hnext⟩ := del_reflects (h := hostAt w env) hm hop (h.unshadowed _ key)
    exact ⟨congrArg Outcome.done hr, hnext⟩
  | flush => exact ⟨rfl, h.flush_reflects⟩
  | tick ns => exact ⟨rfl, hm⟩

theorem trace_map {ops : List Op} (h : Ample K L w) (hm : w.cache.Reflects m)
    (hops : ∀ op ∈ ops, op.Fits K L) : Machine.trace seenStep w ops = Machine.trace mapStep m ops := by
  induction ops generalizing w m with
  | nil => rfl
  | cons op ops ih =>
    obtain ⟨hop, hops⟩ := List.forall_mem_cons.mp hops
    obtain ⟨hr, hnext⟩ := seenStep_map h hm hop
    rw [Machine.trace, Machine.trace, hr]
    exact congrArg _ (ih (h.step hop) hnext hops)

/-- All sets are for keys of `K`, with values of at most `L` bytes and no time to live; `K` has
fewer keys than 85% of the slots of a table, and than the slab has blocks for `L` bytes; `malloc`
does not fail. Then every run has the results of a map: no set fails, and every key shows its last
value until it is deleted or flushed. -/
theorem large_cache_is_a_map {file : Option (Nat → UInt8)} {slots : UInt32} {c : Cache}
    (hc : vcCreate file slots = some c) (henough : Enough K L c) (now : Nat) (ops : List Op)
    (hops : ∀ op ∈ ops, op.Fits K L) :
    Machine.trace seenStep ⟨c, now⟩ ops = Machine.trace mapStep (fun _ => none) ops := by
  exact trace_map (.create hc henough now) (.create hc) hops

/-- Two keys in a cache of eight slots a table; the values of forty bytes are in the slab. -/
theorem two_keys_are_a_map :
    let ops : List Op := [.set [97] (List.replicate 40 7) 0 calmEnv, .set [98] [1] 0 calmEnv,
      .set [97] (List.replicate 40 8) 0 calmEnv, .get [97], .del [97] calmEnv, .get [97], .get [98]]
    (Machine.trace seenStep ⟨newCache none 8, 0⟩ ops).map Prod.snd =
      [.done (.ok ()), .done (.ok ()), .done (.ok ()), .value (.ok (List.replicate 40 8)),
        .done (.ok ()), .value (.error .notFnd), .value (.ok [1])] := by
  intro ops
  have henough : Enough {[97], [98]} 40 (newCache none 8) :=
    ⟨fun si _ => (by decide : 2 * 100 / 8 < 85), by decide, by decide⟩
  have hops : ∀ op ∈ ops, op.Fits {[97], [98]} 40 := by decide
  have hcreate : vcCreate none 8 = some (newCache none 8) := rfl
  rw [large_cache_is_a_map hcreate henough 0 ops hops]
  rfl

end VoidCache
