import VoidCache.Cache.Occupancy
import Mathlib.Algebra.Order.BigOperators.Group.List

/-!
# Replaying the log

Recovery scans the ring from offset 0 and replays the sets and deletes it finds, in order,
up to the first bad checksum. `Faithful` collects what a call must not do if the replay is to
give the contents of the tables: fail for lack of memory, lose its entry in a full table,
delete a key that the log truncates, or flush a store that is not empty.
-/
namespace VoidCache

variable {c c' : Cache} {now : Nat} {key val : List UInt8}

/-- A key-value store as a function. -/
abbrev KvMap := List UInt8 → Option (List UInt8)

namespace LogRec

def checked (r : LogRec) : Bool := r.crc32 == (walCrc r.op r.key r.val).toNat

def apply (m : KvMap) (r : LogRec) : KvMap :=
  if r.op = walSet then Function.update m r.key (some r.val)
  else if r.op = walDel then Function.update m r.key none
  else m

end LogRec

/-- The documented recovery: replay up to the first record with a bad checksum. -/
def replay (recs : List LogRec) : KvMap :=
  (recs.takeWhile LogRec.checked).foldl LogRec.apply fun _ => none

/-- The tables hold `val` under `key`. -/
def Cache.Stores (c : Cache) (key val : List UInt8) : Prop :=
  ∃ si, si < numShards ∧ ∃ i, i < (c.shards si).cap ∧ ((c.shards si).table i).state = .live ∧
    (itemOf c.mem ((c.shards si).table i).toEntryData).key = Cell.bytes key ∧
    (itemOf c.mem ((c.shards si).table i).toEntryData).val = Cell.bytes val

instance (c : Cache) (key val : List UInt8) : Decidable (c.Stores key val) :=
  inferInstanceAs (Decidable (∃ si, si < numShards ∧ ∃ i, i < (c.shards si).cap ∧ _ ∧ _ ∧ _))

theorem Cache.stores_iff :
    c.Stores key val ↔ ∃ i ∈ c.items, i.key = Cell.bytes key ∧ i.val = Cell.bytes val := by
  constructor
  · rintro ⟨si, hsi, i, hi, hl, hk, hval⟩
    exact ⟨_, Cache.Valid.mem_items.mpr ⟨_, Cache.Valid.mem_contents.mpr
      ⟨si, hsi, Shard.mem_contents.mpr ⟨i, hi, hl, rfl⟩⟩, rfl⟩, hk, hval⟩
  · rintro ⟨_, hi, hk, hval⟩
    obtain ⟨d, hd, rfl⟩ := Cache.Valid.mem_items.mp hi
    obtain ⟨si, hsi, hd⟩ := Cache.Valid.mem_contents.mp hd
    obtain ⟨slot, hslot, hl, rfl⟩ := Shard.mem_contents.mp hd
    exact ⟨si, hsi, slot, hslot, hl, hk, hval⟩

/-! ## What is logged -/

/-- The records a call asks the log for. They depend on its arguments alone. -/
def Op.logged : Op → List WalReq
  | .set key val ttlSec env => if Settable key val then [setReq env key val ttlSec] else []
  | .del key env => [delReq env key]
  | _ => []

theorem vcSetStore_wal (c : Cache) (now : Nat) (env : Env) (key val : List UInt8) (ttlSec : UInt32) :
    (vcSetStore c now env key val ttlSec).2.wal = c.wal := by
  unfold vcSetStore
  split <;> rfl

theorem vcGet_wal (c : Cache) (now : Nat) (key : List UInt8) : (vcGet c now key).2.wal = c.wal := by
  rw [vcGet_eq]
  split <;> rfl

theorem vcDelStore_wal (c : Cache) (now : Nat) (key : List UInt8) :
    (vcDelStore c now key).2.wal = c.wal := by
  rw [vcDelStore_eq]
  split <;> rfl

theorem flushShards_wal (n : Nat) : ∀ (i : Nat) (c : Cache), (flushShards n i c).wal = c.wal := by
  induction n with
  | zero => exact fun _ _ => rfl
  | succ n ih => exact fun i c => (ih (i + 1) _).trans rfl

theorem step_wal (w : World) (op : Op) :
    (step w op).1.cache.wal = w.cache.wal.map (walRun · op.logged) := by
  have hsame : w.cache.wal = w.cache.wal.map (walRun · []) := by
    cases w.cache.wal <;> rfl
  cases op with
  | set key val ttlSec env =>
    unfold step Op.logged
    dsimp only
    rw [vcSet_eq]
    split_ifs
    · exact vcSetStore_wal _ _ _ _ _ _
    · exact hsame
  | get key => exact (vcGet_wal _ _ _).trans hsame
  | del key env => exact vcDelStore_wal _ _ _
  | flush => exact (flushShards_wal _ _ _).trans hsame
  | tick ns => exact hsame

theorem run_wal (w : World) (ops : List Op) :
    (Machine.run step w ops).cache.wal = w.cache.wal.map (walRun · (ops.flatMap Op.logged)) := by
  induction ops generalizing w with
  | nil => cases hw : w.cache.wal <;> simp [Machine.run, hw, walRun]
  | cons op ops ih =>
    rw [Machine.run, ih, step_wal, Option.map_map]
    congr 1
    funext l
    simp [walRun, List.foldl_append]

/-- What the scan of the ring gives back after a run whose records fit in the ring together. -/
theorem run_decode {file : Nat → UInt8} {slots : UInt32} (hc : vcCreate (some file) slots = some c)
    (now : Nat) {ops : List Op}
    (hfit : ((ops.flatMap Op.logged).map WalReq.paddedSize).sum ≤ walRingSize) :
    ∃ l, (Machine.run step ⟨c, now⟩ ops).cache.wal = some l ∧
      walDecode l = some ((ops.flatMap Op.logged).mapIdx fun i r => r.logRec (i % 2 ^ 64)) := by
  obtain ⟨cap, _, _, rfl⟩ := vcCreate_cases hc
  have hfits : ∀ r ∈ ops.flatMap Op.logged, r.Fits := fun r hr =>
    (List.le_sum_of_mem (List.mem_map_of_mem hr)).trans hfit
  have hall : sinceWrap (ops.flatMap Op.logged) = ops.flatMap Op.logged :=
    foldl_stack_eq_append [] ((Nat.zero_add _).trans_le hfit)
  have h := (ringHolds_walRun file hfits).decode
  rw [hall, Nat.sub_self] at h
  exact ⟨walRun (walInit file) (ops.flatMap Op.logged), run_wal _ _, by simpa using h⟩

/-! ## Replaying what was logged -/

/-- The effect of a record on the map; its number and checksum do not matter. -/
def WalReq.apply (m : KvMap) (r : WalReq) : KvMap := LogRec.apply m (r.logRec 0)

theorem checked_logRec (r : WalReq) (seq : Nat) : LogRec.checked (r.logRec seq) = true :=
  beq_self_eq_true _

theorem replay_logged (reqs : List WalReq) (num : Nat → Nat) :
    replay (reqs.mapIdx fun i r => r.logRec (num i)) = reqs.foldl WalReq.apply fun _ => none := by
  unfold replay
  generalize (fun _ => none : KvMap) = m
  induction reqs generalizing m num with
  | nil => rfl
  | cons r rs ih =>
    rw [List.mapIdx_cons, List.takeWhile_cons_of_pos (checked_logRec r _)]
    exact ih (fun i => num (i + 1)) _

theorem clip32_of_lt {bs : List UInt8} (h : bs.length < 2 ^ 32) : clip32 bs = bs := by
  rw [clip32, Nat.mod_eq_of_lt h, List.take_length]

theorem length_clip32 (bs : List UInt8) : (clip32 bs).length = bs.length % 2 ^ 32 := by
  rw [clip32, List.length_take]
  omega

theorem apply_setReq (m : KvMap) (env : Env) (ttlSec : UInt32) (hk : key.length < 2 ^ 32)
    (hval : val.length < 2 ^ 32) :
    WalReq.apply m (setReq env key val ttlSec) = Function.update m key (some val) := by
  simp [WalReq.apply, setReq, WalReq.logRec, LogRec.apply, clip32_of_lt hk, clip32_of_lt hval]

theorem apply_delReq (m : KvMap) (env : Env) (hk : key.length < 2 ^ 32) :
    WalReq.apply m (delReq env key) = Function.update m key none := by
  simp [WalReq.apply, delReq, WalReq.logRec, LogRec.apply, walSet, walDel, clip32_of_lt hk]

/-! ## The tables follow the log -/

/-- Every allocation that `vc_set` makes for this entry succeeds. -/
def CanStore (env : Env) (m : Mem) (key val : List UInt8) : Prop :=
  if key.length + val.length ≤ payloadSize then True
  else if val.length ≤ slabClassSize (slabClasses - 1) then
    (m.slab.classes (slabClassFor val.length)).head ≠ .null ∧
      (key.length ≤ payloadSize - ptrSize ∨ env.mallocOk = true)
  else env.mmapOk = true ∧ env.mallocOk = true

instance (env : Env) (m : Mem) (key val : List UInt8) : Decidable (CanStore env m key val) :=
  inferInstanceAs (Decidable (ite _ _ _))

theorem buildEntry_ne_none_iff (env : Env) (m : Mem) (total : Nat) (ne : EntryData) :
    (buildEntry env m total ne key val).1 ≠ none ↔ CanStore env m key val := by
  unfold CanStore buildEntry malloc mmapAnon slabAlloc
  grind

theorem vcSetStore_ok_iff (c : Cache) (env : Env) (now : Nat) (ttlSec : UInt32) :
    (vcSetStore c now env key val ttlSec).1 = .ok () ↔ CanStore env c.mem key val := by
  rw [← buildEntry_ne_none_iff env c.mem c.totalMemory (freshEntry now key val ttlSec)]
  unfold vcSetStore
  rcases buildEntry env c.mem c.totalMemory (freshEntry now key val ttlSec) key val with
    ⟨_ | ne, m, total⟩
  · simp
  · simp

theorem vcSetStore_of_canStore {env : Env} (h : CanStore env c.mem key val) (now : Nat)
    (ttlSec : UInt32) : (vcSetStore c now env key val ttlSec).1 = .ok () :=
  (vcSetStore_ok_iff c env now ttlSec).mpr h

/-- No eviction counter rises. -/
def NoEviction (w : World) (op : Op) : Prop :=
  ∀ si, si < numShards → ((step w op).1.cache.shards si).evictions = (w.cache.shards si).evictions

instance (w : World) (op : Op) : Decidable (NoEviction w op) :=
  inferInstanceAs (Decidable (∀ si, si < numShards → _))

/-- The call does to the tables what it logs: a set can be stored, the key of a delete is not
truncated in the log, and a flush, which logs nothing, finds nothing to remove. -/
def Faithful (w : World) : Op → Prop
  | .set key val _ env =>
    Settable key val → CanStore env w.cache.mem key val ∧ w.cache.HasRoom w.now key
  | .del key _ => key.length < 2 ^ 32
  | .flush => ∀ si, si < numShards → (w.cache.shards si).liveCount = 0
  | _ => True

instance (w : World) : (op : Op) → Decidable (Faithful w op)
  | .set .. => inferInstanceAs (Decidable (_ → _ ∧ _))
  | .del key _ => inferInstanceAs (Decidable (key.length < 2 ^ 32))
  | .flush => inferInstanceAs (Decidable (∀ si, si < numShards → _))
  | .get _ | .tick _ => isTrue trivial

/-- The map holds what the tables hold. -/
def Mirrors (m : KvMap) (c : Cache) : Prop := ∀ k v, m k = some v ↔ c.Stores k v

/-- Items of other keys come and go together with what is stored under those keys. -/
theorem Cache.stores_congr (h : ∀ i : Item, i.key ≠ Cell.bytes key → (i ∈ c'.items ↔ i ∈ c.items))
    {k : List UInt8} (hk : k ≠ key) (v : List UInt8) : c'.Stores k v ↔ c.Stores k v := by
  have hne : ∀ i : Item, i.key = Cell.bytes k → i.key ≠ Cell.bytes key := fun i hi he =>
    hk (Cell.bytes_injective (hi.symm.trans he))
  rw [Cache.stores_iff, Cache.stores_iff]
  exact exists_congr fun i =>
    ⟨fun ⟨hi, hik, hv⟩ => ⟨(h i (hne i hik)).mp hi, hik, hv⟩,
      fun ⟨hi, hik, hv⟩ => ⟨(h i (hne i hik)).mpr hi, hik, hv⟩⟩

theorem Mirrors.update {m : KvMap} (h : Mirrors m c) {o : Option (List UInt8)}
    (hother : ∀ i : Item, i.key ≠ Cell.bytes key → (i ∈ c'.items ↔ i ∈ c.items))
    (hself : ∀ v, o = some v ↔ c'.Stores key v) : Mirrors (Function.update m key o) c' := by
  intro k v
  by_cases hk : k = key
  · rw [hk, Function.update_self]
    exact hself v
  · rw [Function.update_of_ne hk, h k v, Cache.stores_congr hother hk]

theorem Mirrors.congr {m : KvMap} (h : Mirrors m c) (hi : c'.items = c.items) : Mirrors m c' :=
  fun k v => by
    rw [h k v, Cache.stores_iff, Cache.stores_iff, hi]

/-! ### Set -/

/-- After a set that does not lose its own entry the key has the new value and no other. -/
theorem SetOk.stores {ev : Option Item} {rest : Multiset Item} (hc : c.Settled)
    (hk : key.length < 2 ^ 32) (hs : SetOk c now key (newItem now key val 0) c' ev none rest)
    (v : List UInt8) : some (val.take valMax) = some v ↔ c'.Stores key v := by
  have hafter := hs.after
  rw [one_none, add_zero] at hafter
  rw [Cache.stores_iff, hafter, Option.some.injEq]
  constructor
  · rintro rfl
    exact ⟨_, Multiset.mem_cons_self _ _, rfl, rfl⟩
  · rintro ⟨i, hi, hik, hiv⟩
    rcases Multiset.mem_cons.mp hi with rfl | hi
    · exact Cell.bytes_injective hiv
    · exact absurd hik (hs.rest_key hc.valid hk hc.unique (hc.unshadowed now key)
        (Multiset.mem_add.mpr (Or.inr hi)))

/-- A set that neither evicts nor drops anything leaves the other keys alone. -/
theorem SetOk.mem_items_of_ne {rest : Multiset Item} (hc : c.Settled) (hk : key.length < 2 ^ 32)
    (hs : SetOk c now key (newItem now key val 0) c' none none rest) {i : Item}
    (hne : i.key ≠ Cell.bytes key) : i ∈ c'.items ↔ i ∈ c.items := by
  have hbefore := hs.before
  have hafter := hs.after
  rw [one_none, zero_add] at hbefore
  rw [one_none, add_zero] at hafter
  rw [hafter, hbefore, Multiset.mem_cons, Multiset.mem_add]
  constructor
  · rintro (rfl | hi)
    · exact absurd rfl hne
    · exact Or.inr hi
  · rintro (hi | hi)
    · cases hfind : c.findItem now key with
      | none =>
        rw [hfind] at hi
        exact absurd hi (Multiset.notMem_zero i)
      | some old =>
        rw [hfind, one_some, Multiset.mem_singleton] at hi
        exact absurd (hi ▸ findItem_key hc.valid hk hfind) hne
    · exact Or.inr hi

theorem SetOk.settled {ev left : Option Item} {rest : Multiset Item} (hc : c.Settled)
    (hk : key.length < 2 ^ 32) (hs : SetOk c now key (newItem now key val 0) c' ev left rest) :
    c'.Settled := by
  refine ⟨hs.valid, hs.unique hc.valid hk rfl hc.unique (hc.unshadowed now key), fun i hi => ?_⟩
  rcases Multiset.mem_cons.mp (hs.after ▸ Multiset.mem_add.mpr (Or.inl hi)) with rfl | hi
  · rfl
  · refine hc.forever i ?_
    rw [hs.before]
    exact Multiset.mem_add.mpr (Or.inr (Multiset.mem_add.mpr (Or.inr hi)))

/-- A counter that stays the same was not increased. -/
theorem SetOk.ev_eq_none {new : Item} {ev left : Option Item} {rest : Multiset Item}
    (hs : SetOk c now key new c' ev left rest)
    (hev : ∀ si, si < numShards → (c'.shards si).evictions = (c.shards si).evictions) : ev = none := by
  by_contra hne
  have hsame : (c'.shards (homeShard key)).evictions = (c.shards (homeShard key)).evictions :=
    hev _ (shardIdx_lt _)
  rw [hs.evictions, if_neg hne] at hsame
  omega

/-- The table part of a set that can be stored and evicts nothing. -/
theorem vcSetStore_stores {env : Env} (hc : c.Settled) (hset : Settable key val)
    (hcan : CanStore env c.mem key val) (hroom : c.HasRoom now key)
    (hev : ∀ si, si < numShards →
      ((vcSetStore c now env key val 0).2.shards si).evictions = (c.shards si).evictions) :
    (vcSetStore c now env key val 0).2.Settled ∧
      (∀ v, some (val.take valMax) = some v ↔ (vcSetStore c now env key val 0).2.Stores key v) ∧
      ∀ i : Item, i.key ≠ Cell.bytes key →
        (i ∈ (vcSetStore c now env key val 0).2.items ↔ i ∈ c.items) := by
  have hk := hset.2.1
  rcases vcSetStore_outcome hc.valid hset.1 hk now env val 0 with ⟨ev, left, rest, _, hs⟩ | ⟨hr, _⟩
  · rw [hs.ev_eq_none hev, hs.room hroom] at hs
    exact ⟨hs.settled hc hk, hs.stores hc hk, fun i => hs.mem_items_of_ne hc hk⟩
  · rw [vcSetStore_of_canStore hcan] at hr
    cases hr

/-! ### Delete -/

/-- The table part of a delete. -/
theorem vcDelStore_stores (hc : c.Settled) (hk : key.length < 2 ^ 32) (now : Nat) :
    (vcDelStore c now key).2.Settled ∧
      (∀ v, (none : Option (List UInt8)) = some v ↔ (vcDelStore c now key).2.Stores key v) ∧
      ∀ i : Item, i.key ≠ Cell.bytes key → (i ∈ (vcDelStore c now key).2.items ↔ i ∈ c.items) := by
  have hgone : ∀ c' : Cache, (∀ i ∈ c'.items, i.key ≠ Cell.bytes key) →
      ∀ v, (none : Option (List UInt8)) = some v ↔ c'.Stores key v := fun c' h v => by
    rw [Cache.stores_iff]
    constructor
    · intro hv
      cases hv
    · rintro ⟨i, hi, hik, _⟩
      exact absurd hik (h i hi)
  rcases vcDelStore_outcome hc.valid now key with ⟨i, _, hd⟩ | ⟨hf, hr⟩
  · generalize (vcDelStore c now key).2 = c' at hd ⊢
    have hle : c'.items ≤ c.items := hd.items ▸ Multiset.le_cons_self _ _
    have hkey := findItem_key hc.valid hk hd.found
    refine ⟨⟨hd.valid, hc.unique.of_le hle, fun j hj => hc.forever j (Multiset.mem_of_le hle hj)⟩,
      hgone c' fun j hj => hkey ▸ hc.unique.notMem hd.items hj, fun j hj => ?_⟩
    rw [hd.items, Multiset.mem_cons]
    constructor
    · exact Or.inr
    · rintro (rfl | h)
      · exact absurd hkey hj
      · exact h
  · rw [hr]
    refine ⟨hc, hgone c fun i hi hik => ?_, fun _ _ => Iff.rfl⟩
    obtain ⟨j, hj, hjk, hx⟩ := hc.valid.find_none hk hf hi hik
    rw [hc.unshadowed now key j hj hjk] at hx
    exact absurd hx (by simp)

/-! ### Runs -/

/-- Nothing is live. -/
theorem items_eq_zero (h : ∀ si, si < numShards → (c.shards si).liveCount = 0) : c.items = 0 := by
  refine Multiset.eq_zero_of_forall_notMem fun i hi => ?_
  obtain ⟨d, hd, rfl⟩ := Cache.Valid.mem_items.mp hi
  obtain ⟨si, hsi, hd⟩ := Cache.Valid.mem_contents.mp hd
  have hcard := h si hsi
  rw [← Shard.card_contents, Multiset.card_eq_zero] at hcard
  rw [hcard] at hd
  exact absurd hd (Multiset.notMem_zero d)

/-- One call keeps the tables equal to the replay of what has been logged. -/
theorem mirrors_step {w : World} {op : Op} {m : KvMap} (hc : w.cache.Settled) (hplain : op.Plain)
    (hev : NoEviction w op) (hop : Faithful w op) (h : Mirrors m w.cache) :
    Mirrors (op.logged.foldl WalReq.apply m) (step w op).1.cache := by
  have he := step_effect hc.valid op
  cases op with
  | set key val ttlSec env =>
    obtain ⟨rfl, hval⟩ := hplain
    by_cases hset : Settable key val
    · obtain ⟨hcan, hroom⟩ := hop hset
      have hstep : (step w (.set key val 0 env)).1.cache =
          (vcSetStore (w.cache.log (setReq env key val 0)) w.now env key val 0).2 := by
        show (vcSet w.cache w.now env key val 0).2 = _
        rw [vcSet_eq, if_pos hset]
      unfold NoEviction at hev
      rw [hstep] at hev ⊢
      obtain ⟨_, hself, hother⟩ := vcSetStore_stores (hc.log _) hset hcan hroom hev
      rw [Op.logged, if_pos hset, List.foldl_cons, List.foldl_nil,
        apply_setReq _ _ _ hset.2.1 (lt_of_le_of_lt hval (by decide))]
      rw [List.take_of_length_le hval] at hself
      exact h.update hother hself
    · have hstep : (step w (.set key val 0 env)).1.cache = w.cache := by
        show (vcSet w.cache w.now env key val 0).2 = _
        rw [vcSet_eq, if_neg hset]
      rw [hstep, Op.logged, if_neg hset]
      exact h
  | get key =>
    refine h.congr ?_
    generalize (step w (.get key)).1.cache = c' at he ⊢
    cases he with
    | got ht => exact ht.items
  | del key env =>
    obtain ⟨_, hself, hother⟩ := vcDelStore_stores (hc.log (delReq env key)) hop w.now
    show Mirrors (WalReq.apply m (delReq env key)) _
    rw [apply_delReq m env hop]
    exact h.update hother hself
  | flush =>
    refine h.congr ?_
    generalize (step w .flush).1.cache = c' at he ⊢
    cases he with
    | flushed _ hz => rw [hz, items_eq_zero hop]
  | tick ns => exact h

/-- The tables agree with the log along every run of faithful calls. -/
theorem mirrors_run {file : Option (Nat → UInt8)} {slots : UInt32} (hc : vcCreate file slots = some c)
    (now : Nat) {ops : List Op} (hplain : ∀ op ∈ ops, op.Plain)
    (hok : Machine.Along step (fun w op => NoEviction w op ∧ Faithful w op) ⟨c, now⟩ ops) :
    Mirrors ((ops.flatMap Op.logged).foldl WalReq.apply fun _ => none)
      (Machine.run step ⟨c, now⟩ ops).cache := by
  have h0 : Mirrors (fun _ => none) c := fun k v => by
    simp [Cache.stores_iff, (vcCreate_outcome hc).2]
  have h := Machine.trace_inv
    (I := fun tr w => Fresh tr w ∧
      Mirrors (((tr.map Prod.fst).flatMap Op.logged).foldl WalReq.apply fun _ => none) w.cache)
    (fun tr w op h hop => ⟨h.1.step hop.2.noTtl, by
      simpa using mirrors_step h.1.settled hop.2 hop.1.1 hop.1.2 h.2⟩)
    [] ⟨Fresh.create hc now, h0⟩ (hok.and_forall hplain)
  simpa using h.2

/-- In every run without time to live, without evictions and with a log that has not wrapped,
whose calls are all faithful, replaying the log gives exactly what the tables hold. -/
theorem replay_eq_tables {file : Nat → UInt8} {slots : UInt32} {c : Cache}
    (hc : vcCreate (some file) slots = some c) (now : Nat) (ops : List Op)
    (hplain : ∀ op ∈ ops, op.Plain)
    (hfit : ((ops.flatMap Op.logged).map WalReq.paddedSize).sum ≤ walRingSize)
    (hok : Machine.Along step (fun w op => NoEviction w op ∧ Faithful w op) ⟨c, now⟩ ops) :
    let w := Machine.run step ⟨c, now⟩ ops
    ∃ l recs, w.cache.wal = some l ∧ walDecode l = some recs ∧
      ∀ key val, replay recs key = some val ↔ w.cache.Stores key val := by
  intro w
  obtain ⟨l, hl, hdec⟩ := run_decode hc now hfit
  refine ⟨l, _, hl, hdec, fun key val => ?_⟩
  rw [replay_logged]
  exact mirrors_run hc now hplain hok key val

/-- Two sets of one key and a delete that finds nothing. -/
theorem replay_two_sets_and_delete :
    let w := Machine.run step ⟨newCache (some fun _ => 0) 2, 0⟩
      [.set [97] [1] 0 calmEnv, .set [97] [2] 0 calmEnv, .del [122] calmEnv]
    ∃ l recs, w.cache.wal = some l ∧ walDecode l = some recs ∧
      ∀ key val, replay recs key = some val ↔ w.cache.Stores key val := by
  exact replay_eq_tables
    (show vcCreate (some fun _ => 0) 2 = some (newCache (some fun _ => 0) 2) from rfl) 0 _
    (by simp [Op.Plain, valMax]) (by decide) (by decide +kernel)

/-- A flush is not logged: the log still puts `a` back when the tables are empty. -/
theorem flushed_key_is_replayed :
    let ops : List Op := [.set [97] [1] 0 calmEnv, .flush]
    let w := Machine.run step ⟨newCache (some fun _ => 0) 2, 0⟩ ops
    vcCreate (some fun _ => 0) 2 = some (newCache (some fun _ => 0) 2) ∧ (∀ op ∈ ops, op.Plain) ∧
      ((ops.flatMap Op.logged).map WalReq.paddedSize).sum ≤ walRingSize ∧
      Machine.Along step NoEviction ⟨newCache (some fun _ => 0) 2, 0⟩ ops ∧
      (w.cache.wal.bind walDecode).map (fun recs => replay recs [97]) = some (some [1]) ∧
      ∀ key val, ¬ w.cache.Stores key val := by
  refine ⟨rfl, by simp [Op.Plain, valMax], by decide, by decide +kernel, by decide +kernel,
    fun key val => ?_⟩
  have hlive : ∀ si, si < numShards → ((Machine.run step ⟨newCache (some fun _ => 0) 2, 0⟩
      [.set [97] [1] 0 calmEnv, .flush]).cache.shards si).liveCount = 0 := by decide +kernel
  rw [Cache.stores_iff, items_eq_zero hlive]
  simp

/-! ## The bounds of the ring -/

/-- The lengths in the header that a record starts with. -/
def WalReq.recordedKeyLen (r : WalReq) (seq : Nat) : Nat := leField (r.hdr seq).bytes 8 4

def WalReq.recordedValLen (r : WalReq) (seq : Nat) : Nat := leField (r.hdr seq).bytes 12 4

theorem recordedKeyLen_eq (r : WalReq) (seq : Nat) : r.recordedKeyLen seq = r.key.length % 2 ^ 32 := by
  have h := (r.hdr seq).fields []
  rw [List.append_nil] at h
  exact h.2.2.1

theorem recordedValLen_eq (r : WalReq) (seq : Nat) : r.recordedValLen seq = r.val.length % 2 ^ 32 := by
  have h := (r.hdr seq).fields []
  rw [List.append_nil] at h
  exact h.2.2.2.1

section

variable {l : Wal} (hl : l.ringSize = walRingSize) (env : Env)

include hl

theorem setReq_staysIn_iff (key val : List UInt8) (ttlSec : UInt32) :
    l.StaysIn (setReq env key val ttlSec) ↔
      walHdrSize + key.length % 2 ^ 32 + val.length % 2 ^ 32 ≤ walRingSize := by
  rw [Wal.staysIn_iff hl, ← length_clip32, ← length_clip32]
  rfl

theorem delReq_staysIn_iff (key : List UInt8) :
    l.StaysIn (delReq env key) ↔ walHdrSize + key.length % 2 ^ 32 ≤ walRingSize := by
  rw [Wal.staysIn_iff hl, ← length_clip32]
  rfl

end

/-- After any run, the record of an accepted set stays in the ring with the lengths that were
passed exactly when header, key and value are together not longer than the ring; the record of a
delete holds the key as `uint32_t` delimits it, and stays in the ring exactly when that fits. -/
theorem log_stays_in_ring {file : Nat → UInt8} {slots : UInt32}
    (hc : vcCreate (some file) slots = some c) (now : Nat) (ops : List Op) :
    ∃ l, (Machine.run step ⟨c, now⟩ ops).cache.wal = some l ∧ l.ringSize = walRingSize ∧
      (∀ key val ttlSec env, Settable key val →
        (step (Machine.run step ⟨c, now⟩ ops) (.set key val ttlSec env)).1.cache.wal =
            some (l.append (setReq env key val ttlSec)) ∧
          (l.StaysIn (setReq env key val ttlSec) ∧
              (setReq env key val ttlSec).recordedKeyLen l.walSeq = key.length ∧
              (setReq env key val ttlSec).recordedValLen l.walSeq = val.length ↔
            walHdrSize + key.length + val.length ≤ walRingSize)) ∧
      ∀ key env,
        (step (Machine.run step ⟨c, now⟩ ops) (.del key env)).1.cache.wal =
            some (l.append (delReq env key)) ∧
          (l.StaysIn (delReq env key) ↔ walHdrSize + key.length % 2 ^ 32 ≤ walRingSize) := by
  obtain ⟨cap, -, -, rfl⟩ := vcCreate_cases hc
  have hwal : (Machine.run step ⟨newCache (some file) cap, now⟩ ops).cache.wal =
      some (walRun (walInit file) (ops.flatMap Op.logged)) := run_wal _ _
  have hsize : (walRun (walInit file) (ops.flatMap Op.logged)).ringSize = walRingSize :=
    walRun_ringSize _ _
  generalize walRun (walInit file) (ops.flatMap Op.logged) = l at hwal hsize
  refine ⟨l, hwal, hsize, fun key val ttlSec env hset => ?_, fun key env => ?_⟩
  · refine ⟨?_, ?_⟩
    · rw [step_wal, hwal, Op.logged, if_pos hset]
      rfl
    · rw [setReq_staysIn_iff hsize env, recordedKeyLen_eq, recordedValLen_eq]
      show _ ∧ (clip32 key).length % 2 ^ 32 = key.length ∧
        (clip32 val).length % 2 ^ 32 = val.length ↔ _
      rw [length_clip32, length_clip32]
      unfold walRingSize
      constructor
      · rintro ⟨h, hk, hv⟩
        omega
      · intro h
        omega
  · refine ⟨?_, ?_⟩
    · rw [step_wal, hwal]
      rfl
    · exact delReq_staysIn_iff hsize env key

theorem small_record_stays_in_ring :
    vcCreate (some fun _ => 0) 1 = some (newCache (some fun _ => 0) 1) ∧
      ∃ l, (Machine.run step ⟨newCache (some fun _ => 0) 1, 0⟩ [.del [98] calmEnv]).cache.wal = some l ∧
        l.StaysIn (setReq calmEnv [97] [1] 0) := by
  have hc : vcCreate (some fun _ => 0) 1 = some (newCache (some fun _ => 0) 1) := rfl
  obtain ⟨l, hl, -, hset, -⟩ := log_stays_in_ring hc 0 [.del [98] calmEnv]
  have hin := (hset [97] [1] 0 calmEnv (by decide)).2.mpr (by decide)
  exact ⟨hc, l, hl, hin.1⟩

/-- A value as long as the ring is accepted, and its record runs over the end. -/
theorem record_overruns_ring :
    let val := List.replicate walRingSize (7 : UInt8)
    vcCreate (some fun _ => 0) 1 = some (newCache (some fun _ => 0) 1) ∧
      (newCache (some fun _ => 0) 1).wal = some (walInit fun _ => 0) ∧ Settable [97] val ∧
      ¬ (walInit fun _ => 0).StaysIn (setReq calmEnv [97] val 0) := by
  intro val
  have hlen : val.length = walRingSize := List.length_replicate
  clear_value val
  refine ⟨rfl, rfl, ⟨by decide, by decide, by rw [hlen]; decide⟩, ?_⟩
  rw [setReq_staysIn_iff rfl calmEnv, hlen]
  simp [walHdrSize, walRingSize]

end VoidCache
