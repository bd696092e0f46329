import VoidCache.Cache.Create
import VoidCache.Lib.Machine

/-!
# Whole runs of a cache

`Effect` lists everything one step can do to a valid cache, guards and results included;
`step_effect` proves the list complete. Invariants of runs are then short case analyses. The
first two are validity, which every run keeps, and that no key is stored twice, which a run
keeps as long as no `vc_set` meets an expired live entry of its own key.
-/
namespace VoidCache

/-- Accepted by the argument checks of `vc_set`. -/
def Settable (key val : List UInt8) : Prop :=
  0 < key.length ∧ key.length < 2 ^ 32 ∧ 0 < val.length

instance (key val : List UInt8) : Decidable (Settable key val) :=
  inferInstanceAs (Decidable (_ ∧ _ ∧ _))

theorem vcSet_eq (c : Cache) (now : Nat) (env : Env) (key val : List UInt8) (ttlSec : UInt32) :
    vcSet c now env key val ttlSec =
      if Settable key val then vcSetStore (c.log (setReq env key val ttlSec)) now env key val ttlSec
      else (.error .inval, c) := by
  unfold vcSet
  by_cases h : Settable key val
  · rw [if_pos h, if_neg (by unfold Settable at h; omega)]
  · rw [if_neg h, if_pos (by unfold Settable at h; omega)]

/-- One step from the cache `c` at time `now`. -/
inductive Effect (c : Cache) (now : Nat) : Op → Res → Cache → Prop
  | stored {key val : List UInt8} {ttlSec : UInt32} {env : Env} {c' : Cache} {ev left : Option Item}
      {rest : Multiset Item} : Settable key val →
      SetOk c now key (newItem now key val ttlSec) c' ev left rest →
      Effect c now (.set key val ttlSec env) (.done (.ok ())) c'
  | oom {key val : List UInt8} {ttlSec : UInt32} {env : Env} {c' : Cache} : Settable key val →
      c'.Valid → c'.items = c.items → c'.shards = c.shards →
      Effect c now (.set key val ttlSec env) (.done (.error .oom)) c'
  | invalid {key val : List UInt8} {ttlSec : UInt32} {env : Env} : ¬ Settable key val →
      Effect c now (.set key val ttlSec env) (.done (.error .inval)) c
  | got {key : List UInt8} {r : Except VcErr (Loc × Nat)} {c' : Cache} : Touched c c' →
      Effect c now (.get key) (.value r) c'
  | deleted {key : List UInt8} {env : Env} {c' : Cache} {i : Item} : DelOk c now key c' i →
      Effect c now (.del key env) (.done (.ok ())) c'
  | absent {key : List UInt8} {env : Env} {c' : Cache} : c.find now key = none → Touched c c' →
      Effect c now (.del key env) (.done (.error .notFnd)) c'
  | flushed {c' : Cache} : c'.Valid → c'.items = 0 →
      (∀ si, si < numShards → Emptied (c.shards si) (c'.shards si)) → Effect c now .flush .none c'
  | ticked {ns : Nat} : Effect c now (.tick ns) .none c

section Log

variable {c c' : Cache} {now : Nat} {key : List UInt8} {r : WalReq}

/-- The log does not matter to what a call does to the tables. -/
theorem Cache.Valid.log (h : c.Valid) (r : WalReq) : (c.log r).Valid :=
  ⟨h.shape, h.owned, h.kinds, h.named⟩

theorem SetOk.of_log {new : Item} {ev left : Option Item} {rest : Multiset Item}
    (h : SetOk (c.log r) now key new c' ev left rest) : SetOk c now key new c' ev left rest :=
  ⟨h.valid, h.before, h.after, h.room, h.trigger, h.others, h.cap, h.evictions, h.count⟩

theorem DelOk.of_log {i : Item} (h : DelOk (c.log r) now key c' i) : DelOk c now key c' i :=
  ⟨h.valid, h.found, h.items, h.others, h.cap, h.evictions, h.count⟩

theorem touched_log (c : Cache) (r : WalReq) : Touched c (c.log r) :=
  ⟨rfl, fun _ => SameEntries.refl _⟩

end Log

theorem step_effect {w : World} (hv : w.cache.Valid) (op : Op) :
    Effect w.cache w.now op (step w op).2 (step w op).1.cache := by
  cases op with
  | set key val ttlSec env =>
    unfold step
    dsimp only
    rw [vcSet_eq]
    split_ifs with hset
    · rcases vcSetStore_outcome (hv.log (setReq env key val ttlSec)) hset.1 hset.2.1 w.now env val
        ttlSec with ⟨ev, left, rest, hr, h⟩ | ⟨hr, hvalid, hitems, hs⟩
      · rw [hr]
        exact Effect.stored hset h.of_log
      · rw [hr]
        exact Effect.oom hset hvalid hitems hs
    · exact Effect.invalid hset
  | get key => exact Effect.got (vcGet_touched w.cache w.now key)
  | del key env =>
    unfold step vcDel
    dsimp only
    rcases vcDelStore_outcome (hv.log (delReq env key)) w.now key with ⟨i, hr, h⟩ | ⟨hf, hr⟩
    · rw [hr]
      exact Effect.deleted h.of_log
    · rw [hr]
      exact Effect.absent hf (touched_log _ _)
  | flush =>
    obtain ⟨hvalid, hitems, hempty⟩ := vcFlush_outcome hv
    exact Effect.flushed hvalid hitems hempty
  | tick ns => exact Effect.ticked

theorem Effect.valid {c c' : Cache} {now : Nat} {op : Op} {r : Res} (h : Effect c now op r c')
    (hv : c.Valid) : c'.Valid := by
  cases h with
  | stored _ h => exact h.valid
  | oom _ h => exact h
  | invalid => exact hv
  | got h => exact h.valid hv
  | deleted h => exact h.valid
  | absent _ h => exact h.valid hv
  | flushed h => exact h
  | ticked => exact hv

/-- What `vc_create` and any calls after it can lead to. -/
def World.Reachable (w : World) : Prop :=
  ∃ file slots c now ops, vcCreate file slots = some c ∧ w = Machine.run step ⟨c, now⟩ ops

theorem run_valid {w : World} (hv : w.cache.Valid) (ops : List Op) :
    (Machine.run step w ops).cache.Valid :=
  Machine.run_inv (P := fun _ _ => True) (I := fun w : World => w.cache.Valid)
    (fun _ op h _ => (step_effect h op).valid h) hv (Machine.along_of_forall fun _ _ _ => trivial)

theorem World.Reachable.valid {w : World} (h : w.Reachable) : w.cache.Valid := by
  obtain ⟨file, slots, c, now, ops, hc, rfl⟩ := h
  exact run_valid (vcCreate_outcome hc).1 ops

/-- What `vc_create` establishes and every step from a valid cache keeps holds in every state
that can be reached. -/
theorem World.Reachable.inv {I : World → Prop} {w : World} (h : w.Reachable)
    (hinit : ∀ file slots c now, vcCreate file slots = some c → I ⟨c, now⟩)
    (hstep : ∀ w op, w.cache.Valid → I w → I (step w op).1) : I w := by
  obtain ⟨file, slots, c, now, ops, hc, rfl⟩ := h
  have hall : Machine.Along step (fun _ _ => True) ⟨c, now⟩ ops :=
    Machine.along_of_forall fun _ _ _ => trivial
  have hend := Machine.run_inv (I := fun w : World => w.cache.Valid ∧ I w)
    (fun w op h _ => ⟨(step_effect h.1 op).valid h.1, hstep w op h.1 h.2⟩)
    ⟨(vcCreate_outcome hc).1, hinit file slots c now hc⟩ hall
  exact hend.2

/-! ## No key twice -/

/-- No two live entries have the same key. -/
def Cache.Unique (c : Cache) : Prop := (c.items.map Item.key).Nodup

/-- No live entry of `key` has expired. -/
def Cache.Unshadowed (c : Cache) (now : Nat) (key : List UInt8) : Prop :=
  ∀ i ∈ c.items, i.key = Cell.bytes key → i.expired now = false

section Unique

variable {c c' : Cache} {now : Nat} {key : List UInt8}

theorem unshadowed_of_empty (h : c.items = 0) : c.Unshadowed now key := fun i hi => by
  rw [h] at hi
  exact absurd hi (Multiset.notMem_zero i)

theorem Cache.Unique.eq (h : c.Unique) {i j : Item} (hi : i ∈ c.items) (hj : j ∈ c.items)
    (hk : i.key = j.key) : i = j := Multiset.inj_on_of_nodup_map h i hi j hj hk

theorem Cache.Unique.of_le (h : c.Unique) (hle : c'.items ≤ c.items) : c'.Unique :=
  Multiset.nodup_of_le (Multiset.map_le_map hle) h

theorem Cache.Unique.notMem (h : c.Unique) {i : Item} {M : Multiset Item} (hc : c.items = i ::ₘ M)
    {j : Item} (hj : j ∈ M) : j.key ≠ i.key := by
  unfold Cache.Unique at h
  rw [hc, Multiset.map_cons, Multiset.nodup_cons] at h
  exact fun he => h.1 (he ▸ Multiset.mem_map_of_mem _ hj)

/-- The item the scan returns has the key that was asked for. -/
theorem findItem_key (hv : c.Valid) (hk : key.length < 2 ^ 32) {i : Item}
    (h : c.findItem now key = some i) : i.key = Cell.bytes key := by
  unfold Cache.findItem at h
  obtain ⟨slot, hf, rfl⟩ := Option.map_eq_some_iff.mp h
  obtain ⟨_, _, _, ⟨val, hn⟩, _⟩ := hv.find_some hk hf
  rw [hn.item]

theorem find_eq_none_iff : c.find now key = none ↔ c.findItem now key = none := by
  rw [Cache.findItem, Option.map_eq_none_iff]

/-- Unless an expired entry hides the key, replacing it leaves no other copy. -/
theorem SetOk.rest_key {new : Item} {ev left : Option Item} {rest : Multiset Item}
    (h : SetOk c now key new c' ev left rest) (hv : c.Valid) (hk : key.length < 2 ^ 32)
    (hu : c.Unique) (hns : c.Unshadowed now key) {i : Item} (hi : i ∈ one ev + rest) :
    i.key ≠ Cell.bytes key := by
  have hb := h.before
  cases hf : c.findItem now key with
  | none =>
    intro hik
    have hmem : i ∈ c.items := by
      rw [hb]
      exact Multiset.mem_add.mpr (Or.inr hi)
    obtain ⟨j, hj, hjk, hx⟩ := hv.find_none hk (find_eq_none_iff.mpr hf) hmem hik
    rw [hns j hj hjk] at hx
    exact absurd hx (by simp)
  | some old =>
    rw [hf, one_some, Multiset.singleton_add] at hb
    rw [← findItem_key hv hk hf]
    exact hu.notMem hb hi

theorem SetOk.unique {new : Item} {ev left : Option Item} {rest : Multiset Item}
    (h : SetOk c now key new c' ev left rest) (hv : c.Valid) (hk : key.length < 2 ^ 32)
    (hnew : new.key = Cell.bytes key) (hu : c.Unique) (hns : c.Unshadowed now key) : c'.Unique := by
  have hle : c'.items ≤ new ::ₘ rest := h.after ▸ Multiset.le_add_right _ _
  refine Multiset.nodup_of_le (Multiset.map_le_map hle) ?_
  rw [Multiset.map_cons, Multiset.nodup_cons]
  constructor
  · intro hmem
    obtain ⟨i, hi, hik⟩ := Multiset.mem_map.mp hmem
    exact h.rest_key hv hk hu hns (Multiset.mem_add.mpr (Or.inr hi)) (hik.trans hnew)
  · refine Multiset.nodup_of_le (Multiset.map_le_map ?_) hu
    rw [h.before, ← add_assoc]
    exact Multiset.le_add_left _ _

end Unique

end VoidCache
