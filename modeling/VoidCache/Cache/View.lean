import VoidCache.Cache.ReadYourWrites
import VoidCache.Cache.Recovery

/-!
# What a cache shows under a key

A key may have several live entries, some of them expired. `Shows now key o` says that at time
`now` it has none (`o = none`), or exactly one, which has not expired and holds the value. As
long as keys look like this, `vc_get`, `vc_set` and `vc_del` act on the values shown as on a
map, key by key.
-/
namespace VoidCache

variable {c c' : Cache} {now : Nat} {key key' val : List UInt8} {o : Option (List UInt8)}

/-- The live entries of a key. -/
def Cache.copies (c : Cache) (key : List UInt8) : Multiset Item :=
  c.items.filter fun i => i.key = Cell.bytes key

def Cache.Shows (c : Cache) (now : Nat) (key : List UInt8) : Option (List UInt8) → Prop
  | none => c.copies key = 0
  | some val => ∃ i, c.copies key = {i} ∧ i.val = Cell.bytes val ∧ i.expired now = false

theorem Cache.mem_copies {i : Item} : i ∈ c.copies key ↔ i ∈ c.items ∧ i.key = Cell.bytes key :=
  Multiset.mem_filter

theorem Cache.Shows.of_copies (h : c.Shows now key o) (hc : c'.copies key = c.copies key) :
    c'.Shows now key o := by
  cases o with
  | none => exact hc.trans h
  | some val =>
    obtain ⟨i, hi, hrest⟩ := h
    exact ⟨i, hc.trans hi, hrest⟩

theorem Cache.copies_congr (h : c'.items = c.items) (key : List UInt8) : c'.copies key = c.copies key := by
  rw [Cache.copies, h, Cache.copies]

theorem Cache.Shows.unshadowed (h : c.Shows now key o) : c.Unshadowed now key := by
  intro i hi hik
  have hmem : i ∈ c.copies key := Cache.mem_copies.mpr ⟨hi, hik⟩
  cases o with
  | none =>
    rw [show c.copies key = 0 from h] at hmem
    exact absurd hmem (Multiset.notMem_zero i)
  | some val =>
    obtain ⟨j, hj, -, hx⟩ := h
    rw [hj, Multiset.mem_singleton] at hmem
    rw [hmem, hx]

/-- The same without the clock: no entry, or exactly one, which holds the value. -/
def Cache.Holds (c : Cache) (key : List UInt8) : Option (List UInt8) → Prop
  | none => c.copies key = 0
  | some val => ∃ i, c.copies key = {i} ∧ i.val = Cell.bytes val

theorem Cache.Holds.shows (h : c.Holds key o) (hx : c.Unshadowed now key) : c.Shows now key o := by
  cases o with
  | none => exact h
  | some val =>
    obtain ⟨i, hi, hval⟩ := h
    obtain ⟨hmem, hik⟩ := Cache.mem_copies.mp (hi ▸ Multiset.mem_singleton_self i : i ∈ c.copies key)
    exact ⟨i, hi, hval, hx i hmem hik⟩

theorem Cache.Shows.holds (h : c.Shows now key o) : c.Holds key o := by
  cases o with
  | none => exact h
  | some val =>
    obtain ⟨i, hi, hval, -⟩ := h
    exact ⟨i, hi, hval⟩

theorem Cache.Holds.eq {o' : Option (List UInt8)} (h : c.Holds key o) (h' : c.Holds key o') : o = o' := by
  cases o with
  | none =>
    cases o' with
    | none => rfl
    | some val =>
      obtain ⟨i, hi, -⟩ := h'
      rw [show c.copies key = 0 from h] at hi
      exact absurd hi.symm (Multiset.singleton_ne_zero i)
  | some val =>
    obtain ⟨i, hi, hival⟩ := h
    cases o' with
    | none =>
      rw [show c.copies key = 0 from h'] at hi
      exact absurd hi.symm (Multiset.singleton_ne_zero i)
    | some val' =>
      obtain ⟨j, hj, hjval⟩ := h'
      obtain rfl := Multiset.singleton_inj.mp (hi.symm.trans hj)
      rw [Cell.bytes_injective (hival.symm.trans hjval)]

theorem Cache.Holds.of_copies (h : c.Holds key o) (hc : c'.copies key = c.copies key) :
    c'.Holds key o := by
  cases o with
  | none => exact hc.trans h
  | some val =>
    obtain ⟨i, hi, hval⟩ := h
    exact ⟨i, hc.trans hi, hval⟩

/-! ## Looking up -/

theorem findItem_mem_copies (hv : c.Valid) (hk : key.length < 2 ^ 32) {i : Item}
    (h : c.findItem now key = some i) : i ∈ c.copies key := by
  refine Cache.mem_copies.mpr ⟨?_, findItem_key hv hk h⟩
  obtain ⟨slot, hf, rfl⟩ := Option.map_eq_some_iff.mp h
  obtain ⟨_, _, hd, _⟩ := hv.find_some hk hf
  exact Cache.Valid.mem_items.mpr ⟨_, Cache.Valid.mem_contents.mpr ⟨_, shardIdx_lt _, hd⟩, rfl⟩

/-- The scan finds the entry that the key shows. -/
theorem Cache.Shows.one_findItem (h : c.Shows now key o) (hv : c.Valid) (hk : key.length < 2 ^ 32) :
    one (c.findItem now key) = c.copies key := by
  cases hf : c.findItem now key with
  | none =>
    rw [one_none, eq_comm, Multiset.eq_zero_iff_forall_notMem]
    intro i hi
    obtain ⟨hi, hik⟩ := Cache.mem_copies.mp hi
    obtain ⟨j, hj, hjk, hx⟩ := hv.find_none hk (find_eq_none_iff.mpr hf) hi hik
    rw [h.unshadowed j hj hjk] at hx
    cases hx
  | some i =>
    have hmem := findItem_mem_copies hv hk hf
    cases o with
    | none =>
      rw [show c.copies key = 0 from h] at hmem
      exact absurd hmem (Multiset.notMem_zero i)
    | some val =>
      obtain ⟨j, hj, -⟩ := h
      rw [hj, Multiset.mem_singleton] at hmem
      rw [one_some, hj, hmem]

theorem vcGet_of_shows_none (h : c.Shows now key none) (hv : c.Valid) (hk : key.length < 2 ^ 32) :
    (vcGet c now key).1 = .error .notFnd := by
  have hone := h.one_findItem hv hk
  rw [show c.copies key = 0 from h] at hone
  cases hf : c.find now key with
  | none => rw [vcGet_eq, hf]
  | some slot =>
    rw [Cache.findItem, hf, Option.map_some, one_some] at hone
    exact absurd hone (Multiset.singleton_ne_zero _)

theorem vcGet_of_shows_some (h : c.Shows now key (some val)) (hv : c.Valid)
    (hk : key.length < 2 ^ 32) :
    ∃ loc len, (vcGet c now key).1 = .ok (loc, len) ∧ len = val.length ∧
      (vcGet c now key).2.readLoc loc len = Cell.bytes val := by
  obtain ⟨i, hi, hival, hx⟩ := h
  obtain ⟨hmem, hik⟩ := Cache.mem_copies.mp (hi ▸ Multiset.mem_singleton_self i : i ∈ c.copies key)
  refine vcGet_of_only hv hk hmem hik (fun j hj hjk => ?_) hival hx
  have hjmem : j ∈ c.copies key := Cache.mem_copies.mpr ⟨hj, hjk⟩
  rwa [hi, Multiset.mem_singleton] at hjmem

/-- A key that is shown has room: its own slot. -/
theorem Cache.Shows.hasRoom (h : c.Shows now key (some val)) (hv : c.Valid) (hk : key.length < 2 ^ 32) :
    c.HasRoom now key := by
  obtain ⟨loc, len, hget, -, -⟩ := vcGet_of_shows_some h hv hk
  obtain ⟨i, -, hfind, -⟩ := vcGet_ok hv hk hget
  refine .inr (.inl fun hnone => ?_)
  have hfind_none : c.find now key = none := hnone
  rw [Cache.findItem, hfind_none] at hfind
  cases hfind

/-! ## Writing -/

section Set

variable {new : Item} {ev left : Option Item} {rest : Multiset Item}

/-- Copies of one key among at most one item. -/
theorem filter_one_of_ne {x : Option Item} (h : ∀ i, x = some i → i.key ≠ Cell.bytes key) :
    (one x).filter (fun i => i.key = Cell.bytes key) = 0 := by
  cases x with
  | none => simp
  | some i => simp [h i rfl]

/-- A set that does not lose its own entry leaves one copy of the key. -/
theorem SetOk.copies (hs : SetOk c now key new c' ev left rest) (h : c.Shows now key o) (hv : c.Valid)
    (hk : key.length < 2 ^ 32) (hnew : new.key = Cell.bytes key)
    (hleft : ∀ i, left = some i → i.key ≠ Cell.bytes key) : c'.copies key = {new} := by
  have hbefore := congrArg (Multiset.filter fun i : Item => i.key = Cell.bytes key) hs.before
  have hafter := congrArg (Multiset.filter fun i : Item => i.key = Cell.bytes key) hs.after
  rw [Multiset.filter_add, Multiset.filter_add, h.one_findItem hv hk] at hbefore
  rw [Multiset.filter_add, filter_one_of_ne hleft, add_zero, Multiset.filter_cons_of_pos (p := fun i : Item => i.key = Cell.bytes key) _ hnew] at hafter
  have hsame : (c.copies key).filter (fun i => i.key = Cell.bytes key) = c.copies key := by
    simp [Cache.copies]
  have hrest : rest.filter (fun i => i.key = Cell.bytes key) = 0 := by
    rw [hsame] at hbefore
    have hzero := left_eq_add.mp hbefore
    exact Multiset.le_zero.mp (hzero ▸ Multiset.le_add_left _ _)
  rw [Cache.copies, hafter, hrest]
  rfl

/-- A set that neither evicts nor drops an entry of another key leaves that key as it was. -/
theorem SetOk.copies_of_ne (hs : SetOk c now key new c' ev left rest) (hv : c.Valid)
    (hk : key.length < 2 ^ 32) (hnew : new.key = Cell.bytes key) (hne : key' ≠ key)
    (hev : ∀ i, ev = some i → i.key ≠ Cell.bytes key')
    (hleft : ∀ i, left = some i → i.key ≠ Cell.bytes key') : c'.copies key' = c.copies key' := by
  have hbefore := congrArg (Multiset.filter fun i : Item => i.key = Cell.bytes key') hs.before
  have hafter := congrArg (Multiset.filter fun i : Item => i.key = Cell.bytes key') hs.after
  have hother {i : Item} (hi : i.key = Cell.bytes key) : i.key ≠ Cell.bytes key' := fun he =>
    hne (Cell.bytes_injective (he.symm.trans hi))
  rw [Multiset.filter_add, Multiset.filter_add, filter_one_of_ne hev, zero_add,
    filter_one_of_ne fun i hi => hother (findItem_key hv hk hi), zero_add] at hbefore
  rw [Multiset.filter_add, filter_one_of_ne hleft, add_zero,
    Multiset.filter_cons_of_neg (p := fun i : Item => i.key = Cell.bytes key') _ (hother hnew)] at hafter
  rw [Cache.copies, hafter, Cache.copies, hbefore]

end Set

theorem DelOk.copies {i : Item} (hd : DelOk c now key c' i) (h : c.Shows now key o) (hv : c.Valid)
    (hk : key.length < 2 ^ 32) : c'.copies key = 0 := by
  have hone := h.one_findItem hv hk
  have hitems := congrArg (Multiset.filter fun i : Item => i.key = Cell.bytes key) hd.items
  rw [hd.found, one_some] at hone
  rw [Multiset.filter_cons_of_pos (p := fun i : Item => i.key = Cell.bytes key) _
    (findItem_key hv hk hd.found)] at hitems
  have hcons : ({i} : Multiset Item) = i ::ₘ c'.copies key := hone.trans hitems
  exact ((Multiset.cons_inj_right i).mp hcons).symm

theorem DelOk.copies_of_ne {i : Item} (hd : DelOk c now key c' i) (hv : c.Valid)
    (hk : key.length < 2 ^ 32) (hne : key' ≠ key) : c'.copies key' = c.copies key' := by
  have hi : i.key ≠ Cell.bytes key' := fun he =>
    hne (Cell.bytes_injective (he.symm.trans (findItem_key hv hk hd.found)))
  rw [Cache.copies, Cache.copies, hd.items,
    Multiset.filter_cons_of_neg (p := fun i : Item => i.key = Cell.bytes key') _ hi]

/-! ## Reading a value back -/

theorem newItem_forever (now now' : Nat) (key val : List UInt8) :
    (newItem now key val 0).expired now' = false := by
  simp [newItem, deadline, Item.expired]

/-- Every stored value has a length that an entry can record. -/
def Cache.Short (c : Cache) : Prop := ∀ i ∈ c.items, i.val.length ≤ valMax

theorem length_newItem_val (now : Nat) (key val : List UInt8) (ttlSec : UInt32) :
    (newItem now key val ttlSec).val.length ≤ valMax := by
  simp only [newItem, Cell.length_bytes, List.length_take]
  exact Nat.min_le_left _ _

theorem Effect.short {op : Op} {r : Res} (h : Effect c now op r c') (hc : c.Short) : c'.Short := by
  intro i hi
  cases h with
  | stored _ hs =>
    have hmem : i ∈ newItem now _ _ _ ::ₘ _ := hs.after ▸ Multiset.mem_add.mpr (Or.inl hi)
    rcases Multiset.mem_cons.mp hmem with rfl | hrest
    · exact length_newItem_val ..
    · refine hc i ?_
      rw [hs.before]
      exact Multiset.mem_add.mpr (Or.inr (Multiset.mem_add.mpr (Or.inr hrest)))
  | oom _ _ hitems => exact hc i (hitems ▸ hi)
  | invalid => exact hc i hi
  | got ht => exact hc i (ht.items ▸ hi)
  | deleted hd =>
    refine hc i ?_
    rw [hd.items]
    exact Multiset.mem_cons_of_mem hi
  | absent _ ht => exact hc i (ht.items ▸ hi)
  | flushed _ hitems =>
    rw [hitems] at hi
    exact absurd hi (Multiset.notMem_zero i)
  | ticked => exact hc i hi

theorem World.Reachable.short {w : World} (h : w.Reachable) : w.cache.Short := by
  refine h.inv (I := fun w => w.cache.Short) (fun file slots c now hc i hi => ?_)
    fun w op hv hw => (step_effect hv op).short hw
  rw [(vcCreate_outcome hc).2] at hi
  exact absurd hi (Multiset.notMem_zero i)

/-- `vc_get` returns the length and the bytes of `val`. -/
def Cache.Reads (c : Cache) (now : Nat) (key val : List UInt8) : Prop :=
  ∃ loc, (vcGet c now key).1 = .ok (loc, val.length) ∧
    (vcGet c now key).2.readLoc loc val.length = Cell.bytes val

theorem Cache.Reads.length_le (h : c.Reads now key val) (hv : c.Valid) (hs : c.Short)
    (hk : key.length < 2 ^ 32) : val.length ≤ valMax := by
  obtain ⟨loc, hok, -⟩ := h
  obtain ⟨i, val', -, hi, -, hval, -, hlen, -⟩ := vcGet_ok hv hk hok
  have hshort := hs i hi
  rwa [hval, Cell.length_bytes, ← hlen] at hshort

theorem Cache.Shows.reads (h : c.Shows now key (some val)) (hv : c.Valid) (hk : key.length < 2 ^ 32) :
    c.Reads now key val := by
  obtain ⟨loc, len, hok, rfl, hread⟩ := vcGet_of_shows_some h hv hk
  exact ⟨loc, hok, hread⟩

section Fidelity

variable {w : World} {env : Env}

/-- After a set without a deadline that found a free slot, `vc_get` returns what the entry could
take of the value. -/
theorem reads_of_set (hreach : w.Reachable) (hok : (step w (.set key val 0 env)).2 = .done (.ok ()))
    (hfree : ∃ i, i < (w.cache.shards (homeShard key)).cap ∧
      ((w.cache.shards (homeShard key)).table i).Free)
    (ho : w.cache.Shows w.now key o) (now' : Nat) :
    (step w (.set key val 0 env)).1.cache.Reads now' key (val.take valMax) := by
  have he := step_effect hreach.valid (.set key val 0 env)
  rw [hok] at he
  generalize (step w (.set key val 0 env)).1.cache = c' at he ⊢
  cases he with
  | stored hset hs =>
    have hk : key.length < 2 ^ 32 := hset.2.1
    have hleft := hs.room (Or.inl hfree)
    have hcopies := hs.copies ho hreach.valid hk rfl (by simp [hleft])
    have hshows : c'.Shows now' key (some (val.take valMax)) :=
      ⟨_, hcopies, rfl, newItem_forever _ _ _ _⟩
    exact hshows.reads hs.valid hk

/-- After a set without a deadline that found a free slot: what `vc_get` returns at any time is
the value that was set only if its length fits the sixteen bits of `val_len`, and then it is,
provided that the key had no entry before, or just one, which had not expired. -/
theorem value_read_back (hreach : w.Reachable) (key val : List UInt8) (env : Env)
    (hok : (step w (.set key val 0 env)).2 = .done (.ok ()))
    (hfree : ∃ i, i < (w.cache.shards (homeShard key)).cap ∧
      ((w.cache.shards (homeShard key)).table i).Free) (now' : Nat) :
    ((step w (.set key val 0 env)).1.cache.Reads now' key val → val.length ≤ 65535) ∧
      (val.length ≤ 65535 → (∃ o, w.cache.Shows w.now key o) →
        (step w (.set key val 0 env)).1.cache.Reads now' key val) := by
  constructor
  · intro hreads
    have he := step_effect hreach.valid (.set key val 0 env)
    have hshort := he.short hreach.short
    have hvalid := he.valid hreach.valid
    rw [hok] at he
    cases he with
    | stored hset => exact hreads.length_le hvalid hshort hset.2.1
  · rintro hlen ⟨o, ho⟩
    have hreads := reads_of_set hreach hok hfree ho now'
    have hall : val.take valMax = val := List.take_of_length_le hlen
    rwa [hall] at hreads

end Fidelity

theorem Cache.Reads.length_eq {val' : List UInt8} (h : c.Reads now key val)
    (h' : c.Reads now key val') : val.length = val'.length := by
  obtain ⟨loc, hok, -⟩ := h
  obtain ⟨loc', hok', -⟩ := h'
  rw [hok] at hok'
  exact (Prod.mk.inj (Except.ok.inj hok')).2

theorem newCache_reachable : World.Reachable ⟨newCache none 8, 0⟩ :=
  ⟨none, 8, newCache none 8, 0, [], rfl, rfl⟩

theorem newCache_shows (now : Nat) (key : List UInt8) : (newCache none 8).Shows now key none := by
  have hempty : (newCache none 8).items = 0 := (vcCreate_outcome (rfl : vcCreate none 8 = _)).2
  rw [Cache.Shows, Cache.copies, hempty]
  rfl

theorem slab_value_read_back :
    (step ⟨newCache none 8, 0⟩ (.set [97] (List.replicate 40 7) 0 calmEnv)).1.cache.Reads 5 [97]
      (List.replicate 40 7) :=
  (value_read_back newCache_reachable [97] (List.replicate 40 7) calmEnv (by decide +kernel)
    (by decide +kernel) 5).2 (by decide) ⟨none, newCache_shows 0 [97]⟩

/-- A new cache takes every value up to the size of the largest class. -/
theorem newCache_set_ok (hpos : 0 < val.length) (hmax : val.length ≤ slabClassSize (slabClasses - 1)) :
    (step ⟨newCache none 8, 0⟩ (.set [97] val 0 calmEnv)).2 = .done (.ok ()) := by
  have hset : Settable [97] val := ⟨by decide, by decide, hpos⟩
  have hhead : (slabInit.classes (slabClassFor val.length)).head ≠ .null := by
    have hall : ∀ cls, cls < slabClasses → (slabInit.classes cls).head ≠ .null := by decide +kernel
    exact hall _ (slabClassFor_lt _)
  have hcan : CanStore calmEnv (newCache none 8).mem [97] val := by
    unfold CanStore
    split_ifs
    exact ⟨hhead, Or.inl (by decide)⟩
  have hok := (vcSetStore_ok_iff ((newCache none 8).log (setReq calmEnv [97] val 0)) calmEnv 0 0).mpr hcan
  unfold step
  dsimp only
  rw [vcSet_eq, if_pos hset, hok]

theorem newCache_free : ∃ i, i < ((newCache none 8).shards (homeShard [97])).cap ∧
    (((newCache none 8).shards (homeShard [97])).table i).Free := by
  decide +kernel

theorem set_long_ok (hlen : val.length = 65536) :
    (step ⟨newCache none 8, 0⟩ (.set [97] val 0 calmEnv)).2 = .done (.ok ()) :=
  newCache_set_ok (by omega) (hlen ▸ by decide)

theorem not_reads_long (hlen : val.length = 65536) :
    ¬ (step ⟨newCache none 8, 0⟩ (.set [97] val 0 calmEnv)).1.cache.Reads 0 [97] val := by
  intro hfull
  have hreads := reads_of_set newCache_reachable (set_long_ok hlen) newCache_free
    (newCache_shows 0 [97]) 0
  have hsame := hreads.length_eq hfull
  rw [List.length_take, hlen] at hsame
  exact absurd hsame (by decide)

/-- A value of 65536 bytes is stored and not returned: its last byte is missing. -/
theorem long_value_cut :
    World.Reachable ⟨newCache none 8, 0⟩ ∧ (newCache none 8).Shows 0 [97] none ∧
      (∃ i, i < ((newCache none 8).shards (homeShard [97])).cap ∧
        (((newCache none 8).shards (homeShard [97])).table i).Free) ∧
      (step ⟨newCache none 8, 0⟩ (.set [97] (List.replicate 65536 7) 0 calmEnv)).2 = .done (.ok ()) ∧
      ¬ (step ⟨newCache none 8, 0⟩ (.set [97] (List.replicate 65536 7) 0 calmEnv)).1.cache.Reads 0 [97]
        (List.replicate 65536 7) :=
  ⟨newCache_reachable, newCache_shows 0 [97], newCache_free, set_long_ok List.length_replicate,
    not_reads_long List.length_replicate⟩

end VoidCache
