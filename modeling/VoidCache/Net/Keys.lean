import Mathlib.Data.List.ReduceOption
import VoidCache.Cache.LastWrite
import VoidCache.Net.Arguments
import VoidCache.Net.OneReply
import VoidCache.Net.Store

/-!
# The keyspace as KEYS lists it

`KEYS` walks the tables and answers with copies of the keys of the live entries, the first 65536
of them. A copy ends at the first zero byte of its key but is sent with the length of the key, so
that bytes from behind the copy take the place of the rest. `keys_lists_keyspace` says for which
states of the cache the answer is the set of keys that have a value.
-/
namespace VoidCache

/-! ## The keys in the tables -/

/-- The keys of the live entries, in the order of the tables. -/
def Cache.liveKeys (c : Cache) : List (List UInt8) :=
  (List.range numShards).flatMap fun si => (c.slotKeys si).reduceOption

theorem take_append_take {α : Type} (l r : List α) (n : Nat) :
    (l.take n ++ r).take n = (l ++ r).take n := by
  rw [List.take_append, List.take_append, List.take_take, Nat.min_self, List.length_take]
  congr 2
  omega

theorem takeKeys_eq {limit : Nat} (slots : List (Option (List UInt8))) {acc : List (List UInt8)}
    (hacc : acc.length ≤ limit) :
    takeKeys limit slots acc = (acc ++ slots.reduceOption).take limit := by
  induction slots generalizing acc with
  | nil => simp [takeKeys, List.take_of_length_le hacc]
  | cons o slots ih =>
    unfold takeKeys
    split_ifs with hlt
    · cases o with
      | none => simp [ih hacc]
      | some k =>
        have hnext : (acc ++ [k]).length ≤ limit := by
          rw [List.length_append, List.length_singleton]
          omega
        simp [ih hnext]
    · have hfull : acc.length = limit := by omega
      rw [← hfull, List.take_left]

theorem collectKeys_eq (c : Cache) : collectKeys c.slotKeys = c.liveKeys.take maxKeys := by
  suffices h : ∀ (shards : List Nat) (acc : List (List UInt8)), acc.length ≤ maxKeys →
      shards.foldl (fun acc si => takeKeys maxKeys (c.slotKeys si) acc) acc =
        (acc ++ shards.flatMap fun si => (c.slotKeys si).reduceOption).take maxKeys from
    h _ [] (Nat.zero_le _)
  intro shards
  induction shards with
  | nil => intro acc hacc; simp [List.take_of_length_le hacc]
  | cons si shards ih =>
    intro acc hacc
    rw [List.foldl_cons, takeKeys_eq _ hacc, ih _ (List.length_take_le _ _), take_append_take,
      List.flatMap_cons, List.append_assoc]

/-! ### The items behind the keys -/

theorem coe_flatMap_range {α : Type} (n : Nat) (f : Nat → List α) :
    (((List.range n).flatMap f : List α) : Multiset α) = ∑ i ∈ Finset.range n, (f i : Multiset α) := by
  induction n with
  | zero => rfl
  | succ n ih =>
    rw [List.range_succ, List.flatMap_append, ← Multiset.coe_add, ih, Finset.sum_range_succ]
    simp

/-- The bytes of the key of an item. -/
def Item.keyBytes (i : Item) : List UInt8 := i.key.map Cell.toByte

theorem coe_slotKeys (c : Cache) (si : Nat) :
    (((c.slotKeys si).reduceOption : List (List UInt8)) : Multiset (List UInt8)) =
      (c.shards si).contents.map fun d => (itemOf c.mem d).keyBytes := by
  have hflat : (c.slotKeys si).reduceOption = (List.range (c.shards si).cap).flatMap fun j =>
      if ((c.shards si).table j).state = .live then
        [(itemOf c.mem ((c.shards si).table j).toEntryData).keyBytes] else [] := by
    rw [Cache.slotKeys, List.reduceOption, List.filterMap_map]
    induction List.range (c.shards si).cap with
    | nil => rfl
    | cons j js ih =>
      rw [List.filterMap_cons, List.flatMap_cons, ih]
      simp only [Function.comp]
      split_ifs <;> rfl
  rw [hflat, coe_flatMap_range, Shard.contents, slotSum, ← Multiset.coe_mapAddMonoidHom, map_sum]
  refine Finset.sum_congr rfl fun j _ => ?_
  unfold Entry.contents
  split_ifs <;> simp

theorem coe_liveKeys (c : Cache) :
    (c.liveKeys : Multiset (List UInt8)) = c.items.map Item.keyBytes := by
  rw [Cache.liveKeys, coe_flatMap_range, Cache.items, Cache.contents, slotSum, Multiset.map_map,
    ← Multiset.coe_mapAddMonoidHom, map_sum]
  exact Finset.sum_congr rfl fun si _ => coe_slotKeys c si

theorem Cache.Valid.item_key {c : Cache} (hv : c.Valid) {i : Item} (hi : i ∈ c.items) :
    i.key = Cell.bytes i.keyBytes := by
  obtain ⟨d, hd, rfl⟩ := Cache.Valid.mem_items.mp hi
  obtain ⟨si, hsi, hd⟩ := Cache.Valid.mem_contents.mp hd
  obtain ⟨key, _, hn, _⟩ := hv.named si hsi d hd
  simp [Item.keyBytes, hn.item]

theorem Cache.Valid.mem_liveKeys {c : Cache} (hv : c.Valid) {k : List UInt8} :
    k ∈ c.liveKeys ↔ ∃ i ∈ c.items, i.key = Cell.bytes k := by
  rw [← Multiset.mem_coe, coe_liveKeys, Multiset.mem_map]
  refine exists_congr fun i => and_congr_right fun hi => ?_
  rw [hv.item_key hi]
  exact ⟨fun h => by rw [h], fun h => Cell.bytes_injective h⟩

theorem Cache.Unique.nodup_liveKeys {c : Cache} (hu : c.Unique) (hv : c.Valid) :
    c.liveKeys.Nodup := by
  rw [← Multiset.coe_nodup, coe_liveKeys]
  refine Multiset.Nodup.map_on ?_ (Multiset.Nodup.of_map _ hu)
  intro i hi j hj hij
  exact hu.eq hi hj (by rw [hv.item_key hi, hv.item_key hj, hij])

/-! ## The copies -/

/-- What is sent for a key: its copy, and behind the zero that ends the copy what lies there. -/
def copied (spill : Nat → UInt8) (key : List UInt8) : List UInt8 :=
  if (cstr key).length = key.length then key
  else cstr key ++ 0 :: List.ofFn fun i : Fin (key.length - (cstr key).length - 1) => spill i

/-- A key whose copy is cut before its end. -/
def CutShort (key : List UInt8) : Prop := 0 ∈ key.dropLast

instance (key : List UInt8) : Decidable (CutShort key) := inferInstanceAs (Decidable (_ ∈ _))

theorem copied_append_zero (spill : Nat → UInt8) {u : List UInt8} (hu : 0 ∉ u) (v : List UInt8) :
    copied spill (u ++ 0 :: v) = u ++ 0 :: List.ofFn fun i : Fin v.length => spill i := by
  have hlen : (u ++ 0 :: v).length - u.length - 1 = v.length := by simp
  rw [copied, cstr_append_zero hu, if_neg (by simp), hlen]

theorem CutShort.split {key : List UInt8} (h : CutShort key) :
    ∃ u v, 0 ∉ u ∧ v ≠ [] ∧ key = u ++ 0 :: v := by
  obtain ⟨u, v, hkey, hu⟩ := List.eq_append_cons_of_mem h
  have hne : key ≠ [] := by
    rintro rfl
    cases h
  refine ⟨u, v ++ [key.getLast hne], hu, by simp, ?_⟩
  rw [← List.cons_append, ← List.append_assoc, ← hkey, List.dropLast_append_getLast]

theorem copied_eq_self (spill : Nat → UInt8) {key : List UInt8} (h : ¬ CutShort key) :
    copied spill key = key := by
  by_cases h0 : (0 : UInt8) ∈ key
  · obtain ⟨u, v, rfl, hu⟩ := List.eq_append_cons_of_mem h0
    obtain rfl : v = [] := by
      by_contra hv
      exact h (by simp [CutShort, List.dropLast_append_of_ne_nil, List.dropLast_cons_of_ne_nil hv])
    rw [copied_append_zero spill hu]
    rfl
  · rw [copied, cstr_eq_self h0, if_pos rfl]

/-- With one byte all over the place, that byte is the last of each copy that is cut short. -/
theorem getLast_copied {key : List UInt8} (h : CutShort key) (z : UInt8) :
    (copied (fun _ => z) key).getLast? = some z ∧ CutShort (copied (fun _ => z) key) := by
  obtain ⟨u, v, hu, hv, rfl⟩ := h.split
  obtain ⟨n, hn⟩ := Nat.exists_eq_succ_of_ne_zero (List.length_pos_iff.mpr hv).ne'
  have hlast : u ++ 0 :: List.replicate (n + 1) z = (u ++ 0 :: List.replicate n z) ++ [z] := by
    simp [List.replicate_succ']
  rw [copied_append_zero _ hu, List.ofFn_const, hn, hlast]
  refine ⟨List.getLast?_concat, ?_⟩
  rw [CutShort, List.dropLast_concat]
  simp

/-- No key that is cut short is among the copies, when the byte behind them is not its last. -/
theorem cutShort_notMem_copied {keys : List (List UInt8)} {key : List UInt8} {z : UInt8}
    (h : CutShort key) (hz : key.getLast? ≠ some z) : key ∉ keys.map (copied fun _ => z) := by
  intro hmem
  obtain ⟨k, -, rfl⟩ := List.mem_map.mp hmem
  by_cases hk : CutShort k
  · exact hz (getLast_copied hk z).1
  · exact hk (copied_eq_self _ hk ▸ h)

/-- Every allocation succeeds. -/
def Host.HasMemory (h : Host) : Prop := ∀ i size, (h.envs i).mallocOk size = true

/-- What the keys are copied to, one allocation after another. -/
def Host.copies (h : Host) (keys : List (List UInt8)) : List (List UInt8) :=
  keys.mapIdx fun i k => copied (h.envs (h.calls + i + 1)).spill k

theorem Host.copies_eq_self {h : Host} {keys : List (List UInt8)} (hk : ∀ k ∈ keys, ¬ CutShort k) :
    h.copies keys = keys := by
  refine List.ext_getElem (by simp [copies]) fun i hi hi' => ?_
  simp [copies, copied_eq_self _ (hk _ (List.getElem_mem hi'))]

/-- The byte `z` lies behind every copy. -/
def Host.Spills (h : Host) (z : UInt8) : Prop := ∀ i, (h.envs i).spill = fun _ => z

theorem Host.Spills.copies {h : Host} {z : UInt8} (hz : h.Spills z) (keys : List (List UInt8)) :
    h.copies keys = keys.map (copied fun _ => z) := by
  refine List.ext_getElem (by simp [Host.copies]) fun i _ _ => ?_
  simp [Host.copies, hz _]

/-- A host with memory and with the byte `z` behind each copy. -/
def noisyHost (w : World) (z : UInt8) : Host where
  world := w
  envs _ := ⟨0, ⟨true, 0, true, 0, 0⟩, fun _ => true, fun _ => z⟩
  calls := 0

theorem noisyHost_hasMemory (w : World) (z : UInt8) : (noisyHost w z).HasMemory := fun _ _ => rfl

theorem noisyHost_spills (w : World) (z : UInt8) : (noisyHost w z).Spills z := fun _ => rfl

theorem run_copyKey_ok {h : Host} (hm : h.HasMemory) (key : List UInt8) :
    (copyKey key).run hostExec h = (h.allocated, some (copied (h.envs (h.calls + 1)).spill key)) := by
  rw [copyKey, run_callMalloc, hm]
  simp only [Bool.not_true, Bool.false_eq_true, if_false, copied]
  split_ifs <;> rfl

theorem run_copyKeys {h : Host} (hm : h.HasMemory) (keys : List (List UInt8)) :
    (copyKeys keys).run hostExec h =
      ({ h with calls := h.calls + keys.length }, some (h.copies keys)) := by
  induction keys generalizing h with
  | nil => rfl
  | cons k keys ih =>
    have hnext : h.allocated.HasMemory := hm
    rw [copyKeys, Calls.run_bind, run_copyKey_ok hm, Calls.run_bind, ih hnext, run_pure]
    simp only [Host.copies, List.mapIdx_cons, Host.allocated_calls, Host.allocated_envs]
    simp [Host.allocated, Nat.add_assoc, Nat.add_comm 1]

/-! ## The answer -/

def bulkArray (keys : List (List UInt8)) : List UInt8 :=
  respWriteArrayHeader keys.length ++ (keys.map respWriteBulk).flatten

theorem bulks_injective {keys keys' : List (List UInt8)} (hlen : keys.length = keys'.length)
    (h : (keys.map respWriteBulk).flatten = (keys'.map respWriteBulk).flatten) : keys = keys' := by
  induction keys generalizing keys' with
  | nil => exact (List.length_eq_zero_iff.mp hlen.symm).symm
  | cons k keys ih =>
    cases keys' with
    | nil => cases hlen
    | cons k' keys' =>
      rw [List.map_cons, List.flatten_cons, List.map_cons, List.flatten_cons] at h
      obtain ⟨rfl, hrest⟩ := respWriteBulk_append_inj h
      rw [ih (Nat.succ.inj hlen) hrest]

theorem bulkArray_injective : Function.Injective bulkArray := by
  intro keys keys' h
  have hplain (n : Nat) : NoCrlf (42 :: decimal n) :=
    noCrlf_of_plain (cr_notMem_decimal (by decide) n)
  simp only [bulkArray, respWriteArrayHeader, List.append_assoc] at h
  obtain ⟨hhead, hrest⟩ := line_unique h (hplain _) (hplain _)
  exact bulks_injective (decimal_injective (List.cons.inj hhead).2) hrest

section

variable {srv : Srv} {conn : Conn}

theorem run_cmdKeys (hauth : needAuth srv conn vcAclRead = none) {h : Host} (hm : h.HasMemory) :
    ((cmdKeys srv conn [str "KEYS", str "*"]).run hostExec h).2 =
      some ⟨conn, bulkArray (h.allocated.allocated.copies (h.world.cache.liveKeys.take maxKeys))⟩ := by
  have hm1 : h.allocated.HasMemory := hm
  have hm2 : h.allocated.allocated.HasMemory := hm
  rw [cmdKeys, guarded, hauth]
  dsimp only
  rw [argcCheck, if_neg (by simp), run_callMalloc, hm, run_callMalloc, hm1, if_neg (by simp),
    run_callTables, answerKeys, Calls.run_bind, run_copyKeys hm2, collectKeys_eq]
  rfl

/-- The key has a value: a `GET` of it answers with one. -/
def Cache.Answers (c : Cache) (now : Nat) (key : List UInt8) : Prop :=
  key.length < 2 ^ 32 ∧ ∃ val, getBytes c now key = .ok val

theorem answers_iff {c : Cache} {now : Nat} {key : List UInt8} (hk : key.length < 2 ^ 32) :
    c.Answers now key ↔ c.find now key ≠ none := by
  unfold Cache.Answers getBytes
  rw [vcGet_eq, and_iff_right hk]
  cases c.find now key <;> simp

/-- The reply is an array of the keys that have a value, each of them once. -/
def ListsKeyspace (w : World) (reply : List UInt8) : Prop :=
  ∃ keys, reply = bulkArray keys ∧ keys.Nodup ∧ ∀ k, k ∈ keys ↔ w.cache.Answers w.now k

/-- The first 65536 live entries are those of the keys that have a value, one for each key, and no
key has a zero byte before its last byte. -/
structure Listable (w : World) : Prop where
  once : (w.cache.liveKeys.take maxKeys).Nodup
  answer : ∀ k, k ∈ w.cache.liveKeys.take maxKeys ↔ w.cache.Answers w.now k
  whole : ∀ k ∈ w.cache.liveKeys.take maxKeys, ¬ CutShort k

/-- So it is in a store of at most 65536 keys where nothing has expired, while no key is stored
twice or has such a zero byte. -/
theorem listable_of_unexpired {w : World} (hv : w.cache.Valid) (hu : w.cache.Unique)
    (hx : ∀ i ∈ w.cache.items, i.expired w.now = false) (hmax : w.cache.liveKeys.length ≤ maxKeys)
    (hwhole : ∀ k ∈ w.cache.liveKeys, ¬ CutShort k) : Listable w := by
  have htake : w.cache.liveKeys.take maxKeys = w.cache.liveKeys := List.take_of_length_le hmax
  refine ⟨by rw [htake]; exact hu.nodup_liveKeys hv, fun k => ?_, by rw [htake]; exact hwhole⟩
  rw [htake, hv.mem_liveKeys]
  constructor
  · rintro ⟨i, hi, hik⟩
    have hk := hv.key_lt hi hik
    refine (answers_iff hk).mpr fun hnone => ?_
    obtain ⟨j, hj, -, hjx⟩ := hv.find_none hk hnone hi hik
    rw [hx j hj] at hjx
    cases hjx
  · intro hanswers
    have hfound := (answers_iff hanswers.1).mp hanswers
    rw [Ne, find_eq_none_iff, ← Ne] at hfound
    obtain ⟨i, hi⟩ := Option.ne_none_iff_exists'.mp hfound
    exact ⟨i, Cache.mem_copies.mp (findItem_mem_copies hv hanswers.1 hi)⟩

/-- `KEYS *` lists the keyspace, whatever lies behind its copies, exactly in those states. -/
theorem keys_lists_keyspace (hauth : needAuth srv conn vcAclRead = none) (w : World) :
    (∀ h : Host, h.world = w → h.HasMemory →
      ∃ reply, ((cmdKeys srv conn [str "KEYS", str "*"]).run hostExec h).2 = some ⟨conn, reply⟩ ∧
        ListsKeyspace w reply) ↔ Listable w := by
  have hlists {h : Host} (hm : h.HasMemory) {w : World} :
      (∃ reply, ((cmdKeys srv conn [str "KEYS", str "*"]).run hostExec h).2 = some ⟨conn, reply⟩ ∧
        ListsKeyspace w reply) ↔
      (h.allocated.allocated.copies (h.world.cache.liveKeys.take maxKeys)).Nodup ∧
        ∀ k, k ∈ h.allocated.allocated.copies (h.world.cache.liveKeys.take maxKeys) ↔
          w.cache.Answers w.now k := by
    rw [run_cmdKeys hauth hm]
    constructor
    · rintro ⟨reply, hreply, keys, rfl, hnodup, hmem⟩
      obtain rfl : _ = keys := bulkArray_injective (by simpa using hreply)
      exact ⟨hnodup, hmem⟩
    · rintro ⟨hnodup, hmem⟩
      exact ⟨_, rfl, _, rfl, hnodup, hmem⟩
  constructor
  · intro hall
    have hnoisy (z : UInt8) := (hlists (noisyHost_hasMemory w z)).mp
      (hall (noisyHost w z) rfl (noisyHost_hasMemory w z))
    have hcopies (z : UInt8) (keys : List (List UInt8)) :
        (noisyHost w z).allocated.allocated.copies keys = keys.map (copied fun _ => z) :=
      Host.Spills.copies (noisyHost_spills w z) keys
    simp only [hcopies] at hnoisy
    have hwhole : ∀ k ∈ w.cache.liveKeys.take maxKeys, ¬ CutShort k := by
      intro k hk hcut
      -- what the byte 0 makes of `k` is listed, but with the byte 1 it would not be
      obtain ⟨hlast, hcut'⟩ := getLast_copied hcut 0
      have hanswers := ((hnoisy 0).2 _).mp (List.mem_map_of_mem hk)
      have hlisted := ((hnoisy 1).2 _).mpr hanswers
      exact cutShort_notMem_copied hcut' (by rw [hlast]; decide) hlisted
    have hkeys : (w.cache.liveKeys.take maxKeys).map (copied fun _ => 0) =
        w.cache.liveKeys.take maxKeys :=
      (List.map_congr_left fun k hk => copied_eq_self _ (hwhole k hk)).trans (List.map_id _)
    obtain ⟨hnodup, hmem⟩ := hnoisy 0
    rw [show (noisyHost w 0).world = w from rfl, hkeys] at hnodup hmem
    exact ⟨hnodup, hmem, hwhole⟩
  · rintro hw h rfl hm
    rw [hlists hm, Host.copies_eq_self hw.whole]
    exact ⟨hw.once, hw.answer⟩

end

theorem keys_lists_keyspace_one :
    let w := Machine.run step ⟨newCache none 8, 0⟩ [.set (str "a") (str "1") 0 calmEnv]
    w.cache.liveKeys = [str "a"] ∧
      ∀ h : Host, h.world = w → h.HasMemory →
        ∃ reply, ((cmdKeys openServer freshConn [str "KEYS", str "*"]).run hostExec h).2 =
            some ⟨freshConn, reply⟩ ∧ ListsKeyspace w reply := by
  intro w
  have hkeys : w.cache.liveKeys = [str "a"] := by decide +kernel
  have hops : ∀ op ∈ [Op.set (str "a") (str "1") 0 calmEnv], op.NoTtl := by simp [Op.NoTtl]
  have hfresh : Fresh _ w := Fresh.run (rfl : vcCreate none 8 = some (newCache none 8)) 0 hops
  clear_value w
  have hlistable : Listable w := by
    refine listable_of_unexpired hfresh.valid hfresh.unique (fun i hi => ?_) ?_ ?_
    · simp [Item.expired, hfresh.settled.forever i hi]
    · rw [hkeys]
      decide
    · rw [hkeys]
      decide
  exact ⟨hkeys, (keys_lists_keyspace (by decide) w).mpr hlistable⟩

/-- The key `a\0b` has a value and is listed as `a\0X`. -/
theorem zero_byte_key_not_listed :
    let w := Machine.run step ⟨newCache none 8, 0⟩ [.set (str "a\x00b") (str "1") 0 calmEnv]
    w.Reachable ∧ w.cache.Answers w.now (str "a\x00b") ∧
      ((cmdKeys openServer freshConn [str "KEYS", str "*"]).run hostExec (noisyHost w 88)).2 =
        some ⟨freshConn, str "*1\r\n$3\r\na\x00X\r\n"⟩ ∧
      ¬ ListsKeyspace w (str "*1\r\n$3\r\na\x00X\r\n") := by
  intro w
  have hanswers : w.cache.Answers w.now (str "a\x00b") :=
    (answers_iff (by decide +kernel)).mpr (by decide +kernel)
  refine ⟨⟨none, 8, newCache none 8, 0, _, rfl, rfl⟩, hanswers, by decide +kernel, ?_⟩
  rintro ⟨keys, hreply, -, hmem⟩
  have hsent : str "*1\r\n$3\r\na\x00X\r\n" = bulkArray [str "a\x00X"] := by decide +kernel
  obtain rfl := bulkArray_injective (hsent.symm.trans hreply)
  exact absurd ((hmem _).mpr hanswers) (by decide +kernel)

end VoidCache
