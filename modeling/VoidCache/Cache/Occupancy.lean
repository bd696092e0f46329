import VoidCache.Cache.LastWrite

/-!
# Nothing is lost silently, and the count is exact

The insertion loop has no failure result: when it meets no free slot in `cap` steps, one
entry is dropped and the count is increased all the same. `HasRoom` says when this cannot
happen. In runs whose sets all find room the counter equals the number of live slots, and a
set loses at most one other key, to a counted eviction. What is stored can be found in every
run: the slots from the home of a live entry to the entry are never empty.
-/
namespace VoidCache

variable {c c' : Cache} {now : Nat} {key val : List UInt8}

/-! ## Counting -/

/-- The counter of every shard equals its number of live slots. -/
def Cache.Exact (c : Cache) : Prop :=
  ∀ si, si < numShards → (c.shards si).count = (c.shards si).liveCount

/-- An accepted `vc_set` finds room. -/
def Roomy (w : World) : Op → Prop
  | .set key val _ _ => Settable key val → w.cache.HasRoom w.now key
  | _ => True

instance (w : World) : (op : Op) → Decidable (Roomy w op)
  | .set .. => inferInstanceAs (Decidable (_ → _))
  | .get _ | .del .. | .flush | .tick _ => isTrue trivial

theorem SameEntries.liveCount {s s' : Shard} (h : SameEntries s s') : s'.liveCount = s.liveCount := by
  rw [← Shard.card_contents, ← Shard.card_contents, h.contents]

theorem Touched.exact (h : Touched c c') (hc : c.Exact) : c'.Exact := fun si hsi => by
  rw [(h.same si).count, (h.same si).liveCount]
  exact hc si hsi

/-- Only the home shard of the key changes. -/
theorem Cache.Exact.of_others (hc : c.Exact)
    (hothers : ∀ j, j ≠ homeShard key → c'.shards j = c.shards j)
    (hhome : (c.shards (homeShard key)).count = (c.shards (homeShard key)).liveCount →
      (c'.shards (homeShard key)).count = (c'.shards (homeShard key)).liveCount) : c'.Exact := by
  intro si hsi
  by_cases h : si = homeShard key
  · rw [h] at hsi ⊢
    exact hhome (hc _ hsi)
  · rw [hothers si h]
    exact hc si hsi

theorem Effect.exact {w : World} {op : Op} {r : Res} (h : Effect w.cache w.now op r c')
    (hop : Roomy w op) (hc : w.cache.Exact) : c'.Exact := by
  cases h with
  | stored hset h => exact hc.of_others h.others fun hcount => h.count hcount (h.room (hop hset))
  | oom _ _ _ hs =>
    unfold Cache.Exact
    rw [hs]
    exact hc
  | invalid => exact hc
  | got h => exact h.exact hc
  | deleted h => exact hc.of_others h.others h.count
  | absent _ h => exact h.exact hc
  | flushed _ _ h =>
    intro si hsi
    rw [(h si hsi).count, ← Shard.card_contents, (h si hsi).contents]
    rfl
  | ticked => exact hc

theorem vcCreate_exact {file : Option (Nat → UInt8)} {slots : UInt32}
    (hc : vcCreate file slots = some c) : c.Exact := by
  obtain ⟨cap, _, _, rfl⟩ := vcCreate_cases hc
  intro si _
  rw [← Shard.card_contents]
  exact (congrArg Multiset.card (emptyShard_contents cap)).symm

theorem Shard.liveCount_le (s : Shard) : s.liveCount ≤ s.cap :=
  (Finset.card_filter_le _ _).trans (by simp)

/-! ## Keys -/

/-- The table of shard `si` has a live entry for `key`. -/
def Cache.LiveKey (c : Cache) (si : Nat) (key : List UInt8) : Prop :=
  ∃ i, i < (c.shards si).cap ∧ ((c.shards si).table i).state = .live ∧
    (itemOf c.mem ((c.shards si).table i).toEntryData).key = Cell.bytes key

/-- Some live entry of the cache has this key. -/
def Cache.HasKey (c : Cache) (key : List UInt8) : Prop := ∃ i ∈ c.items, i.key = Cell.bytes key

theorem Cache.Valid.liveKey_iff (hv : c.Valid) {si : Nat} (hsi : si < numShards) :
    c.LiveKey si key ↔ homeShard key = si ∧ c.HasKey key := by
  constructor
  · rintro ⟨i, hi, hl, hk⟩
    have hd := Shard.mem_contents.mpr ⟨i, hi, hl, rfl⟩
    obtain ⟨key', val, hn, hsk⟩ := hv.named si hsi _ hd
    rw [hn.item] at hk
    obtain rfl := Cell.bytes_injective hk
    exact ⟨hsk, _, mem_items.mpr ⟨_, mem_contents.mpr ⟨si, hsi, hd⟩, rfl⟩, by rw [hn.item]⟩
  · rintro ⟨rfl, i, hi, hk⟩
    obtain ⟨d, hd, rfl⟩ := mem_items.mp hi
    obtain ⟨sj, hsj, hd⟩ := mem_contents.mp hd
    obtain ⟨key', val, hn, rfl⟩ := hv.named sj hsj d hd
    have hk' := hk
    rw [hn.item] at hk'
    obtain rfl := Cell.bytes_injective hk'
    obtain ⟨slot, hslot, hl, rfl⟩ := Shard.mem_contents.mp hd
    exact ⟨slot, hslot, hl, hk⟩

/-- Every item has a key of bytes. -/
theorem Cache.Valid.exists_key (hv : c.Valid) {i : Item} (hi : i ∈ c.items) :
    ∃ key, i.key = Cell.bytes key := by
  obtain ⟨d, hd, rfl⟩ := mem_items.mp hi
  obtain ⟨si, hsi, hd⟩ := mem_contents.mp hd
  obtain ⟨key, _, hn, _⟩ := hv.named si hsi d hd
  exact ⟨key, by rw [hn.item]⟩

/-- The keys after a set that drops nothing: the new one, and those of the entries that stay. -/
theorem SetOk.hasKey_after {new : Item} {ev : Option Item} {rest : Multiset Item}
    (h : SetOk c now key new c' ev none rest) (hnew : new.key = Cell.bytes key) (k : List UInt8) :
    c'.HasKey k ↔ k = key ∨ ∃ i ∈ rest, i.key = Cell.bytes k := by
  have ha := h.after
  rw [one_none, add_zero] at ha
  unfold Cache.HasKey
  simp only [ha, Multiset.mem_cons, exists_eq_or_imp, hnew]
  exact or_congr_left ⟨fun he => (Cell.bytes_injective he).symm, fun he => by rw [he]⟩

/-- The keys before it, apart from the new one: those of the victim and of the entries that
stay. -/
theorem SetOk.hasKey_before {new : Item} {ev left : Option Item} {rest : Multiset Item}
    (h : SetOk c now key new c' ev left rest) (hv : c.Valid) (hk : key.length < 2 ^ 32)
    {k : List UInt8} (hne : k ≠ key) :
    c.HasKey k ↔ (∃ i ∈ one ev, i.key = Cell.bytes k) ∨ ∃ i ∈ rest, i.key = Cell.bytes k := by
  have hold : ∀ i ∈ one (c.findItem now key), i.key ≠ Cell.bytes k := by
    intro i hi he
    cases hf : c.findItem now key with
    | none =>
      rw [hf] at hi
      exact absurd hi (Multiset.notMem_zero i)
    | some old =>
      rw [hf, one_some, Multiset.mem_singleton] at hi
      rw [hi, findItem_key hv hk hf] at he
      exact hne (Cell.bytes_injective he).symm
  unfold Cache.HasKey
  rw [h.before]
  simp only [Multiset.mem_add]
  grind

/-- A set that drops nothing adds its key and loses at most the key of the clock's victim. -/
theorem SetOk.hasKey {new : Item} {ev : Option Item} {rest : Multiset Item}
    (h : SetOk c now key new c' ev none rest) (hv : c.Valid) (hk : key.length < 2 ^ 32)
    (hnew : new.key = Cell.bytes key) (hu : c.Unique) (hns : c.Unshadowed now key) :
    ∃ lost : Option (List UInt8),
      (∀ k, c'.HasKey k ↔ (c.HasKey k ∨ k = key) ∧ lost ≠ some k) ∧
      ∀ k, lost = some k → k ≠ key ∧ ev ≠ none := by
  have hafter := h.hasKey_after hnew
  have hbefore : ∀ k, k ≠ key → (c.HasKey k ↔ _) := fun k => h.hasKey_before hv hk
  cases ev with
  | none =>
    refine ⟨none, fun k => ?_, by simp⟩
    by_cases hkey : k = key
    · simp [hafter, hkey]
    · simp [hafter, hbefore k hkey, hkey]
  | some e =>
    have hsplit : c.items = e ::ₘ (one (c.findItem now key) + rest) := by
      rw [h.before, one_some, Multiset.singleton_add, Multiset.add_cons]
    obtain ⟨ke, hke⟩ := hv.exists_key (show e ∈ c.items by simp [hsplit])
    have hne : ke ≠ key := by
      rintro rfl
      exact h.rest_key hv hk hu hns (by simp) hke
    -- the victim's key occurs once, so nothing that stays has it
    have hgone : ¬ ∃ i ∈ rest, i.key = Cell.bytes ke := by
      rintro ⟨i, hi, hik⟩
      exact hu.notMem hsplit (Multiset.mem_add.mpr (Or.inr hi)) (by rw [hik, hke])
    refine ⟨some ke, fun k => ?_, fun k hlost => ⟨Option.some.inj hlost ▸ hne, by simp⟩⟩
    by_cases hkey : k = key
    · simp [hafter, hkey, hne]
    by_cases hvictim : k = ke
    · simp [hafter, hvictim, hne, hgone]
    · have hother : ¬ Cell.bytes ke = (Cell.bytes k : Cells) := fun he =>
        hvictim (Cell.bytes_injective he).symm
      simp [hafter, hbefore k hkey, hkey, hke, hother, Ne.symm hvictim]

/-! ## Runs -/

theorem exact_run {file : Option (Nat → UInt8)} {slots : UInt32} (hc : vcCreate file slots = some c)
    (now : Nat) {ops : List Op} (hroom : Machine.Along step Roomy ⟨c, now⟩ ops) :
    (Machine.run step ⟨c, now⟩ ops).cache.Exact :=
  (Machine.run_inv (I := fun w => w.cache.Valid ∧ w.cache.Exact)
    (fun _ _ h hop =>
      have he := step_effect h.1 _
      ⟨he.valid h.1, he.exact hop h.2⟩)
    ⟨(vcCreate_outcome hc).1, vcCreate_exact hc⟩ hroom).2

/-- In every run without time to live whose sets all find room, the counter of each shard is
its number of live slots. A further set that finds room and returns `VC_OK` stores its key,
and the keys of its table change by that key and by at most one other, evicted and counted. -/
theorem no_silent_loss {file : Option (Nat → UInt8)} {slots : UInt32} {c : Cache}
    (hc : vcCreate file slots = some c) (now : Nat) (ops : List Op)
    (hplain : ∀ op ∈ ops, op.NoTtl) (hroom : Machine.Along step Roomy ⟨c, now⟩ ops) :
    let w := Machine.run step ⟨c, now⟩ ops
    (∀ si, si < numShards → (w.cache.shards si).count = (w.cache.shards si).liveCount ∧
      (w.cache.shards si).count ≤ (w.cache.shards si).cap) ∧
    ∀ key val env, Roomy w (.set key val 0 env) →
      (step w (.set key val 0 env)).2 = .done (.ok ()) →
      let c' := (step w (.set key val 0 env)).1.cache
      c'.LiveKey (homeShard key) key ∧
      (∀ si, si ≠ homeShard key → c'.shards si = w.cache.shards si) ∧
      ∃ lost : Option (List UInt8),
        (∀ k, c'.LiveKey (homeShard key) k ↔
          (w.cache.LiveKey (homeShard key) k ∨ k = key) ∧ lost ≠ some k) ∧
        ∀ k, lost = some k → k ≠ key ∧ (c'.shards (homeShard key)).evictions =
          ((w.cache.shards (homeShard key)).evictions + 1) % 2 ^ 64 := by
  intro w
  have hfresh := Fresh.run hc now hplain
  have hexact := exact_run hc now hroom
  refine ⟨fun si hsi => ⟨hexact si hsi, ?_⟩, fun key val env hop hok => ?_⟩
  · rw [hexact si hsi]
    exact Shard.liveCount_le _
  · have he := step_effect hfresh.valid (.set key val 0 env)
    rw [hok] at he
    cases he with
    | @stored _ _ _ _ _ ev left rest hset h =>
      have hhome : homeShard key < numShards := shardIdx_lt _
      rw [h.room (hop hset)] at h
      obtain ⟨lost, hkeys, hlost⟩ := h.hasKey hfresh.valid hset.2.1 rfl hfresh.unique
        (hfresh.unshadowed key)
      have hself : ¬ lost = some key := fun hl => (hlost key hl).1 rfl
      refine ⟨?_, h.others, lost, fun k => ?_, fun k hl => ⟨(hlost k hl).1, ?_⟩⟩
      · rw [h.valid.liveKey_iff hhome]
        exact ⟨rfl, (hkeys key).mpr ⟨Or.inr rfl, hself⟩⟩
      · rw [h.valid.liveKey_iff hhome, hfresh.valid.liveKey_iff hhome, hkeys k]
        constructor
        · rintro ⟨hk, h1 | h1, h2⟩
          · exact ⟨Or.inl ⟨hk, h1⟩, h2⟩
          · exact ⟨Or.inr h1, h2⟩
        · rintro ⟨⟨hk, h1⟩ | rfl, h2⟩
          · exact ⟨hk, Or.inl h1, h2⟩
          · exact ⟨rfl, Or.inr rfl, h2⟩
      · rw [h.evictions, if_neg (hlost k hl).2]

/-- Two keys that share a table of two slots are both stored. -/
theorem second_key_is_stored :
    let w := Machine.run step ⟨newCache none 2, 0⟩ [.set [97] [1] 0 calmEnv]
    (step w (.set [122] [2] 0 calmEnv)).1.cache.LiveKey (homeShard [122]) [122] := by
  exact ((no_silent_loss (show vcCreate none 2 = some (newCache none 2) from rfl) 0
    [.set [97] [1] 0 calmEnv] (by simp [Op.NoTtl]) (by decide +kernel)).2 [122] [2] calmEnv
    (by decide +kernel) (by decide +kernel)).1

/-- In a table of one slot the sweep only clears the clock bit of `a`. The set of `z` returns
`VC_OK`, `z` is not stored, nothing was evicted, and the count is one too high. -/
theorem set_dropped_silently :
    let w := Machine.run step ⟨newCache none 1, 0⟩ [.set [97] [1] 0 calmEnv]
    let w' := (step w (.set [122] [2] 0 calmEnv)).1
    vcCreate none 1 = some (newCache none 1) ∧
      (step w (.set [122] [2] 0 calmEnv)).2 = .done (.ok ()) ∧ homeShard [122] = 14 ∧
      (vcGet w'.cache w'.now [122]).1 = .error .notFnd ∧ (w'.cache.shards 14).evictions = 0 ∧
      (w'.cache.shards 14).liveCount = 1 ∧ (w'.cache.shards 14).count = 2 := by
  refine ⟨rfl, ?_⟩
  decide +kernel

/-! ## Probe chains -/

/-- In every state of every run, no slot from the home of a live entry up to the entry is empty,
and a lookup finds each key that no expired entry holds if and only if some slot holds it. -/
theorem chains_unbroken {w : World} (h : w.Reachable) (si : Nat) :
    let s := w.cache.shards si
    (∀ p < s.cap, (s.table p).state = .live →
      ∀ j ≤ Cyclic.dist s.cap (tableSlot (s.table p).keyHash s.cap) p,
        (s.table ((tableSlot (s.table p).keyHash s.cap + j) % s.cap)).state ≠ .empty) ∧
    ∀ key keyLen hash,
      (∀ p < s.cap, s.HoldsKey w.cache.mem key keyLen hash p →
        entryExpired w.now (s.table p).toEntryData = false) →
      ((∃ slot, shardFind w.cache.mem w.now s key keyLen hash = some slot) ↔
        ∃ p < s.cap, s.HoldsKey w.cache.mem key keyLen hash p) := by
  intro s
  have hs : s.Shape := h.valid.shape si
  refine ⟨fun p hp hl j hj => hs.used_upto hp hl hj, fun key keyLen hash hfresh => ?_⟩
  exact shardFind_iff_holds hs hfresh

/-- The table of two slots that `a` and `z` share, once both are stored and `a` is deleted. -/
theorem chains_unbroken_after_delete :
    let w := Machine.run step ⟨newCache none 2, 0⟩
      [.set [97] [1] 0 calmEnv, .set [122] [2] 5 calmEnv, .del [97] calmEnv]
    let s := w.cache.shards 14
    (∀ p < s.cap, (s.table p).state = .live →
      ∀ j ≤ Cyclic.dist s.cap (tableSlot (s.table p).keyHash s.cap) p,
        (s.table ((tableSlot (s.table p).keyHash s.cap + j) % s.cap)).state ≠ .empty) ∧
    ∀ key keyLen hash,
      (∀ p < s.cap, s.HoldsKey w.cache.mem key keyLen hash p →
        entryExpired w.now (s.table p).toEntryData = false) →
      ((∃ slot, shardFind w.cache.mem w.now s key keyLen hash = some slot) ↔
        ∃ p < s.cap, s.HoldsKey w.cache.mem key keyLen hash p) :=
  chains_unbroken ⟨none, 2, newCache none 2, 0, _, rfl, rfl⟩ 14

end VoidCache
