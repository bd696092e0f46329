import VoidCache.Cache.Runs

/-!
# One live entry per key, and finality of delete

An expired entry stays live in its slot, but the scan answers `none` when it meets one. A
`vc_set` of its key then stores a second copy beside it. In runs without such a `vc_set`
every key has at most one live entry, and what `vc_del` removed stays away.
-/
namespace VoidCache

variable {c c' : Cache} {now : Nat} {key : List UInt8}

/-- A `vc_set` meets no expired live entry of its key. -/
def Unhidden (w : World) : Op → Prop
  | .set key _ _ _ => w.cache.Unshadowed w.now key
  | _ => True

/-- The clock stays within `int64_t`. -/
def ClockFits (w : World) : Op → Prop
  | .tick ns => w.now + ns < 2 ^ 63
  | _ => True

/-- The condition on the steps of a run under which keys are unique and deletes are final. -/
def Orderly (w : World) (op : Op) : Prop := Unhidden w op ∧ ClockFits w op

/-! ## At most one live slot -/

theorem Effect.unique {op : Op} {r : Res} {w : World} (h : Effect w.cache w.now op r c')
    (hv : w.cache.Valid) (hu : w.cache.Unique) (hop : Unhidden w op) : c'.Unique := by
  cases h with
  | stored hset h => exact h.unique hv hset.2.1 rfl hu hop
  | oom _ _ hi => exact hu.of_le hi.le
  | invalid => exact hu
  | got h => exact hu.of_le h.items.le
  | deleted h => exact hu.of_le (h.items ▸ Multiset.le_cons_self _ _)
  | absent _ h => exact hu.of_le h.items.le
  | flushed _ h => exact hu.of_le (h ▸ Multiset.zero_le _)
  | ticked => exact hu

/-- Two live slots of one table hold different keys. -/
theorem Cache.Unique.slots (hu : c.Unique) {si i j : Nat} (hsi : si < numShards)
    (hi : i < (c.shards si).cap) (hj : j < (c.shards si).cap)
    (hli : ((c.shards si).table i).state = .live) (hlj : ((c.shards si).table j).state = .live)
    (hk : (itemOf c.mem ((c.shards si).table i).toEntryData).key =
      (itemOf c.mem ((c.shards si).table j).toEntryData).key) : i = j := by
  by_contra hne
  obtain ⟨Q, hQ⟩ := exists_beside c hsi
  have hc : c.items = itemOf c.mem ((c.shards si).table i).toEntryData ::ₘ
      (((c.shards si).bury i).contents + Q).map (itemOf c.mem) := by
    rw [Cache.items, hQ.self, bury_contents hi hli, Multiset.cons_add, Multiset.map_cons]
  refine hu.notMem hc (Multiset.mem_map_of_mem _ ?_) hk.symm
  refine Multiset.mem_add.mpr (Or.inl (Shard.mem_contents.mpr ⟨j, hj, ?_⟩))
  simp [Ne.symm hne, hlj]

/-! ## Deleted keys -/

/-- Every live entry of `key` has expired. -/
def Cache.Hidden (c : Cache) (now : Nat) (key : List UInt8) : Prop :=
  ∀ i ∈ c.items, i.key = Cell.bytes key → i.expired now = true

theorem Item.expired_mono {i : Item} {now now' : Nat} (h : i.expired now = true) (hle : now ≤ now')
    (hlt : now' < 2 ^ 63) : i.expired now' = true := by
  unfold Item.expired at *
  split_ifs at * with h0
  rw [decide_eq_true_iff] at *
  rw [toInt64_of_lt (by omega)] at h
  rw [toInt64_of_lt hlt]
  omega

theorem vcGet_hidden (hv : c.Valid) (hk : key.length < 2 ^ 32) (h : c.Hidden now key)
    (p : Loc × Nat) : (vcGet c now key).1 ≠ .ok p := by
  obtain ⟨loc, len⟩ := p
  intro hok
  obtain ⟨i, val, _, hi, hik, _, hx, _⟩ := vcGet_ok hv hk hok
  rw [h i hi hik] at hx
  exact absurd hx (by simp)

/-- Whatever `vc_del` returns, it leaves at most an expired entry of its key. -/
theorem Effect.hidden_of_del {env : Env} {r : Res} (h : Effect c now (.del key env) r c')
    (hv : c.Valid) (hk : key.length < 2 ^ 32) (hu : c.Unique) : c'.Hidden now key := by
  cases h with
  | deleted h =>
    intro i hi hik
    exact absurd (hik.trans (findItem_key hv hk h.found).symm) (hu.notMem h.items hi)
  | absent hf h =>
    intro i hi hik
    rw [h.items] at hi
    obtain ⟨j, hj, hjk, hx⟩ := hv.find_none hk hf hi hik
    rwa [hu.eq hi hj (hik.trans hjk.symm)]

def Op.IsSetOf (key : List UInt8) : Op → Prop
  | .set k _ _ _ => k = key
  | _ => False

/-- A step that does not set the key cannot bring it back. -/
theorem Effect.hidden {op : Op} {r : Res} (h : Effect c now op r c') (hc : c.Hidden now key)
    (hop : ¬ op.IsSetOf key) : c'.Hidden now key := by
  cases h with
  | stored _ h =>
    intro i hi hik
    rcases Multiset.mem_cons.mp (h.after ▸ Multiset.mem_add.mpr (Or.inl hi)) with rfl | hi
    · exact absurd (Cell.bytes_injective hik) hop
    · refine hc i ?_ hik
      rw [h.before]
      exact Multiset.mem_add.mpr (Or.inr (Multiset.mem_add.mpr (Or.inr hi)))
  | oom _ _ hi => exact fun i h => hc i (hi ▸ h)
  | invalid => exact hc
  | got h => exact fun i hi => hc i (h.items ▸ hi)
  | deleted h => exact fun i hi => hc i (h.items ▸ Multiset.mem_cons_of_mem hi)
  | absent _ h => exact fun i hi => hc i (h.items ▸ hi)
  | flushed _ h =>
    intro i hi
    rw [h] at hi
    exact absurd hi (Multiset.notMem_zero i)
  | ticked => exact hc

/-! ## Runs -/

/-- What every state of a run without hidden keys satisfies. -/
structure Tidy (w : World) : Prop where
  valid : w.cache.Valid
  unique : w.cache.Unique
  now : w.now < 2 ^ 63

theorem Cache.Unique.of_empty {c : Cache} (h : c.items = 0) : c.Unique := by
  unfold Cache.Unique
  rw [h]
  exact Multiset.nodup_zero

theorem Tidy.create {file : Option (Nat → UInt8)} {slots : UInt32} {c : Cache}
    (hc : vcCreate file slots = some c) {now : Nat} (hnow : now < 2 ^ 63) : Tidy ⟨c, now⟩ := by
  obtain ⟨hv, hi⟩ := vcCreate_outcome hc
  exact ⟨hv, Cache.Unique.of_empty hi, hnow⟩

theorem step_now {w : World} {op : Op} (hnow : w.now < 2 ^ 63) (hop : ClockFits w op) :
    w.now ≤ (step w op).1.now ∧ (step w op).1.now < 2 ^ 63 := by
  cases op with
  | tick ns => exact ⟨Nat.le_add_right _ _, hop⟩
  | _ => exact ⟨le_refl _, hnow⟩

theorem Tidy.step {w : World} (h : Tidy w) {op : Op} (hop : Orderly w op) : Tidy (step w op).1 :=
  have he := step_effect h.valid op
  ⟨he.valid h.valid, he.unique h.valid h.unique hop.1, (step_now h.now hop.2).2⟩

theorem Tidy.run {w : World} (h : Tidy w) {ops : List Op}
    (hops : Machine.Along VoidCache.step Orderly w ops) : Tidy (Machine.run VoidCache.step w ops) :=
  Machine.run_inv (fun _ _ h hop => h.step hop) h hops

theorem step_hidden {w : World} (h : Tidy w) {op : Op} (hop : ClockFits w op)
    (hset : ¬ op.IsSetOf key) (hhid : w.cache.Hidden w.now key) :
    (step w op).1.cache.Hidden (step w op).1.now key := by
  have hhid' := (step_effect h.valid op).hidden hhid hset
  obtain ⟨hle, hlt⟩ := step_now h.now hop
  exact fun i hi hik => Item.expired_mono (hhid' i hi hik) hle hlt

/-- In every run in which no `vc_set` meets an expired live entry of its key, each table
holds at most one live entry per key, and a key that was deleted is not found again before
it is set again. -/
theorem unique_and_delete_final {file : Option (Nat → UInt8)} {slots : UInt32} {c : Cache}
    (hc : vcCreate file slots = some c) {now : Nat} (hnow : now < 2 ^ 63) (ops : List Op)
    (hops : Machine.Along step Orderly ⟨c, now⟩ ops) :
    let w := Machine.run step ⟨c, now⟩ ops
    (∀ si i j, si < numShards → i < (w.cache.shards si).cap → j < (w.cache.shards si).cap →
      ((w.cache.shards si).table i).state = .live → ((w.cache.shards si).table j).state = .live →
      (itemOf w.cache.mem ((w.cache.shards si).table i).toEntryData).key =
        (itemOf w.cache.mem ((w.cache.shards si).table j).toEntryData).key → i = j) ∧
    ∀ (key : List UInt8) (env : Env) (before after : List Op), key.length < 2 ^ 32 →
      ops = before ++ .del key env :: after → (∀ op ∈ after, ¬ op.IsSetOf key) →
      ∀ p, (vcGet w.cache w.now key).1 ≠ .ok p := by
  have htidy := Tidy.create hc hnow
  refine ⟨fun si i j hsi hi hj => (htidy.run hops).unique.slots hsi hi hj, ?_⟩
  rintro key env before after hk rfl hafter
  rw [Machine.along_append] at hops
  obtain ⟨hbefore, hdel, hops⟩ := hops
  have hw := htidy.run hbefore
  rw [Machine.run_append]
  generalize Machine.run step ⟨c, now⟩ before = w at hw hdel hops ⊢
  -- from the state after the delete on, every live entry of the key has expired
  have hhid : (step w (.del key env)).1.cache.Hidden (step w (.del key env)).1.now key :=
    (step_effect hw.valid _).hidden_of_del hw.valid hk hw.unique
  have hend := Machine.run_inv (I := fun w => Tidy w ∧ w.cache.Hidden w.now key)
    (fun w op h hop => ⟨h.1.step hop.1, step_hidden h.1 hop.1.2 hop.2 h.2⟩)
    ⟨hw.step hdel, hhid⟩ (hops.and_forall hafter)
  exact vcGet_hidden hend.1.valid hk hend.2

/-- An environment in which every allocation succeeds. -/
def calmEnv : Env := ⟨true, 0, true, 0, 0⟩

/-- A key set, deleted, and looked for a nanosecond later. -/
theorem delete_final_after_set :
    let w := Machine.run step ⟨newCache none 2, 0⟩
      [.set [97] [1] 1 calmEnv, .del [97] calmEnv, .tick 1]
    ∀ p, (vcGet w.cache w.now [97]).1 ≠ .ok p := by
  have hc : vcCreate none 2 = some (newCache none 2) := rfl
  exact (unique_and_delete_final hc (by decide)
    [.set [97] [1] 1 calmEnv, .del [97] calmEnv, .tick 1]
    ⟨⟨unshadowed_of_empty (vcCreate_outcome hc).2, trivial⟩, ⟨trivial, trivial⟩,
      ⟨trivial, (show 0 + 1 < 2 ^ 63 by decide)⟩, trivial⟩).2 [97] calmEnv
    [.set [97] [1] 1 calmEnv] [.tick 1] (by decide) rfl (by simp [Op.IsSetOf])

/-! ## A key stored twice -/

/-- `a` expires after one second and is set again two seconds later. -/
def setExpired : List Op := [.set [97] [1] 1 calmEnv, .tick 2000000000, .set [97] [2] 0 calmEnv]

/-- Both copies of `a` are live; `vc_del` answers `VC_ERR_NOTFND`; and after two sets of `z`
have pushed the expired copy out, `vc_get` returns the other one. -/
theorem expired_key_stored_twice :
    let w := Machine.run step ⟨newCache none 2, 0⟩ setExpired
    let w' := Machine.run step w
      [.del [97] calmEnv, .set [122] [3] 0 calmEnv, .set [122] [3] 0 calmEnv]
    vcCreate none 2 = some (newCache none 2) ∧
      ((w.cache.shards 14).table 0).state = .live ∧ ((w.cache.shards 14).table 1).state = .live ∧
      (itemOf w.cache.mem ((w.cache.shards 14).table 0).toEntryData).key =
        (itemOf w.cache.mem ((w.cache.shards 14).table 1).toEntryData).key ∧
      (vcGet w'.cache w'.now [97]).1 = .ok (.payload 14 0 1, 1) := by
  refine ⟨rfl, by decide +kernel, by decide +kernel, by decide +kernel, by decide +kernel⟩

end VoidCache
