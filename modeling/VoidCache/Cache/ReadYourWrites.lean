import VoidCache.Cache.Occupancy

/-!
# Read your writes

Below the eviction threshold there is always a free slot and the clock never runs, so a set
stores its item and no call on another key takes it away. A later `vc_get` finds it until its
deadline, provided that no second copy of the key was ever made (see `Uniqueness`).
-/
namespace VoidCache

variable {c c' : Cache} {now : Nat} {key val : List UInt8}

/-- Every shard is below the eviction threshold. -/
def Cache.Below (c : Cache) : Prop :=
  ∀ si, si < numShards → (c.shards si).liveCount * 100 / (c.shards si).cap < 85

instance (c : Cache) : Decidable c.Below :=
  inferInstanceAs (Decidable (∀ si, si < numShards → _))

/-- Calls after which a value set before need not be there. -/
def Op.Writes (key : List UInt8) : Op → Prop
  | .set k _ _ _ => k = key
  | .del k _ => k = key
  | .flush => True
  | _ => False

/-- `vc_del` is not given a key longer than `vc_set` accepts. -/
def Op.KeyFits : Op → Prop
  | .del key _ => key.length < 2 ^ 32
  | _ => True

/-- A step below the threshold that meets no expired live entry of the key it sets. -/
structure Calm (w : World) (op : Op) : Prop where
  below : w.cache.Below
  unhidden : Unhidden w op
  fits : op.KeyFits

/-! ## Room below the threshold -/

theorem Shard.exists_free {s : Shard} (hs : s.Shape) (h : s.liveCount < s.cap) :
    ∃ i, i < s.cap ∧ (s.table i).Free := by
  by_contra hno
  simp only [not_exists, not_and] at hno
  have hall : (Finset.range s.cap).filter (fun i => (s.table i).state = .live) =
      Finset.range s.cap := by
    refine Finset.filter_true_of_mem fun i hi => ?_
    have hf := hno i (Finset.mem_range.mp hi)
    have hb := hs.no_busy i
    unfold Entry.Free at hf
    cases hst : (s.table i).state <;> simp_all
  unfold Shard.liveCount at h
  rw [hall, Finset.card_range] at h
  exact absurd h (lt_irrefl _)

theorem Cache.Below.hasRoom (h : c.Below) (hv : c.Valid) (now : Nat) (key : List UInt8) :
    c.HasRoom now key := by
  have hs := hv.shape (homeShard key)
  have hlt := h (homeShard key) (shardIdx_lt _)
  have hpos := Cyclic.pos_of_pow hs.cap_pow
  refine Or.inl (Shard.exists_free hs ?_)
  rw [Nat.div_lt_iff_lt_mul hpos] at hlt
  omega

/-! ## One step -/

/-- What every state of a calm run satisfies. -/
structure Steady (w : World) : Prop where
  valid : w.cache.Valid
  unique : w.cache.Unique
  exact : w.cache.Exact

theorem Calm.roomy {w : World} {op : Op} (h : Calm w op) (hv : w.cache.Valid) : Roomy w op := by
  cases op with
  | set key => exact fun _ => h.below.hasRoom hv w.now key
  | _ => trivial

theorem Steady.step {w : World} (h : Steady w) {op : Op} (hop : Calm w op) : Steady (step w op).1 :=
  have he := step_effect h.valid op
  ⟨he.valid h.valid, he.unique h.valid h.unique hop.unhidden, he.exact (hop.roomy h.valid) h.exact⟩

/-- Below the threshold a set evicts nothing and drops nothing. -/
theorem SetOk.calm {new : Item} {ev left : Option Item} {rest : Multiset Item}
    (h : SetOk c now key new c' ev left rest) (hv : c.Valid) (hbelow : c.Below) (hexact : c.Exact) :
    ev = none ∧ left = none := by
  have hhome : homeShard key < numShards := shardIdx_lt _
  refine ⟨?_, h.room (hbelow.hasRoom hv now key)⟩
  by_contra hne
  have := h.trigger (hexact _ hhome) hne
  have := hbelow _ hhome
  omega

theorem steady_set {w : World} (h : Steady w) {ttlSec : UInt32} {env : Env}
    (hop : Calm w (.set key val ttlSec env))
    (hok : (step w (.set key val ttlSec env)).2 = .done (.ok ())) :
    Settable key val ∧
      newItem w.now key val ttlSec ∈ (step w (.set key val ttlSec env)).1.cache.items := by
  have he := step_effect h.valid (.set key val ttlSec env)
  rw [hok] at he
  cases he with
  | stored hset hs =>
    obtain ⟨rfl, rfl⟩ := hs.calm h.valid hop.below h.exact
    have ha := hs.after
    rw [one_none, add_zero] at ha
    rw [ha]
    exact ⟨hset, Multiset.mem_cons_self _ _⟩

/-- A call that does not write the key keeps its item. -/
theorem steady_keep {w : World} (h : Steady w) {op : Op} (hop : Calm w op) (hw : ¬ op.Writes key)
    {i : Item} (hik : i.key = Cell.bytes key) (hi : i ∈ w.cache.items) :
    i ∈ (step w op).1.cache.items := by
  have he := step_effect h.valid op
  generalize (step w op).1.cache = c' at he ⊢
  generalize (step w op).2 = r at he
  cases he with
  | @stored k _ _ _ _ _ _ _ hset hs =>
    obtain ⟨rfl, rfl⟩ := hs.calm h.valid hop.below h.exact
    have ha := hs.after
    have hb := hs.before
    rw [one_none, add_zero] at ha
    rw [one_none, zero_add] at hb
    rw [ha]
    rw [hb] at hi
    rcases Multiset.mem_add.mp hi with hi | hi
    · refine absurd ?_ hw
      cases hf : w.cache.findItem w.now k with
      | none =>
        rw [hf] at hi
        exact absurd hi (Multiset.notMem_zero i)
      | some old =>
        rw [hf, one_some, Multiset.mem_singleton] at hi
        rw [hi, findItem_key h.valid hset.2.1 hf] at hik
        exact Cell.bytes_injective hik
    · exact Multiset.mem_cons_of_mem hi
  | oom _ _ hitems => rwa [hitems]
  | invalid => exact hi
  | got ht => rwa [ht.items]
  | @deleted k _ _ j hd =>
    rw [hd.items] at hi
    rcases Multiset.mem_cons.mp hi with rfl | hi
    · refine absurd ?_ hw
      rw [findItem_key h.valid hop.fits hd.found] at hik
      exact Cell.bytes_injective hik
    · exact hi
  | absent _ ht => rwa [ht.items]
  | flushed => exact absurd trivial hw
  | ticked => exact hi

/-! ## Looking an item up -/

/-- The only entry of a key is found, unless it has expired. -/
theorem vcGet_of_only (hv : c.Valid) (hk : key.length < 2 ^ 32) {i : Item} (hi : i ∈ c.items)
    (hik : i.key = Cell.bytes key) (honly : ∀ j ∈ c.items, j.key = Cell.bytes key → j = i)
    (hval : i.val = Cell.bytes val) (hx : i.expired now = false) :
    ∃ loc len, (vcGet c now key).1 = .ok (loc, len) ∧ len = val.length ∧
      (vcGet c now key).2.readLoc loc len = Cell.bytes val := by
  cases hf : c.find now key with
  | none =>
    obtain ⟨j, hj, hjk, hjx⟩ := hv.find_none hk hf hi hik
    rw [honly j hj hjk, hx] at hjx
    exact absurd hjx (by simp)
  | some slot =>
    have hok : (vcGet c now key).1 = .ok (entryVal (homeShard key) slot
        ((c.shards (homeShard key)).table slot).toEntryData,
        ((c.shards (homeShard key)).table slot).valLen) := by rw [vcGet_eq, hf]
    obtain ⟨j, val', _, hj, hjk, hjval, _, hlen, hread⟩ := vcGet_ok hv hk hok
    rw [honly j hj hjk, hval] at hjval
    obtain rfl := Cell.bytes_injective hjval
    refine ⟨_, _, hok, hlen, ?_⟩
    rw [(vcGet_touched c now key).readLoc]
    exact hread

theorem newItem_not_expired {now now' : Nat} {ttlSec : UInt32}
    (hfits : now + ttlSec.toNat * 1000000000 < 2 ^ 63)
    (hle : ttlSec ≠ 0 → now' ≤ now + ttlSec.toNat * 1000000000) :
    (newItem now key val ttlSec).expired now' = false := by
  unfold newItem Item.expired deadline
  dsimp only
  by_cases h0 : ttlSec = 0
  · simp [h0]
  · have hle := hle h0
    rw [if_neg h0, toInt64_of_lt hfits, toInt64_of_lt (by omega)]
    split_ifs
    · rfl
    · exact decide_eq_false (by omega)

/-! ## Runs -/

/-- In every run below the threshold in which no `vc_set` meets an expired live entry of its
own key, a value that was set is returned until its deadline, as long as its key is not
written again. -/
theorem read_your_writes {file : Option (Nat → UInt8)} {slots : UInt32} {c : Cache}
    (hc : vcCreate file slots = some c) (now : Nat) (before after : List Op)
    (key val : List UInt8) (ttlSec : UInt32) (env : Env) (hval : val.length ≤ valMax)
    (hcalm : Machine.Along step Calm ⟨c, now⟩ (before ++ .set key val ttlSec env :: after)) :
    let w := Machine.run step ⟨c, now⟩ before
    let w' := Machine.run step (step w (.set key val ttlSec env)).1 after
    (step w (.set key val ttlSec env)).2 = .done (.ok ()) →
    w.now + ttlSec.toNat * 1000000000 < 2 ^ 63 →
    (∀ op ∈ after, ¬ op.Writes key) →
    (ttlSec ≠ 0 → w'.now ≤ w.now + ttlSec.toNat * 1000000000) →
    ∃ loc len, (vcGet w'.cache w'.now key).1 = .ok (loc, len) ∧ len = val.length ∧
      (vcGet w'.cache w'.now key).2.readLoc loc len = Cell.bytes val := by
  intro w w' hok hfits hafter hle
  rw [Machine.along_append] at hcalm
  obtain ⟨hbefore, hset, hrest⟩ := hcalm
  have h0 : Steady ⟨c, now⟩ := by
    obtain ⟨hv, hi⟩ := vcCreate_outcome hc
    refine ⟨hv, ?_, vcCreate_exact hc⟩
    unfold Cache.Unique
    rw [hi]
    exact Multiset.nodup_zero
  have hw : Steady w := Machine.run_inv (fun _ _ h hop => h.step hop) h0 hbefore
  obtain ⟨hsettable, hmem⟩ := steady_set hw hset hok
  have hend := Machine.run_inv
    (I := fun v => Steady v ∧ newItem w.now key val ttlSec ∈ v.cache.items)
    (fun _ _ h hop => ⟨h.1.step hop.1, steady_keep h.1 hop.1 hop.2 rfl h.2⟩)
    ⟨hw.step hset, hmem⟩ (hrest.and_forall hafter)
  refine vcGet_of_only hend.1.valid hsettable.2.1 hend.2 rfl
    (fun j hj hjk => hend.1.unique.eq hj hend.2 hjk) ?_ (newItem_not_expired hfits hle)
  rw [newItem, List.take_of_length_le hval]

/-- A value with five seconds to live is read back after one nanosecond. -/
theorem read_value_with_ttl :
    let w := (step ⟨newCache none 4, 0⟩ (.set [97] [7] 5 calmEnv)).1
    let w' := Machine.run step w [.tick 1]
    ∃ loc len, (vcGet w'.cache w'.now [97]).1 = .ok (loc, len) ∧ len = 1 ∧
      (vcGet w'.cache w'.now [97]).2.readLoc loc len = Cell.bytes [7] := by
  have hc : vcCreate none 4 = some (newCache none 4) := rfl
  refine read_your_writes hc 0 [] [.tick 1] [97] [7] 5 calmEnv (by decide) ⟨?_, ?_, trivial⟩
    (by decide +kernel) (by decide) (by simp [Op.Writes]) (by decide +kernel)
  · exact ⟨by decide +kernel, unshadowed_of_empty (vcCreate_outcome hc).2, trivial⟩
  · exact ⟨by decide +kernel, trivial, trivial⟩

/-- Two seconds after `a` was set for one second it is set again, for ever. The tables are at
most half full, both sets return `VC_OK`, and `a` is not found. -/
theorem set_after_expiry_not_found :
    let w := Machine.run step ⟨newCache none 4, 0⟩ [.set [97] [1] 1 calmEnv, .tick 2000000000]
    let w' := (step w (.set [97] [2] 0 calmEnv)).1
    vcCreate none 4 = some (newCache none 4) ∧ w.cache.Below ∧ w'.cache.Below ∧
      (step w (.set [97] [2] 0 calmEnv)).2 = .done (.ok ()) ∧
      (vcGet w'.cache w'.now [97]).1 = .error .notFnd := by
  refine ⟨rfl, ?_⟩
  decide +kernel

end VoidCache
