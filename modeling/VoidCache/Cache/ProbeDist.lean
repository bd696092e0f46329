import VoidCache.Cache.Uniqueness

/-!
# Stored probe distances

`probe_dist` in an entry has eight bits. In every state that can be reached it is the real
distance from the home slot modulo 256, so it is the real one as long as that is below 256.
Beyond, a walk that has just passed slot 255 looks like one that has just begun.
-/
namespace VoidCache

/-- `probe_dist`: the steps from the home slot of a hash to a slot. -/
def probeDist (h : UInt64) (slot cap : Nat) : Nat := (slot + cap - tableSlot h cap) &&& (cap - 1)

section Distances

variable {cap slot : Nat} {h : UInt64}

theorem probeDist_eq (hc : ∃ b, cap = 2 ^ b) (h : UInt64) (slot : Nat) :
    probeDist h slot cap = Cyclic.dist cap (tableSlot h cap) slot := Cyclic.mask_eq_mod hc _

theorem probeDist_lt (hc : ∃ b, cap = 2 ^ b) (h : UInt64) (slot : Nat) : probeDist h slot cap < cap := by
  rw [probeDist_eq hc]
  exact Cyclic.dist_lt (Cyclic.pos_of_pow hc) ..

theorem probeDist_home (hc : ∃ b, cap = 2 ^ b) (h : UInt64) : probeDist h (tableSlot h cap) cap = 0 := by
  have hh := tableSlot_lt hc h
  rw [probeDist_eq hc, Cyclic.dist_eq hh hh, if_pos (Nat.le_refl _), Nat.sub_self]

/-- A step leads one slot further from home, or home. -/
theorem probeDist_next (hc : ∃ b, cap = 2 ^ b) (hs : slot < cap) :
    probeDist h (Cyclic.next cap slot) cap = (probeDist h slot cap + 1) % cap := by
  have hh := tableSlot_lt hc h
  rw [probeDist_eq hc, probeDist_eq hc, Cyclic.dist, Cyclic.dist, Nat.mod_add_mod,
    Cyclic.next_eq_mod hc]
  by_cases hlast : slot + 1 < cap
  · rw [Nat.mod_eq_of_lt hlast]
    congr 1
    omega
  · have hwrap : slot + 1 = cap := by omega
    rw [hwrap, Nat.mod_self, Nat.zero_add, ← Nat.add_mod_right]
    congr 1
    omega

end Distances

/-- The stored distance of a live entry is the real one, as far as eight bits go. -/
def LowDist (cap i : Nat) (e : Entry) : Prop :=
  e.state = .live → e.probeDist = probeDist e.keyHash i cap % 256

def Shard.LowDists (s : Shard) : Prop := ∀ i < s.cap, LowDist s.cap i (s.table i)

/-! ## Insertion -/

/-- With `n` steps to go the loop stands at `slot` with an entry of hash `h` and distance `d`.
A capacity below 256 is not passed: the entry does not come back to its home. -/
structure Carried (cap n slot : Nat) (h : UInt64) (d : Nat) : Prop where
  low : d = probeDist h slot cap % 256
  ahead : 256 ∣ cap ∨ probeDist h slot cap + n ≤ cap

section Insert

variable {cap n slot : Nat} {h : UInt64} {d : Nat}

theorem dvd_or_lt (hc : ∃ b, cap = 2 ^ b) : 256 ∣ cap ∨ cap < 256 := by
  obtain ⟨b, rfl⟩ := hc
  by_cases hb : 8 ≤ b
  · exact .inl (Nat.pow_dvd_pow 2 hb)
  · exact .inr (Nat.pow_lt_pow_right (by decide) (by omega : b < 8))

theorem Carried.next (hc : ∃ b, cap = 2 ^ b) (hs : slot < cap) (hn : 0 < n)
    (hd : Carried cap (n + 1) slot h d) : Carried cap n (Cyclic.next cap slot) h ((d + 1) % 256) := by
  obtain ⟨hlow, hahead⟩ := hd
  have hnext := probeDist_next hc hs (h := h)
  obtain hdvd | hle := hahead
  · refine ⟨?_, .inl hdvd⟩
    rw [hnext, hlow, Nat.mod_mod_of_dvd _ hdvd, Nat.mod_add_mod]
  · rw [Nat.mod_eq_of_lt (by omega)] at hnext
    refine ⟨?_, .inr (by omega)⟩
    rw [hnext, hlow, Nat.mod_add_mod]

/-- The entry that is displaced has come less far, so it does not come home either. -/
theorem Carried.swap (hc : ∃ b, cap = 2 ^ b) (hd : Carried cap n slot h d) {e : Entry}
    (he : LowDist cap slot e) (hl : e.state = .live) (hlt : e.probeDist < d) :
    Carried cap n slot e.keyHash e.probeDist := by
  refine ⟨he hl, ?_⟩
  have hreal := probeDist_lt hc e.keyHash slot
  have hreal' := probeDist_lt hc h slot
  obtain hdvd | hsmall := dvd_or_lt hc
  · exact .inl hdvd
  · obtain hdvd | hle := hd.ahead
    · exact .inl hdvd
    · rw [he hl, hd.low, Nat.mod_eq_of_lt (by omega), Nat.mod_eq_of_lt (by omega)] at hlt
      exact .inr (by omega)

theorem lowDist_update {t : Nat → Entry} (ht : ∀ i < cap, LowDist cap i (t i)) {e : Entry}
    (he : LowDist cap slot e) : ∀ i < cap, LowDist cap i (Function.update t slot e i) := by
  intro i hi
  by_cases his : i = slot
  · subst his
    rwa [Function.update_self]
  · rw [Function.update_of_ne his]
    exact ht i hi

theorem shardInsertLoop_lowDist (hc : ∃ b, cap = 2 ^ b) {t : Nat → Entry} {incoming : Incoming}
    (hs : slot < cap) (ht : ∀ i < cap, LowDist cap i (t i))
    (hin : 0 < n → Carried cap n slot incoming.keyHash incoming.probeDist) :
    ∀ i < cap, LowDist cap i ((shardInsertLoop cap n slot t incoming).1 i) := by
  induction n generalizing slot t incoming with
  | zero => exact ht
  | succ n ih =>
    have hin := hin (Nat.succ_pos n)
    have hput : ∀ i < cap, LowDist cap i (Function.update t slot incoming.placed i) :=
      lowDist_update ht fun _ => hin.low
    rw [shardInsertLoop]
    dsimp only
    split_ifs with hfree hrich
    · exact hput
    · refine ih (Cyclic.next_lt hc slot) hput fun hn => ?_
      exact (hin.swap hc (ht slot hs) hrich.1 hrich.2).next hc hs hn
    · exact ih (Cyclic.next_lt hc slot) ht fun hn => hin.next hc hs hn

theorem Shard.LowDists.insert {s : Shard} (hc : ∃ b, s.cap = 2 ^ b) (hs : s.LowDists)
    (ne : EntryData) : (shardInsert s ne).LowDists := by
  have hhome := probeDist_home hc ne.keyHash
  refine shardInsertLoop_lowDist hc (tableSlot_lt hc ne.keyHash) hs fun _ => ⟨?_, .inr ?_⟩
  · rw [hhome]
  · rw [hhome, Nat.zero_add]

end Insert

/-! ## The other operations -/

/-- Live entries of `s'` were live entries of `s`, with the same hash and distance. -/
structure Fewer (s s' : Shard) : Prop where
  cap : s'.cap = s.cap
  slots : ∀ i, (s'.table i).state = .live →
    (s.table i).state = .live ∧ (s'.table i).keyHash = (s.table i).keyHash ∧
      (s'.table i).probeDist = (s.table i).probeDist

namespace Fewer

variable {s s' s'' : Shard}

theorem refl (s : Shard) : Fewer s s := ⟨rfl, fun _ hl => ⟨hl, rfl, rfl⟩⟩

theorem trans (h : Fewer s s') (h' : Fewer s' s'') : Fewer s s'' := by
  refine ⟨h'.cap.trans h.cap, fun i hl => ?_⟩
  obtain ⟨hl', hk', hd'⟩ := h'.slots i hl
  obtain ⟨hl, hk, hd⟩ := h.slots i hl'
  exact ⟨hl, hk'.trans hk, hd'.trans hd⟩

theorem lowDists (h : Fewer s s') (hs : s.LowDists) : s'.LowDists := by
  intro i hi hl
  rw [h.cap] at hi ⊢
  obtain ⟨hl, hk, hd⟩ := h.slots i hl
  rw [hk, hd]
  exact hs i hi hl

/-- One slot is written, and is live after it only if it was, with its hash and distance. -/
theorem of_update {i : Nat} {e : Entry} (hcap : s'.cap = s.cap)
    (ht : s'.table = Function.update s.table i e)
    (he : e.state = .live → (s.table i).state = .live ∧ e.keyHash = (s.table i).keyHash ∧
      e.probeDist = (s.table i).probeDist) : Fewer s s' := by
  refine ⟨hcap, fun j hl => ?_⟩
  rw [ht] at hl ⊢
  by_cases hji : j = i
  · subst hji
    rw [Function.update_self] at hl ⊢
    exact he hl
  · rw [Function.update_of_ne hji] at hl ⊢
    exact ⟨hl, rfl, rfl⟩

theorem kill (s : Shard) (m : Mem) (i : Nat) : Fewer s (killSlot s m i).1 :=
  of_update (killSlot_cap s m i) (killSlot_table s m i) nofun

theorem hit (s : Shard) (slot : Nat) : Fewer s (s.hit slot) := of_update rfl rfl fun hl => ⟨hl, rfl, rfl⟩

theorem miss (s : Shard) : Fewer s s.miss := ⟨rfl, fun _ hl => ⟨hl, rfl, rfl⟩⟩

theorem swept (h : Swept s s') : Fewer s s' := by
  refine ⟨h.cap, fun i hl => ?_⟩
  rw [h.slots i] at hl ⊢
  exact ⟨hl, rfl, rfl⟩

theorem evict (hc : ∃ b, s.cap = 2 ^ b) (m : Mem) : Fewer s (shardEvictOne s m).2.1 := by
  rcases shardEvictOne_cases hc m with ⟨s', hsw, he, -⟩ | ⟨s', h, hsw, -, -, -, he⟩
  · rw [he]
    exact swept hsw
  · have hkill := kill s' m h
    rw [he]
    exact (swept hsw).trans ⟨hkill.cap, hkill.slots⟩

theorem bury (s : Shard) (j : Nat) : Fewer s (s.bury j) := by
  refine of_update rfl rfl fun hl => ?_
  cases hl

theorem flushSlots (n j : Nat) (s : Shard) (m : Mem) : Fewer s (VoidCache.flushSlots n j s m).1 := by
  induction n generalizing j s m with
  | zero => exact refl s
  | succ n ih =>
    by_cases hl : (s.table j).state = .live
    · rw [flushSlots_of_live hl]
      exact (bury s j).trans (ih _ _ _)
    · rw [flushSlots_of_not_live hl]
      exact ih _ s m

theorem removeOld (s : Shard) (m : Mem) (now : Nat) (key : List UInt8) (ne : EntryData) :
    Fewer s (VoidCache.removeOld s m now key ne).1 := by
  unfold VoidCache.removeOld
  split
  · exact kill s m _
  · exact refl s

theorem evictIfFull (hc : ∃ b, s.cap = 2 ^ b) (m : Mem) : Fewer s (VoidCache.evictIfFull s m).1 := by
  unfold VoidCache.evictIfFull
  split_ifs
  · exact evict hc m
  · exact refl s

end Fewer

theorem Shard.LowDists.lockedSet {s : Shard} (hc : ∃ b, s.cap = 2 ^ b) (hs : s.LowDists) (m : Mem)
    (now : Nat) (key : List UInt8) (ne : EntryData) : (VoidCache.lockedSet s m now key ne).1.LowDists := by
  have hold := Fewer.removeOld s m now key ne
  have hfull := Fewer.evictIfFull (hold.cap ▸ hc) (VoidCache.removeOld s m now key ne).2
  have hboth := hold.trans hfull
  exact (hboth.lowDists hs).insert (hboth.cap ▸ hc) ne

/-- All shards of a cache. -/
def Cache.LowDists (c : Cache) : Prop := ∀ si, (c.shards si).LowDists

theorem Cache.LowDists.setShard {c c' : Cache} (hc : c.LowDists) {si : Nat} {s : Shard}
    (h : c'.shards = Function.update c.shards si s) (hs : s.LowDists) : c'.LowDists := by
  intro sj
  rw [h]
  by_cases hj : sj = si
  · subst hj
    rwa [Function.update_self]
  · rw [Function.update_of_ne hj]
    exact hc sj

theorem flushShards_lowDists (n i : Nat) {c : Cache} (hc : c.LowDists) : (flushShards n i c).LowDists := by
  induction n generalizing i c with
  | zero => exact hc
  | succ n ih =>
    refine ih (i + 1) (hc.setShard rfl ?_)
    have hflush := Fewer.flushSlots (c.shards i).cap 0 (c.shards i) c.mem
    exact Fewer.lowDists ⟨hflush.cap, hflush.slots⟩ (hc i)

theorem vcSet_lowDists {c : Cache} (hv : c.Valid) (hc : c.LowDists) (now : Nat) (env : Env)
    (key val : List UInt8) (ttlSec : UInt32) : (vcSet c now env key val ttlSec).2.LowDists := by
  unfold vcSet
  split
  · exact hc
  · unfold vcSetStore
    split
    · exact hc
    · refine hc.setShard rfl ?_
      exact (hc _).lockedSet (hv.shape _).cap_pow _ _ _ _

theorem vcGet_lowDists {c : Cache} (hc : c.LowDists) (now : Nat) (key : List UInt8) :
    (vcGet c now key).2.LowDists := by
  rw [vcGet_eq]
  cases c.find now key with
  | none => exact hc.setShard rfl ((Fewer.miss _).lowDists (hc _))
  | some slot => exact hc.setShard rfl ((Fewer.hit _ slot).lowDists (hc _))

theorem vcDel_lowDists {c : Cache} (hc : c.LowDists) (now : Nat) (env : Env) (key : List UInt8) :
    (vcDel c now env key).2.LowDists := by
  unfold vcDel vcDelStore
  dsimp only
  split
  · exact hc
  · exact hc.setShard rfl ((Fewer.kill _ _ _).lowDists (hc _))

/-- In every state of every run the stored distances are the real ones modulo 256. -/
theorem World.Reachable.lowDists {w : World} (h : w.Reachable) : w.cache.LowDists := by
  refine h.inv (I := fun w => w.cache.LowDists) (fun file slots c now hc => ?_) fun w op hv hc => ?_
  · obtain ⟨cap, -, -, rfl⟩ := vcCreate_cases hc
    exact fun si i _ hl => nomatch hl
  · cases op with
    | set key val ttlSec env => exact vcSet_lowDists hv hc _ _ _ _ _
    | get key => exact vcGet_lowDists hc _ _
    | del key env => exact vcDel_lowDists hc _ _ _
    | flush => exact flushShards_lowDists _ _ hc
    | tick ns => exact hc

/-- The stored distance of a live entry is the real one exactly as long as that is below 256, as
it always is in a table of at most 256 slots. -/
theorem stored_distance_true_iff {w : World} (h : w.Reachable) {si i : Nat}
    (hi : i < (w.cache.shards si).cap) (hl : ((w.cache.shards si).table i).state = .live) :
    (((w.cache.shards si).table i).probeDist =
        probeDist ((w.cache.shards si).table i).keyHash i (w.cache.shards si).cap ↔
      probeDist ((w.cache.shards si).table i).keyHash i (w.cache.shards si).cap < 256) ∧
    ((w.cache.shards si).cap ≤ 256 →
      probeDist ((w.cache.shards si).table i).keyHash i (w.cache.shards si).cap < 256) := by
  have hlow := h.lowDists si i hi hl
  have hlt := probeDist_lt (h.valid.shape si).cap_pow ((w.cache.shards si).table i).keyHash i
  exact ⟨by omega, fun hcap => by omega⟩

/-- The second entry of a key that was set again after it expired stands one slot from home. -/
theorem stored_distance_one :
    let ops := [Op.set [97] [1] 1 calmEnv, .tick 2000000000, .set [97] [2] 0 calmEnv]
    let s := (Machine.run step ⟨newCache none 8, 0⟩ ops).cache.shards 14
    let i := (tableSlot (wyhash64 [97] 0) 8 + 1) % 8
    probeDist (s.table i).keyHash i s.cap = 1 ∧ (s.table i).probeDist = 1 := by
  intro ops s i
  have hone : probeDist (s.table i).keyHash i s.cap = 1 := by decide +kernel
  have htrue := (stored_distance_true_iff ⟨none, 8, newCache none 8, 0, ops, rfl, rfl⟩
    (by decide +kernel : i < s.cap) (by decide +kernel : (s.table i).state = .live)).1
  exact ⟨hone, (htrue.mpr (by rw [hone]; decide)).trans hone⟩

/-! ## One key, over and over

An expired entry is not found, so a key that is set again after it expired gets another slot, one
further from home. With 512 slots and 257 sets the last one is 256 slots from home.
-/

/-- An entry that meets only entries as far from home as itself walks to the first free slot. -/
theorem shardInsertLoop_walks {cap : Nat} (hc : ∃ b, cap = 2 ^ b) {k n slot : Nat} {t : Nat → Entry}
    {incoming : Incoming} (hkn : k < n) (hs : slot < cap) (hd : incoming.probeDist < 256)
    (hpass : ∀ j < k, (t ((slot + j) % cap)).state = .live ∧
      (t ((slot + j) % cap)).probeDist = (incoming.probeDist + j) % 256)
    (hfree : (t ((slot + k) % cap)).Free) :
    (shardInsertLoop cap n slot t incoming).1 = Function.update t ((slot + k) % cap)
      { incoming with probeDist := (incoming.probeDist + k) % 256 : Incoming }.placed := by
  induction k generalizing slot incoming n with
  | zero =>
    obtain ⟨m, rfl⟩ : ∃ m, n = m + 1 := ⟨n - 1, by omega⟩
    have hhere : (slot + 0) % cap = slot := Nat.mod_eq_of_lt hs
    have hdist : (incoming.probeDist + 0) % 256 = incoming.probeDist := Nat.mod_eq_of_lt hd
    rw [hhere] at hfree ⊢
    rw [hdist, shardInsertLoop]
    exact congrArg Prod.fst (if_pos hfree)
  | succ k ih =>
    obtain ⟨m, rfl⟩ : ∃ m, n = m + 1 := ⟨n - 1, by omega⟩
    obtain ⟨hlive, hdist⟩ := hpass 0 (Nat.succ_pos k)
    rw [Nat.add_zero, Nat.mod_eq_of_lt hs] at hlive hdist
    rw [Nat.add_zero, Nat.mod_eq_of_lt hd] at hdist
    have hused : ¬ ((t slot).state = .empty ∨ (t slot).state = .dead) := by simp [hlive]
    have hpoor : ¬ ((t slot).state = .live ∧ (t slot).probeDist < incoming.probeDist) := by
      rw [hdist]
      exact fun h => Nat.lt_irrefl _ h.2
    rw [shardInsertLoop]
    dsimp only
    rw [if_neg hused, if_neg hpoor, ← Cyclic.next_offset hc]
    have hcarry : ∀ j, ((incoming.probeDist + 1) % 256 + j) % 256 = (incoming.probeDist + (j + 1)) % 256 := by
      intro j
      omega
    have hkm : k < m := by omega
    rw [← hcarry k]
    refine ih hkm (Cyclic.next_lt hc slot) ?_ (fun j hj => ?_) ?_
    · exact Nat.mod_lt _ (by decide)
    · rw [Cyclic.next_offset hc, hcarry]
      exact hpass (j + 1) (by omega)
    · rwa [Cyclic.next_offset hc]

/-- `SET k v EX 1`, and two seconds. -/
def agedOps : Nat → List Op
  | 0 => []
  | k + 1 => agedOps k ++ [.set [107] [118] 1 calmEnv, .tick 2000000000]

def agedHome : Nat := tableSlot (wyhash64 [107] 0) 512

/-- The shard after `k` sets of the key: they lie one behind the other from its home on, and the
first of them has expired. -/
structure Aged (k : Nat) (m : Mem) (s : Shard) : Prop where
  cap : s.cap = 512
  count : s.count = k
  used : ∀ j < k, (s.table ((agedHome + j) % 512)).state = .live ∧
    (s.table ((agedHome + j) % 512)).probeDist = j % 256 ∧
    (s.table ((agedHome + j) % 512)).keyHash = wyhash64 [107] 0
  unused : ∀ j, k ≤ j → j < 512 → (s.table ((agedHome + j) % 512)).state = .empty
  first : 0 < k → slotMatches m (s.table agedHome) [107] 1 (wyhash64 [107] 0) = true ∧
    (s.table agedHome).expireNs = 1000000000

theorem agedHome_lt : agedHome < 512 := tableSlot_lt ⟨9, rfl⟩ _

/-- The entry that a set of the key stores. -/
def agedEntry (now : Nat) : EntryData :=
  { freshEntry now [107] [118] 1 with
    flags := 0
    payload := packed (Cell.bytes [107]) (Cell.bytes [118]) }

theorem Aged.find {k : Nat} {m : Mem} {s : Shard} (h : Aged k m s) (hk : k < 400) :
    shardFind m (2000000000 * k) s [107] 1 (wyhash64 [107] 0) = none := by
  rw [shardFind, h.cap]
  change shardFindLoop m (2000000000 * k) s [107] 1 (wyhash64 [107] 0) 512 agedHome = none
  have hhome : (agedHome + 0) % 512 = agedHome := Nat.mod_eq_of_lt agedHome_lt
  rw [shardFindLoop]
  cases k with
  | zero =>
    have hempty := h.unused 0 (Nat.le_refl 0) (by decide)
    rw [hhome] at hempty
    exact if_pos hempty
  | succ k =>
    obtain ⟨hmatch, hexp⟩ := h.first (Nat.succ_pos k)
    have hlive := (h.used 0 (Nat.succ_pos k)).1
    rw [hhome] at hlive
    have hexpired : entryExpired (2000000000 * (k + 1)) (s.table agedHome).toEntryData = true := by
      rw [entryExpired, hexp, toInt64_of_lt (by omega), if_neg (by decide)]
      exact decide_eq_true (by omega)
    rw [if_neg (by simp [hlive]), if_pos hmatch, if_pos hexpired]

theorem Aged.lockedSet {k : Nat} {m : Mem} {s : Shard} (h : Aged k m s) (hk : k < 400) :
    (VoidCache.lockedSet s m (2000000000 * k) [107] (agedEntry (2000000000 * k))).2 = m ∧
      Aged (k + 1) m (VoidCache.lockedSet s m (2000000000 * k) [107] (agedEntry (2000000000 * k))).1 := by
  have hold : VoidCache.removeOld s m (2000000000 * k) [107] (agedEntry (2000000000 * k)) = (s, m) := by
    rw [VoidCache.removeOld]
    have hfind : shardFind m (2000000000 * k) s [107] (agedEntry (2000000000 * k)).keyLen
        (agedEntry (2000000000 * k)).keyHash = none := h.find hk
    rw [hfind]
  have hfull : VoidCache.evictIfFull s m = (s, m) := by
    have htrigger : evictTrigger s = false := by
      rw [evictTrigger, h.count, h.cap, Nat.mod_eq_of_lt (by omega)]
      exact decide_eq_false (by omega)
    rw [VoidCache.evictIfFull, htrigger]
    rfl
  have htable : (shardInsert s (agedEntry (2000000000 * k))).table =
      Function.update s.table ((agedHome + k) % 512)
        { toEntryData := agedEntry (2000000000 * k), probeDist := (0 + k) % 256 : Incoming }.placed := by
    rw [shardInsert, h.cap]
    refine shardInsertLoop_walks ⟨9, rfl⟩ (by omega) agedHome_lt (Nat.zero_lt_succ 255) (fun j hj => ?_) ?_
    · rw [Nat.zero_add]
      exact ⟨(h.used j hj).1, (h.used j hj).2.1⟩
    · exact .inl (h.unused k (Nat.le_refl k) (by omega))
  have hresult : VoidCache.lockedSet s m (2000000000 * k) [107] (agedEntry (2000000000 * k)) =
      ({ (shardInsert s (agedEntry (2000000000 * k))).incCount with sets := (s.sets + 1) % 2 ^ 64 }, m) := by
    rw [VoidCache.lockedSet, hold]
    dsimp only
    rw [hfull]
    rfl
  have hself : (shardInsert s (agedEntry (2000000000 * k))).table ((agedHome + k) % 512) =
      { toEntryData := agedEntry (2000000000 * k), probeDist := (0 + k) % 256 : Incoming }.placed := by
    rw [htable, Function.update_self]
  have hother : ∀ j < 512, j ≠ k → (shardInsert s (agedEntry (2000000000 * k))).table
      ((agedHome + j) % 512) = s.table ((agedHome + j) % 512) := by
    intro j hj hjk
    rw [htable]
    exact Function.update_of_ne (fun h => hjk (Cyclic.offset_inj hj (by omega) h)) _ _
  rw [hresult]
  refine ⟨rfl, h.cap, ?_, fun j hj => ?_, fun j hj hlt => ?_, fun _ => ?_⟩
  · show (s.count + 1) % 2 ^ 32 = k + 1
    rw [h.count, Nat.mod_eq_of_lt (by omega)]
  · change ((shardInsert s (agedEntry (2000000000 * k))).table _).state = _ ∧
      ((shardInsert s (agedEntry (2000000000 * k))).table _).probeDist = _ ∧
      ((shardInsert s (agedEntry (2000000000 * k))).table _).keyHash = _
    by_cases hjk : j = k
    · subst hjk
      rw [hself, Nat.zero_add]
      exact ⟨rfl, rfl, rfl⟩
    · rw [hother j (by omega) hjk]
      exact h.used j (by omega)
  · change ((shardInsert s (agedEntry (2000000000 * k))).table _).state = _
    rw [hother j hlt (by omega)]
    exact h.unused j (by omega) hlt
  · change slotMatches m ((shardInsert s (agedEntry (2000000000 * k))).table agedHome) _ _ _ = _ ∧
      ((shardInsert s (agedEntry (2000000000 * k))).table agedHome).expireNs = _
    have hhome : (agedHome + 0) % 512 = agedHome := Nat.mod_eq_of_lt agedHome_lt
    by_cases hk0 : k = 0
    · subst hk0
      rw [hhome] at hself
      rw [hself]
      refine ⟨?_, by decide⟩
      simp only [slotMatches, Incoming.placed, agedEntry, freshEntry, beq_self_eq_true, Bool.and_true]
      rfl
    · have hsame := hother 0 (by decide) (Ne.symm hk0)
      rw [hhome] at hsame
      rw [hsame]
      exact h.first (by omega)

theorem aged_run (k : Nat) (hk : k ≤ 400) :
    (Machine.run step ⟨newCache none 512, 0⟩ (agedOps k)).now = 2000000000 * k ∧
      Aged k (Machine.run step ⟨newCache none 512, 0⟩ (agedOps k)).cache.mem
        ((Machine.run step ⟨newCache none 512, 0⟩ (agedOps k)).cache.shards (homeShard [107])) := by
  induction k with
  | zero => exact ⟨rfl, rfl, rfl, nofun, fun _ _ _ => rfl, nofun⟩
  | succ k ih =>
    obtain ⟨hnow, haged⟩ := ih (by omega)
    rw [agedOps, Machine.run_append]
    generalize Machine.run step ⟨newCache none 512, 0⟩ (agedOps k) = w at hnow haged ⊢
    obtain ⟨hmem, hset⟩ := haged.lockedSet (by omega)
    rw [← hnow] at hmem hset
    have hshards : (step w (.set [107] [118] 1 calmEnv)).1.cache.shards =
        Function.update w.cache.shards (homeShard [107]) (VoidCache.lockedSet
          (w.cache.shards (homeShard [107])) w.cache.mem w.now [107] (agedEntry w.now)).1 := rfl
    have hsetmem : (step w (.set [107] [118] 1 calmEnv)).1.cache.mem = (VoidCache.lockedSet
          (w.cache.shards (homeShard [107])) w.cache.mem w.now [107] (agedEntry w.now)).2 := rfl
    refine ⟨?_, ?_⟩
    · show w.now + 2000000000 = _
      omega
    · show Aged (k + 1) (step w (.set [107] [118] 1 calmEnv)).1.cache.mem
        ((step w (.set [107] [118] 1 calmEnv)).1.cache.shards (homeShard [107]))
      rw [hsetmem, hmem, hshards, Function.update_self]
      exact hset

/-- After 257 sets of one key that expires each time, an entry stands 256 slots from its home, and
its stored distance is zero. -/
theorem stored_distance_wraps :
    ∃ w : World, w.Reachable ∧ ∃ si i, i < (w.cache.shards si).cap ∧
      ((w.cache.shards si).table i).state = .live ∧ ((w.cache.shards si).table i).probeDist = 0 ∧
      probeDist ((w.cache.shards si).table i).keyHash i (w.cache.shards si).cap = 256 := by
  have hreach : (Machine.run step ⟨newCache none 512, 0⟩ (agedOps 257)).Reachable :=
    ⟨none, 512, newCache none 512, 0, agedOps 257, rfl, rfl⟩
  obtain ⟨-, haged⟩ := aged_run 257 (by decide)
  generalize Machine.run step ⟨newCache none 512, 0⟩ (agedOps 257) = w at hreach haged
  obtain ⟨hl, hd, hh⟩ := haged.used 256 (by decide)
  refine ⟨w, hreach, homeShard [107], (agedHome + 256) % 512, ?_, hl, hd, ?_⟩
  · rw [haged.cap]
    exact Nat.mod_lt _ (by decide)
  · rw [haged.cap, hh]
    decide +kernel

end VoidCache
