import VoidCache.Cache.Basic
import VoidCache.Shard.Find
import VoidCache.Shard.Evict

/-!
# The locked section of `vc_set`

Replacing, evicting and inserting move entries in and out of one shard. `LockedSet` names
the entries that leave (the old copy of the key, the clock's victim, the entry left in hand
by a full table) and says how contents, memory and counters follow. Callers use it and do
not look at the loops again.
-/
namespace VoidCache

variable {s : Shard} {m : Mem} {now : Nat} {key : List UInt8} {ne : EntryData}

/-- Zero or one element as a multiset. -/
def one {α : Type} (o : Option α) : Multiset α := (o.toList : Multiset α)

@[simp] theorem one_none {α : Type} : one (none : Option α) = 0 := rfl
@[simp] theorem one_some {α : Type} (a : α) : one (some a) = {a} := rfl

@[simp] theorem map_one {α β : Type} (f : α → β) (o : Option α) : (one o).map f = one (o.map f) := by
  cases o <;> rfl

/-- Free what an entry owns, if there is one. -/
def freeOpt (o : Option EntryData) (m : Mem) : Mem := o.elim m (entryFreeResources · m)

/-- Room for one more key: a free slot, an old copy of the key, or a clock sweep that is due
and meets an entry it may take. -/
def Room (s : Shard) (m : Mem) (now : Nat) (key : List UInt8) (keyLen : Nat) (hash : UInt64) : Prop :=
  (∃ i, i < s.cap ∧ (s.table i).Free) ∨ shardFind m now s key keyLen hash ≠ none ∨
    (evictTrigger s = true ∧ ∃ i, i < s.cap ∧ (s.table i).state = .live ∧ (s.table i).clockBit = false)

instance (s : Shard) (m : Mem) (now : Nat) (key : List UInt8) (keyLen : Nat) (hash : UInt64) :
    Decidable (Room s m now key keyLen hash) := inferInstanceAs (Decidable (_ ∨ _ ∨ _ ∧ _))

/-! ## Insertion into a shard -/

/-- The entry a full table leaves in hand. -/
def insertLeft (s : Shard) (ne : EntryData) : Option EntryData :=
  (shardInsertLoop s.cap s.cap (tableSlot ne.keyHash s.cap) s.table
    { toEntryData := ne, probeDist := 0 }).2.map (·.toEntryData)

theorem shardInsert_contents (hs : s.Shape) (ne : EntryData) :
    (shardInsert s ne).contents + one (insertLeft s ne) = ne ::ₘ s.contents := by
  have h := shardInsertLoop_contents hs.cap_pow s.cap (tableSlot ne.keyHash s.cap) s.table
    { toEntryData := ne, probeDist := 0 } (tableSlot_lt hs.cap_pow _)
  unfold insertLeft
  rcases hr : shardInsertLoop s.cap s.cap (tableSlot ne.keyHash s.cap) s.table
    { toEntryData := ne, probeDist := 0 } with ⟨t, left⟩
  rw [hr] at h
  have ht : (shardInsert s ne).contents = slotSum s.cap Entry.contents t := by
    simp [Shard.contents, shardInsert, hr]
  rw [ht]
  cases left <;> exact h

theorem shardInsert_shape (hs : s.Shape) (ne : EntryData) : (shardInsert s ne).Shape := by
  have h := shardInsertLoop_shape hs.cap_pow s.cap (tableSlot ne.keyHash s.cap) s.table
    { toEntryData := ne, probeDist := 0 } (tableSlot_lt hs.cap_pow _) hs.chained hs.no_busy
    (Cyclic.Filled.home (tableSlot_lt hs.cap_pow _))
  exact ⟨hs.cap_pow, hs.cap_lt, h.2, h.1⟩

theorem insertLeft_of_free (hs : s.Shape) (ne : EntryData) {i : Nat} (hi : i < s.cap)
    (hf : (s.table i).Free) : insertLeft s ne = none := by
  unfold insertLeft
  rw [Option.map_eq_none_iff]
  by_contra hne
  exact shardInsertLoop_full hs.cap_pow _ _ _ (tableSlot_lt hs.cap_pow _) hne i hi hf

/-! ## Taking an entry out -/

theorem Entry.Free.kill {t : Nat → Entry} {i j : Nat} (h : (t i).Free) :
    (Function.update t j { t j with state := .dead } i).Free := by
  by_cases hij : i = j
  · subst hij
    simp [Entry.Free]
  · rwa [Function.update_of_ne hij]

theorem decCount_count {s : Shard} {n : Nat} (h : s.count = n + 1) (hn : n + 1 < 2 ^ 32) :
    s.decCount.count = n := by
  unfold Shard.decCount
  rw [h]
  show (n + 1 + (2 ^ 32 - 1)) % 2 ^ 32 = n
  omega

theorem Shard.Shape.card_lt (hs : s.Shape) : s.contents.card < 2 ^ 32 := by
  rw [Shard.card_contents]
  refine lt_of_le_of_lt ?_ hs.cap_lt
  exact (Finset.card_filter_le _ _).trans (by simp)

/-- `s'` and `m'` are left when the entry `gone`, if any, has been freed and buried. -/
structure Takes (s : Shard) (m : Mem) (s' : Shard) (m' : Mem) (gone : Option EntryData) : Prop where
  contents : s.contents = one gone + s'.contents
  shape : s'.Shape
  mem : m' = freeOpt gone m
  cap : s'.cap = s.cap
  count : s.count = s.contents.card → s'.count = s'.contents.card
  free : ∀ i, (s.table i).Free → (s'.table i).Free
  tomb : gone ≠ none → ∃ i, i < s.cap ∧ (s'.table i).Free

namespace Takes

theorem same (hs : s.Shape) {s' : Shard} (h : SameEntries s s') (m : Mem) : Takes s m s' m none where
  contents := by simp [h.contents]
  shape := h.shape hs
  mem := rfl
  cap := h.cap
  count hc := by rw [h.contents, ← hc, h.count]
  free i hi := by
    unfold Entry.Free at *
    rwa [h.state]
  tomb hne := absurd rfl hne

theorem kill (hs : s.Shape) (m : Mem) {i : Nat} (hi : i < s.cap) (hl : (s.table i).state = .live) :
    Takes s m (killSlot s m i).1 (killSlot s m i).2 (some (s.table i).toEntryData) where
  contents := by rw [killSlot_contents m hi hl, one_some, Multiset.singleton_add]
  shape := hs.kill m i
  mem := rfl
  cap := rfl
  count h := by
    have hlt := hs.card_lt
    rw [killSlot_contents m hi hl, Multiset.card_cons] at h hlt
    have hk : (killSlot s m i).1.count = s.decCount.count := rfl
    exact hk.trans (decCount_count h hlt)
  free _ h := h.kill
  tomb _ := by
    refine ⟨i, hi, ?_⟩
    rw [killSlot_table, Function.update_self]
    exact Or.inr rfl

theorem evict (hs : s.Shape) {s' : Shard} (hsw : Swept s s') (m : Mem) {h : Nat} (hh : h < s.cap)
    (hl : (s.table h).state = .live) :
    Takes s m (evicted s' m h) (killSlot s' m h).2 (some (s.table h).toEntryData) := by
  have hk := kill (hsw.same.shape hs) m (hsw.cap ▸ hh) ((hsw.same.state h).trans hl)
  rw [hsw.same.data h] at hk
  have hw := same hs hsw.same m
  exact {
    contents := by rw [← hsw.same.contents]; exact hk.contents
    shape := ⟨hk.shape.cap_pow, hk.shape.cap_lt, hk.shape.no_busy, hk.shape.chain⟩
    mem := hk.mem
    cap := hk.cap.trans hw.cap
    count := fun hc => hk.count (hw.count hc)
    free := fun i hi => hk.free i (hw.free i hi)
    tomb := fun hne => hsw.cap ▸ hk.tomb hne }

end Takes

/-- The copy of the key that `vc_set` removes. -/
def oldCopy (s : Shard) (m : Mem) (now : Nat) (key : List UInt8) (keyLen : Nat) (hash : UInt64) :
    Option EntryData :=
  (shardFind m now s key keyLen hash).map fun i => (s.table i).toEntryData

theorem removeOld_takes (hs : s.Shape) (m : Mem) (now : Nat) (key : List UInt8) (ne : EntryData) :
    Takes s m (removeOld s m now key ne).1 (removeOld s m now key ne).2
      (oldCopy s m now key ne.keyLen ne.keyHash) := by
  unfold removeOld oldCopy
  cases hf : shardFind m now s key ne.keyLen ne.keyHash with
  | none => exact Takes.same hs (SameEntries.refl s) m
  | some slot =>
    obtain ⟨hlt, hm, _⟩ := shardFind_sound hs hf
    exact Takes.kill hs m hlt (slotMatches_iff.mp hm).1

theorem removeOld_none (h : oldCopy s m now key ne.keyLen ne.keyHash = none) :
    removeOld s m now key ne = (s, m) := by
  unfold oldCopy at h
  unfold removeOld
  rw [Option.map_eq_none_iff.mp h]

theorem removeOld_evictions (s : Shard) (m : Mem) (now : Nat) (key : List UInt8) (ne : EntryData) :
    (removeOld s m now key ne).1.evictions = s.evictions := by
  unfold removeOld
  split <;> rfl

/-- The entry the clock takes, if a sweep is due and finds one. -/
def victim (s : Shard) (m : Mem) : Option EntryData :=
  if evictTrigger s then (shardEvictOne s m).1.map fun h => (s.table h).toEntryData else none

/-- The clock takes an entry exactly when it is due and some entry has a clear bit. -/
theorem evictIfFull_takes (hs : s.Shape) (m : Mem) :
    Takes s m (evictIfFull s m).1 (evictIfFull s m).2 (victim s m) ∧
      (evictIfFull s m).1.evictions =
        (if victim s m = none then s.evictions else (s.evictions + 1) % 2 ^ 64) ∧
      (victim s m ≠ none ↔ evictTrigger s = true ∧
        ∃ i, i < s.cap ∧ (s.table i).state = .live ∧ (s.table i).clockBit = false) := by
  unfold evictIfFull victim
  by_cases ht : evictTrigger s = true
  · rw [if_pos ht, if_pos ht]
    rcases shardEvictOne_cases hs.cap_pow m with ⟨s', hsw, he, hall⟩ | ⟨s', h, hsw, hlt, hl, hb, he⟩
    · rw [he]
      refine ⟨Takes.same hs hsw.same m, by simp [hsw.same.evictions], by simp, ?_⟩
      rintro ⟨_, i, hi, hl, hb⟩
      rw [hall i hi hl] at hb
      exact absurd hb (by simp)
    · rw [he]
      refine ⟨Takes.evict hs hsw m hlt hl, ?_, fun _ => ⟨ht, h, hlt, hl, hb⟩, by simp⟩
      simp [evicted, hsw.same.evictions]
  · rw [if_neg ht, if_neg ht]
    exact ⟨Takes.same hs (SameEntries.refl s) m, by simp, by simp, fun h => absurd h.1 ht⟩

/-! ## The outcome -/

/-- What the locked section did, in terms of the entries that left. -/
structure LockedSet (s : Shard) (m : Mem) (now : Nat) (key : List UInt8) (ne : EntryData)
    (s' : Shard) (m' : Mem) (ev left : Option EntryData) (rest : Multiset EntryData) : Prop where
  before : s.contents = one (oldCopy s m now key ne.keyLen ne.keyHash) + (one ev + rest)
  after : s'.contents + one left = ne ::ₘ rest
  shape : s'.Shape
  mem : m' = freeOpt ev (freeOpt (oldCopy s m now key ne.keyLen ne.keyHash) m)
  trigger : s.count = s.contents.card → ev ≠ none → 85 ≤ (one ev + rest).card * 100 / s.cap
  room : Room s m now key ne.keyLen ne.keyHash → left = none
  cap : s'.cap = s.cap
  evictions : s'.evictions = if ev = none then s.evictions else (s.evictions + 1) % 2 ^ 64
  count : s.count = s.contents.card → s'.count = (rest.card + 1) % 2 ^ 32

/-- Whatever makes room leaves a free slot for the insertion. -/
theorem free_of_room {s1 s2 : Shard} {m1 m2 : Mem} {old ev : Option EntryData}
    (h1 : Takes s m s1 m1 old) (h2 : Takes s1 m1 s2 m2 ev)
    (hroom : (∃ i, i < s.cap ∧ (s.table i).Free) ∨ old ≠ none ∨ ev ≠ none) :
    ∃ i, i < s2.cap ∧ (s2.table i).Free := by
  have hcap : s2.cap = s.cap := h2.cap.trans h1.cap
  rw [hcap]
  rcases hroom with ⟨i, hi, hf⟩ | ho | he
  · exact ⟨i, hi, h2.free i (h1.free i hf)⟩
  · obtain ⟨i, hi, hf⟩ := h1.tomb ho
    exact ⟨i, hi, h2.free i hf⟩
  · obtain ⟨i, hi, hf⟩ := h2.tomb he
    exact ⟨i, h1.cap ▸ hi, hf⟩

/-- The entry that the locked section drops, when the table is full. -/
def lockedLeft (s : Shard) (m : Mem) (now : Nat) (key : List UInt8) (ne : EntryData) :
    Option EntryData :=
  let r := removeOld s m now key ne
  insertLeft (evictIfFull r.1 r.2).1 ne

theorem lockedSet_outcome (hs : s.Shape) (m : Mem) (now : Nat) (key : List UInt8) (ne : EntryData) :
    ∃ rest, LockedSet s m now key ne (lockedSet s m now key ne).1 (lockedSet s m now key ne).2
      (victim (removeOld s m now key ne).1 (removeOld s m now key ne).2)
      (lockedLeft s m now key ne) rest := by
  have h1 := removeOld_takes hs m now key ne
  have hsame : oldCopy s m now key ne.keyLen ne.keyHash = none → removeOld s m now key ne = (s, m) :=
    removeOld_none
  have hev1 := removeOld_evictions s m now key ne
  unfold lockedSet lockedLeft
  dsimp only
  generalize removeOld s m now key ne = r1 at *
  obtain ⟨h2, hev2, hiff⟩ := evictIfFull_takes h1.shape r1.2
  generalize evictIfFull r1.1 r1.2 = r2 at *
  generalize victim r1.1 r1.2 = ev at *
  have hins := shardInsert_shape h2.shape ne
  refine ⟨r2.1.contents, ?_⟩
  exact {
    before := by rw [h1.contents, h2.contents]
    after := shardInsert_contents h2.shape ne
    shape := ⟨hins.cap_pow, hins.cap_lt, hins.no_busy, hins.chain⟩
    mem := by rw [h2.mem, h1.mem]
    trigger := fun h he => by
      have htrig := of_decide_eq_true (hiff.mp he).1
      rw [← h2.contents, ← h1.count h, ← h1.cap]
      exact htrig.trans (Nat.div_le_div_right (Nat.mod_le _ _))
    room := fun hroom => by
      have hfree := free_of_room h1 h2 (by
        rcases hroom with h | h | ⟨ht, h⟩
        · exact Or.inl h
        · exact Or.inr (Or.inl (by simpa [oldCopy] using h))
        · by_cases ho : oldCopy s m now key ne.keyLen ne.keyHash = none
          · exact Or.inr (Or.inr (hiff.mpr (by rw [hsame ho]; exact ⟨ht, h⟩)))
          · exact Or.inr (Or.inl ho))
      obtain ⟨i, hi, hf⟩ := hfree
      exact insertLeft_of_free h2.shape ne hi hf
    cap := h2.cap.trans h1.cap
    evictions := hev1 ▸ hev2
    count := fun h => by
      rw [← h2.count (h1.count h)]
      rfl }

end VoidCache
