import VoidCache.Shard.Basic
import VoidCache.Ownership

/-!
# The probe scan

`shardFindLoop_cases` says what one scan can do: stop at the first slot that is empty or
matches, or run out of slots. Soundness and completeness of `shardFind` follow from it and
from the chain condition of `Shard.Shape`.
-/
namespace VoidCache

variable {m : Mem} {now : Nat} {s : Shard} {key : List UInt8} {keyLen : Nat} {hash : UInt64}

/-- Slots at which the scan stops. -/
def scanStops (m : Mem) (s : Shard) (key : List UInt8) (keyLen : Nat) (hash : UInt64)
    (slot : Nat) : Prop :=
  (s.table slot).state = .empty ∨ slotMatches m (s.table slot) key keyLen hash = true

/-- What the scan answers at the slot where it stops. -/
def scanAnswer (now : Nat) (s : Shard) (slot : Nat) : Option Nat :=
  if (s.table slot).state = .empty then none
  else if entryExpired now (s.table slot).toEntryData then none else some slot

/-- The first of `n` slots from `slot` on at which the scan stops decides its answer. -/
theorem shardFindLoop_cases (m : Mem) (now : Nat) (key : List UInt8) (keyLen : Nat) (hash : UInt64)
    (hc : ∃ b, s.cap = 2 ^ b) (n slot : Nat) (hs : slot < s.cap) :
    (∃ j, j < n ∧ (∀ i, i < j → ¬ scanStops m s key keyLen hash ((slot + i) % s.cap)) ∧
      scanStops m s key keyLen hash ((slot + j) % s.cap) ∧
      shardFindLoop m now s key keyLen hash n slot = scanAnswer now s ((slot + j) % s.cap)) ∨
    ((∀ j, j < n → ¬ scanStops m s key keyLen hash ((slot + j) % s.cap)) ∧
      shardFindLoop m now s key keyLen hash n slot = none) := by
  induction n generalizing slot with
  | zero => exact Or.inr ⟨fun j hj => absurd hj (Nat.not_lt_zero j), rfl⟩
  | succ n ih =>
    have h0 : (slot + 0) % s.cap = slot := Nat.mod_eq_of_lt hs
    by_cases hstop : scanStops m s key keyLen hash slot
    · refine Or.inl ⟨0, Nat.succ_pos n, fun i hi => absurd hi (Nat.not_lt_zero i), by rwa [h0], ?_⟩
      rw [h0]
      unfold shardFindLoop scanAnswer
      rcases hstop with he | hm
      · simp [he]
      · simp [hm]
    · have hstep : shardFindLoop m now s key keyLen hash (n + 1) slot =
          shardFindLoop m now s key keyLen hash n (Cyclic.next s.cap slot) := by
        unfold scanStops at hstop
        rw [not_or] at hstop
        rw [shardFindLoop, if_neg hstop.1, if_neg hstop.2]
      rw [hstep]
      rcases ih _ (Cyclic.next_lt hc slot) with ⟨j, hj, hbefore, hat, hans⟩ | ⟨hnone, hans⟩
      · rw [Cyclic.next_offset hc] at hat hans
        refine Or.inl ⟨j + 1, by omega, fun i hi => ?_, hat, hans⟩
        cases i with
        | zero => rwa [h0]
        | succ i =>
          rw [← Cyclic.next_offset hc]
          exact hbefore i (by omega)
      · refine Or.inr ⟨fun j hj => ?_, hans⟩
        cases j with
        | zero => rwa [h0]
        | succ j =>
          rw [← Cyclic.next_offset hc]
          exact hnone j (by omega)

theorem slotMatches_iff {e : Entry} :
    slotMatches m e key keyLen hash = true ↔
      e.state = .live ∧ e.keyHash = hash ∧ e.keyLen = keyLen ∧
        (itemOf m e.toEntryData).key = Cell.bytes (key.take keyLen) := by
  unfold slotMatches keyEq itemOf
  constructor
  · intro h
    simp only [Bool.and_eq_true, beq_iff_eq, decide_eq_true_eq] at h
    obtain ⟨⟨⟨⟨_, hl⟩, hh⟩, hk⟩, he⟩ := h
    exact ⟨hl, hh, hk, hk ▸ he⟩
  · rintro ⟨hl, hh, hk, he⟩
    subst hk
    simpa [hl, hh] using he

/-- A live entry and every slot on the way to it from its home are used. -/
theorem Shard.Shape.used_upto (hs : s.Shape) {p : Nat} (hp : p < s.cap)
    (hl : (s.table p).state = .live) {j : Nat}
    (hj : j ≤ Cyclic.dist s.cap (tableSlot (s.table p).keyHash s.cap) p) :
    (s.table ((tableSlot (s.table p).keyHash s.cap + j) % s.cap)).state ≠ .empty := by
  rcases Nat.lt_or_eq_of_le hj with hlt | rfl
  · exact hs.chain p hp hl j hlt
  · rw [Cyclic.home_add_dist (tableSlot_lt hs.cap_pow _) hp, hl]
    simp

/-- A slot the scan returns holds the key, live and not expired. -/
theorem shardFind_sound (hs : s.Shape) {slot : Nat}
    (h : shardFind m now s key keyLen hash = some slot) :
    slot < s.cap ∧ slotMatches m (s.table slot) key keyLen hash = true ∧
      entryExpired now (s.table slot).toEntryData = false := by
  have hpos := Cyclic.pos_of_pow hs.cap_pow
  rcases shardFindLoop_cases m now key keyLen hash hs.cap_pow s.cap (tableSlot hash s.cap)
    (tableSlot_lt hs.cap_pow hash) with ⟨j, _, _, hstop, hans⟩ | ⟨_, hans⟩
  · rw [shardFind, hans, scanAnswer] at h
    split_ifs at h with he hx
    obtain rfl := Option.some.inj h
    refine ⟨Nat.mod_lt _ hpos, hstop.resolve_left he, by simpa using hx⟩
  · rw [shardFind, hans] at h
    simp at h

/-- The scan reaches every live copy of the key: when it answers `none`, either there is no
copy, or the first copy on the probe path is expired. -/
theorem shardFind_none (hs : s.Shape) (h : shardFind m now s key keyLen hash = none) {slot : Nat}
    (hslot : slot < s.cap) (hm : slotMatches m (s.table slot) key keyLen hash = true) :
    ∃ slot', slot' < s.cap ∧ slotMatches m (s.table slot') key keyLen hash = true ∧
      entryExpired now (s.table slot').toEntryData = true := by
  have hpos := Cyclic.pos_of_pow hs.cap_pow
  have hhome := tableSlot_lt hs.cap_pow hash
  obtain ⟨hlive, hhash, _⟩ := slotMatches_iff.mp hm
  have hreach := Cyclic.home_add_dist hhome hslot
  have hdist := Cyclic.dist_lt hpos (tableSlot hash s.cap) slot
  rcases shardFindLoop_cases m now key keyLen hash hs.cap_pow s.cap (tableSlot hash s.cap) hhome with
    ⟨j, hj, hbefore, hstop, hans⟩ | ⟨hnone, _⟩
  · have hle : j ≤ Cyclic.dist s.cap (tableSlot hash s.cap) slot := by
      by_contra hlt
      exact hbefore (Cyclic.dist s.cap (tableSlot hash s.cap) slot) (by omega)
        (by rw [hreach]; exact Or.inr hm)
    have hused : (s.table ((tableSlot hash s.cap + j) % s.cap)).state ≠ .empty := by
      subst hhash
      exact hs.used_upto hslot hlive hle
    refine ⟨_, Nat.mod_lt _ hpos, hstop.resolve_left hused, ?_⟩
    rw [shardFind, hans, scanAnswer, if_neg hused] at h
    by_contra hx
    simp [hx] at h
  · exact absurd (Or.inr hm) (hreach ▸ hnone _ hdist)

/-- Slot `i` holds a live entry with this hash, this length and these bytes. -/
def Shard.HoldsKey (s : Shard) (m : Mem) (key : List UInt8) (keyLen : Nat) (hash : UInt64)
    (i : Nat) : Prop :=
  (s.table i).state = .live ∧ (s.table i).keyHash = hash ∧ (s.table i).keyLen = keyLen ∧
    (itemOf m (s.table i).toEntryData).key = Cell.bytes (key.take keyLen)

/-- The scan from the home slot finds a key exactly when a look at every slot does, as long as
no copy of it has expired. -/
theorem shardFind_iff_holds (hs : s.Shape)
    (hfresh : ∀ i < s.cap, s.HoldsKey m key keyLen hash i →
      entryExpired now (s.table i).toEntryData = false) :
    (∃ slot, shardFind m now s key keyLen hash = some slot) ↔
      ∃ i < s.cap, s.HoldsKey m key keyLen hash i := by
  constructor
  · rintro ⟨slot, h⟩
    obtain ⟨hlt, hm, -⟩ := shardFind_sound hs h
    exact ⟨slot, hlt, slotMatches_iff.mp hm⟩
  · rintro ⟨i, hi, hkey⟩
    by_contra hnone
    have h : shardFind m now s key keyLen hash = none :=
      Option.eq_none_iff_forall_ne_some.mpr fun slot hslot => hnone ⟨slot, hslot⟩
    obtain ⟨j, hj, hm, hx⟩ := shardFind_none hs h hi (slotMatches_iff.mpr hkey)
    rw [hfresh j hj (slotMatches_iff.mp hm)] at hx
    cases hx

end VoidCache
