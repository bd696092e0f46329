import VoidCache.Shard.Insert
import VoidCache.Ownership

/-!
# Tombstones, the clock sweep, and what they do to a shard

A sweep clears clock bits until it meets a live entry whose bit is already clear, which it
turns into a tombstone; `shardEvictLoop_sweep` is the complete list of outcomes. Each
operation on a shard then has one lemma about its shape and one about its contents.
-/
namespace VoidCache

variable {s s' : Shard} {m : Mem}

theorem Shard.Shape.chained (h : s.Shape) : Chained s.cap s.table := h.chain

/-! ## Tombstones -/

@[simp] theorem killSlot_cap (s : Shard) (m : Mem) (i : Nat) : (killSlot s m i).1.cap = s.cap := rfl

@[simp] theorem killSlot_table (s : Shard) (m : Mem) (i : Nat) :
    (killSlot s m i).1.table = Function.update s.table i { s.table i with state := .dead } := rfl

/-- A tombstone in slot `i`. -/
def Shard.bury (s : Shard) (i : Nat) : Shard := s.setSlot i { s.table i with state := .dead }

@[simp] theorem bury_cap (s : Shard) (i : Nat) : (s.bury i).cap = s.cap := rfl

@[simp] theorem bury_table (s : Shard) (i : Nat) :
    (s.bury i).table = Function.update s.table i { s.table i with state := .dead } := rfl

theorem Shard.Shape.bury (h : s.Shape) (i : Nat) : (s.bury i).Shape where
  cap_pow := h.cap_pow
  cap_lt := h.cap_lt
  no_busy := notBusy_update h.no_busy (by simp)
  chain := h.chained.update (by simp) (by simp)

theorem bury_contents {i : Nat} (hi : i < s.cap) (hl : (s.table i).state = .live) :
    s.contents = (s.table i).toEntryData ::ₘ (s.bury i).contents := by
  obtain ⟨R, hR⟩ := slotSum.exists_rest Entry.contents s.table hi
  have hs : s.contents = (s.table i).contents + R := by
    simpa [Shard.contents] using hR (s.table i)
  have hk : (s.bury i).contents = R := by
    have := hR { s.table i with state := .dead }
    rwa [contents_of_not_live (by simp), zero_add] at this
  rw [hs, hk, contents_of_live hl, Multiset.singleton_add]

/-- Shape and contents depend on the table alone. -/
theorem Shard.Shape.congr (h : s.Shape) (hc : s'.cap = s.cap) (ht : s'.table = s.table) :
    s'.Shape := by
  obtain ⟨hpow, hlt, hbusy, hchain⟩ := h
  unfold Shard.Used at hchain
  refine ⟨hc ▸ hpow, hc ▸ hlt, ht ▸ hbusy, ?_⟩
  unfold Shard.Used
  rw [hc, ht]
  exact hchain

theorem contents_congr (hc : s'.cap = s.cap) (ht : s'.table = s.table) :
    s'.contents = s.contents := by
  unfold Shard.contents
  rw [hc, ht]

theorem Shard.Shape.kill (h : s.Shape) (m : Mem) (i : Nat) : (killSlot s m i).1.Shape :=
  (h.bury i).congr (killSlot_cap s m i) (killSlot_table s m i)

theorem killSlot_contents (m : Mem) {i : Nat} (hi : i < s.cap) (hl : (s.table i).state = .live) :
    s.contents = (s.table i).toEntryData ::ₘ (killSlot s m i).1.contents := by
  rw [contents_congr (s := s.bury i) (killSlot_cap s m i) (killSlot_table s m i)]
  exact bury_contents hi hl

/-! ## The clock -/

/-- `s'` holds the same entries as `s` in the same slots; clock bits, the hand and the
counters of calls may differ. -/
structure SameEntries (s s' : Shard) : Prop where
  state : ∀ i, (s'.table i).state = (s.table i).state
  data : ∀ i, (s'.table i).toEntryData = (s.table i).toEntryData
  cap : s'.cap = s.cap
  count : s'.count = s.count
  evictions : s'.evictions = s.evictions

namespace SameEntries

theorem refl (s : Shard) : SameEntries s s := ⟨fun _ => rfl, fun _ => rfl, rfl, rfl, rfl⟩

theorem contents (h : SameEntries s s') : s'.contents = s.contents := by
  unfold Shard.contents
  rw [h.cap]
  refine slotSum.congr fun i _ => ?_
  unfold Entry.contents
  rw [h.state, h.data]

theorem shape (h : SameEntries s s') (hs : s.Shape) : s'.Shape := by
  refine ⟨h.cap ▸ hs.cap_pow, h.cap ▸ hs.cap_lt, fun i => h.state i ▸ hs.no_busy i, ?_⟩
  intro i hi hl
  rw [h.cap] at hi ⊢
  rw [h.state] at hl
  rw [h.data]
  refine (hs.chain i hi hl).mono fun j hj => ?_
  unfold Shard.Used
  rw [h.state]
  exact hj

end SameEntries

/-- `s'` is `s` with some clock bits changed. -/
structure Swept (s s' : Shard) : Prop where
  rest : s' = { s with table := s'.table }
  slots : ∀ i, s'.table i = { s.table i with clockBit := (s'.table i).clockBit }

namespace Swept

theorem refl (s : Shard) : Swept s s := ⟨rfl, fun _ => rfl⟩

theorem trans {s'' : Shard} (h : Swept s s') (g : Swept s' s'') : Swept s s'' := by
  refine ⟨?_, fun i => ?_⟩
  · rw [g.rest, h.rest]
  · rw [g.slots i, h.slots i]

theorem setClock (s : Shard) (i : Nat) (b : Bool) :
    Swept s (s.setSlot i { s.table i with clockBit := b }) := by
  refine ⟨rfl, fun j => ?_⟩
  by_cases hj : j = i
  · subst hj
    simp [Shard.setSlot]
  · simp [Shard.setSlot, hj]

theorem same (h : Swept s s') : SameEntries s s' where
  state i := by rw [h.slots i]
  data i := by rw [h.slots i]
  cap := by rw [h.rest]
  count := by rw [h.rest]
  evictions := by rw [h.rest]

theorem cap (h : Swept s s') : s'.cap = s.cap := h.same.cap

end Swept

/-- The state after evicting slot `h`. -/
def evicted (s : Shard) (m : Mem) (h : Nat) : Shard :=
  { (killSlot s m h).1 with evictions := (s.evictions + 1) % 2 ^ 64, clockHand := h }

/-- A live entry whose clock bit is clear: the next one the sweep meets is taken. -/
def Shard.Victim (s : Shard) (i : Nat) : Prop :=
  (s.table i).state = .live ∧ (s.table i).clockBit = false

instance (s : Shard) (i : Nat) : Decidable (s.Victim i) := inferInstanceAs (Decidable (_ ∧ _))

/-- The slot that a sweep from `hand` meets after `j` others. -/
def Shard.met (s : Shard) (hand j : Nat) : Nat := (hand + (j + 1)) % s.cap

/-- The shard once a sweep from `hand` has passed `n` slots: their live entries have lost their
clock bits. -/
def Shard.passed (s : Shard) (hand n : Nat) : Shard :=
  { s with
    table := fun i =>
      if (s.table i).state = .live ∧ ∃ k < n, i = s.met hand k then
        { s.table i with clockBit := false }
      else s.table i }

@[simp] theorem passed_cap (s : Shard) (hand n : Nat) : (s.passed hand n).cap = s.cap := rfl

theorem passed_zero (s : Shard) (hand : Nat) : s.passed hand 0 = s := by
  simp [Shard.passed]

theorem passed_one (s : Shard) (hand i : Nat) :
    (s.passed hand 1).table i =
      if (s.table i).state = .live ∧ i = s.met hand 0 then { s.table i with clockBit := false }
      else s.table i := by
  simp [Shard.passed]

theorem Swept.passed (s : Shard) (hand n : Nat) : Swept s (s.passed hand n) := by
  refine ⟨rfl, fun i => ?_⟩
  unfold Shard.passed
  dsimp only
  split_ifs <;> rfl

section Sweep

variable (hc : ∃ b, s.cap = 2 ^ b) (hand : Nat)

include hc

theorem met_next (j : Nat) : s.met (Cyclic.next s.cap hand) j = s.met hand (j + 1) :=
  Cyclic.next_offset hc hand (j + 1)

theorem met_zero : s.met hand 0 = Cyclic.next s.cap hand := (Cyclic.next_eq_mod hc hand).symm

theorem met_inj {i j : Nat} (hi : i < s.cap) (hj : j < s.cap) (h : s.met hand i = s.met hand j) :
    i = j := by
  have hcap : ∀ k, s.met hand k = (hand + 1 + k) % s.cap := by
    intro k
    unfold Shard.met
    congr 1
    omega
  rw [hcap, hcap] at h
  exact Cyclic.offset_inj hi hj h

/-- A whole round meets every slot. -/
theorem exists_met {i : Nat} (hi : i < s.cap) : ∃ j < s.cap, i = s.met hand j := by
  have hpos := Cyclic.pos_of_pow hc
  have hh : (hand + 1) % s.cap < s.cap := Nat.mod_lt _ hpos
  refine ⟨Cyclic.dist s.cap ((hand + 1) % s.cap) i, Cyclic.dist_lt hpos _ _, ?_⟩
  have hreach := Cyclic.home_add_dist hh hi
  rw [Nat.mod_add_mod] at hreach
  unfold Shard.met
  rw [Nat.add_comm _ 1, ← Nat.add_assoc]
  exact hreach.symm

/-- Passing one slot and then `n` more. -/
theorem passed_next (n : Nat) :
    (s.passed hand 1).passed (Cyclic.next s.cap hand) n = s.passed hand (n + 1) := by
  have htable : ∀ i, ((s.passed hand 1).passed (Cyclic.next s.cap hand) n).table i =
      (s.passed hand (n + 1)).table i := by
    intro i
    have hex : (∃ k < n + 1, i = s.met hand k) ↔
        i = s.met hand 0 ∨ ∃ k < n, i = s.met (Cyclic.next s.cap hand) k := by
      constructor
      · rintro ⟨k, hk, rfl⟩
        cases k with
        | zero => exact .inl rfl
        | succ k => exact .inr ⟨k, by omega, (met_next hc hand k).symm⟩
      · rintro (rfl | ⟨k, hk, rfl⟩)
        · exact ⟨0, by omega, rfl⟩
        · exact ⟨k + 1, by omega, met_next hc hand k⟩
    have hmet : (s.passed hand 1).met (Cyclic.next s.cap hand) = s.met (Cyclic.next s.cap hand) := rfl
    show (if ((s.passed hand 1).table i).state = .live ∧
        ∃ k < n, i = (s.passed hand 1).met (Cyclic.next s.cap hand) k then
          { (s.passed hand 1).table i with clockBit := false }
        else (s.passed hand 1).table i) =
      if (s.table i).state = .live ∧ ∃ k < n + 1, i = s.met hand k then
        { s.table i with clockBit := false }
      else s.table i
    simp only [hmet, hex, passed_one]
    by_cases hl : (s.table i).state = .live
    · by_cases h0 : i = s.met hand 0
      · rw [if_pos (show _ ∧ _ from ⟨hl, h0⟩), if_pos (show _ ∧ (_ ∨ _) from ⟨hl, .inl h0⟩)]
        split_ifs <;> rfl
      · simp [h0]
    · simp [hl]
  show { (s.passed hand (n + 1)) with
    table := ((s.passed hand 1).passed (Cyclic.next s.cap hand) n).table } = _
  rw [funext htable]

/-- Going past a slot that is no victim. -/
theorem shardEvictLoop_pass (m : Mem) (n : Nat) (hv : ¬ s.Victim (s.met hand 0)) :
    shardEvictLoop m (n + 1) hand s =
      shardEvictLoop m n (Cyclic.next s.cap hand) (s.passed hand 1) := by
  have hone := passed_one s hand
  rw [met_zero hc] at hv hone
  rw [shardEvictLoop]
  by_cases hl : (s.table (Cyclic.next s.cap hand)).state = .live
  · have hb : (s.table (Cyclic.next s.cap hand)).clockBit = true := by
      by_contra hb
      exact hv ⟨hl, by simpa using hb⟩
    have hset : s.setSlot (Cyclic.next s.cap hand)
        { s.table (Cyclic.next s.cap hand) with clockBit := false } = s.passed hand 1 := by
      show { s with table := _ } = { s with table := (s.passed hand 1).table }
      congr 1
      funext i
      rw [hone]
      by_cases hi : i = Cyclic.next s.cap hand
      · subst hi
        simp [hl]
      · simp [hi]
    rw [← hset]
    simp [hl, hb]
  · have hsame : s.passed hand 1 = s := by
      show { s with table := (s.passed hand 1).table } = s
      congr 1
      funext i
      rw [hone, if_neg]
      rintro ⟨hli, rfl⟩
      exact hl hli
    simp [hl, hsame]

/-- The two outcomes of a sweep over the `n` slots after `hand`: none of them is a victim, or
slot number `j` is the first one. -/
theorem shardEvictLoop_sweep (m : Mem) (n : Nat) (hn : n ≤ s.cap) :
    ((∀ j < n, ¬ s.Victim (s.met hand j)) ∧
      shardEvictLoop m n hand s = (none, s.passed hand n, m)) ∨
    (∃ j < n, (∀ k < j, ¬ s.Victim (s.met hand k)) ∧ s.Victim (s.met hand j) ∧
      shardEvictLoop m n hand s =
        (some (s.met hand j), evicted (s.passed hand j) m (s.met hand j),
          (killSlot (s.passed hand j) m (s.met hand j)).2)) := by
  induction n generalizing hand s with
  | zero => exact .inl ⟨fun j hj => absurd hj (Nat.not_lt_zero j), by rw [passed_zero]; rfl⟩
  | succ n ih =>
    by_cases hv : s.Victim (s.met hand 0)
    · refine .inr ⟨0, Nat.succ_pos n, fun k hk => absurd hk (Nat.not_lt_zero k), hv, ?_⟩
      rw [passed_zero, met_zero hc, shardEvictLoop]
      rw [met_zero hc] at hv
      simp [hv.1, hv.2, evicted]
    · -- the slots that follow in this round are not the one just passed
      have hother : ∀ j < n, (s.passed hand 1).Victim (s.met hand (j + 1)) ↔
          s.Victim (s.met hand (j + 1)) := by
        intro j hj
        have hne : s.met hand (j + 1) ≠ s.met hand 0 := by
          intro he
          cases met_inj hc hand (by omega) (by omega) he
        simp [Shard.Victim, passed_one, hne]
      rw [shardEvictLoop_pass hc hand m n hv]
      have hcap : (s.passed hand 1).cap = s.cap := rfl
      have hmet : ∀ j, (s.passed hand 1).met (Cyclic.next s.cap hand) j = s.met hand (j + 1) :=
        met_next hc hand
      rcases ih (s := s.passed hand 1) hc (Cyclic.next s.cap hand) (by omega) with
        ⟨hall, he⟩ | ⟨j, hj, hbefore, hat, he⟩
      · refine .inl ⟨fun j hj => ?_, ?_⟩
        · cases j with
          | zero => exact hv
          | succ j =>
            have := hall j (by omega)
            rwa [hmet, hother j (by omega)] at this
        · rw [he, passed_next hc]
      · rw [hmet, hother j hj] at hat
        rw [hmet, passed_next hc] at he
        refine .inr ⟨j + 1, by omega, fun k hk => ?_, hat, he⟩
        cases k with
        | zero => exact hv
        | succ k =>
          have := hbefore k (by omega)
          rwa [hmet, hother k (by omega)] at this

end Sweep

/-- What callers need of one sweep: the entries stay where they are and at most one of them is
taken. -/
theorem shardEvictOne_cases (hc : ∃ b, s.cap = 2 ^ b) (m : Mem) :
    (∃ s', Swept s s' ∧ shardEvictOne s m = (none, s', m) ∧
      ∀ i, i < s.cap → (s.table i).state = .live → (s.table i).clockBit = true) ∨
    (∃ s' h, Swept s s' ∧ h < s.cap ∧ (s.table h).state = .live ∧ (s.table h).clockBit = false ∧
      shardEvictOne s m = (some h, evicted s' m h, (killSlot s' m h).2)) := by
  rcases shardEvictLoop_sweep hc s.clockHand m s.cap (le_refl _) with
    ⟨hall, he⟩ | ⟨j, hj, -, hv, he⟩
  · refine .inl ⟨_, Swept.passed s _ _, he, fun i hi hl => ?_⟩
    obtain ⟨j, hj, rfl⟩ := exists_met hc s.clockHand hi
    by_contra hb
    exact hall j hj ⟨hl, by simpa using hb⟩
  · exact .inr ⟨_, _, Swept.passed s _ _, Nat.mod_lt _ (Cyclic.pos_of_pow hc), hv.1, hv.2, he⟩

/-- The slot taken is none of those passed before it. -/
theorem passed_met {j : Nat} (hc : ∃ b, s.cap = 2 ^ b) (hand : Nat) (hj : j < s.cap) :
    (s.passed hand j).table (s.met hand j) = s.table (s.met hand j) := by
  unfold Shard.passed
  dsimp only
  rw [if_neg]
  rintro ⟨-, k, hk, he⟩
  have := met_inj hc hand hj (by omega) he
  omega

theorem evicted_passed {j : Nat} (hc : ∃ b, s.cap = 2 ^ b) (hj : j < s.cap) (m : Mem) :
    evicted (s.passed s.clockHand j) m (s.met s.clockHand j) =
      { s with
        table := fun i =>
          if i = s.met s.clockHand j then { s.table i with state := .dead }
          else if (s.table i).state = .live ∧ ∃ k < j, i = s.met s.clockHand k then
            { s.table i with clockBit := false }
          else s.table i
        clockHand := s.met s.clockHand j
        count := (s.count + (2 ^ 32 - 1)) % 2 ^ 32
        evictions := (s.evictions + 1) % 2 ^ 64 } := by
  have htable : (evicted (s.passed s.clockHand j) m (s.met s.clockHand j)).table = fun i =>
      if i = s.met s.clockHand j then { s.table i with state := .dead }
      else (s.passed s.clockHand j).table i := by
    funext i
    show Function.update (s.passed s.clockHand j).table (s.met s.clockHand j) _ i = _
    by_cases hi : i = s.met s.clockHand j
    · subst hi
      rw [Function.update_self, passed_met hc _ hj, if_pos rfl]
    · rw [Function.update_of_ne hi, if_neg hi]
  show { s with
    table := (evicted (s.passed s.clockHand j) m (s.met s.clockHand j)).table
    clockHand := s.met s.clockHand j
    count := (s.count + (2 ^ 32 - 1)) % 2 ^ 32
    evictions := (s.evictions + 1) % 2 ^ 64 } = _
  rw [htable]
  rfl

/-- A whole round clears the clock bit of every live entry. -/
theorem passed_round (hc : ∃ b, s.cap = 2 ^ b) (hand : Nat) :
    s.passed hand s.cap =
      { s with
        table := fun i =>
          if i < s.cap ∧ (s.table i).state = .live then { s.table i with clockBit := false }
          else s.table i } := by
  have hround : ∀ i, (∃ k < s.cap, i = s.met hand k) ↔ i < s.cap := by
    intro i
    constructor
    · rintro ⟨k, -, rfl⟩
      exact Nat.mod_lt _ (Cyclic.pos_of_pow hc)
    · exact exists_met hc hand
  unfold Shard.passed
  simp only [hround, and_comm]

theorem exists_evicted (hc : ∃ b, s.cap = 2 ^ b) {i : Nat} (hi : i < s.cap) (hv : s.Victim i)
    (m : Mem) : ∃ h, (shardEvictOne s m).1 = some h := by
  rcases shardEvictOne_cases hc m with ⟨s', -, -, hall⟩ | ⟨s', h, -, -, -, -, he⟩
  · have hset := hall i hi hv.1
    rw [hv.2] at hset
    cases hset
  · exact ⟨h, by rw [he]⟩

/-- A sweep is an exact second chance. The first victim behind the hand goes, the live entries
before it lose their clock bits, and nothing else changes; without a victim all live entries
lose their clock bits, so that a second sweep finds one. -/
theorem clock_second_chance (hc : ∃ b, s.cap = 2 ^ b) (m : Mem) :
    ((∃ i < s.cap, s.Victim i) →
      ∃ j < s.cap, (∀ k < j, ¬ s.Victim (s.met s.clockHand k)) ∧ s.Victim (s.met s.clockHand j) ∧
        shardEvictOne s m =
          (some (s.met s.clockHand j),
            { s with
              table := fun i =>
                if i = s.met s.clockHand j then { s.table i with state := .dead }
                else if (s.table i).state = .live ∧ ∃ k < j, i = s.met s.clockHand k then
                  { s.table i with clockBit := false }
                else s.table i
              clockHand := s.met s.clockHand j
              count := (s.count + (2 ^ 32 - 1)) % 2 ^ 32
              evictions := (s.evictions + 1) % 2 ^ 64 },
            entryFreeResources (s.table (s.met s.clockHand j)).toEntryData m)) ∧
    ((¬ ∃ i < s.cap, s.Victim i) →
      shardEvictOne s m =
        (none,
          { s with
            table := fun i =>
              if i < s.cap ∧ (s.table i).state = .live then { s.table i with clockBit := false }
              else s.table i },
          m) ∧
      ((∃ i < s.cap, (s.table i).state = .live) →
        ∃ h, (shardEvictOne (shardEvictOne s m).2.1 m).1 = some h)) := by
  have hsweep := shardEvictLoop_sweep hc s.clockHand m s.cap (le_refl _)
  refine ⟨?_, fun hnone => ?_⟩
  · rintro ⟨i, hi, hv⟩
    rcases hsweep with ⟨hall, -⟩ | ⟨j, hj, hbefore, hat, he⟩
    · obtain ⟨j, hj, rfl⟩ := exists_met hc s.clockHand hi
      exact absurd hv (hall j hj)
    · refine ⟨j, hj, hbefore, hat, ?_⟩
      rw [evicted_passed hc hj] at he
      rw [shardEvictOne, he, ← passed_met hc s.clockHand hj]
      rfl
  · rcases hsweep with ⟨-, he⟩ | ⟨j, hj, -, hat, -⟩
    · refine ⟨by rw [shardEvictOne, he, passed_round hc], ?_⟩
      rintro ⟨i, hi, hl⟩
      have hround : (shardEvictOne s m).2.1 = s.passed s.clockHand s.cap := by rw [shardEvictOne, he]
      have hv : (s.passed s.clockHand s.cap).Victim i := by
        rw [passed_round hc]
        simp [Shard.Victim, hi, hl]
      rw [hround]
      exact exists_evicted (s := s.passed s.clockHand s.cap) hc hi hv m
    · exact absurd ⟨_, Nat.mod_lt _ (Cyclic.pos_of_pow hc), hat⟩ hnone

theorem clock_second_chance_fourSlots :
    let s := fourSlots true
    let m : Mem := ⟨slabInit, ∅, ∅⟩
    (shardEvictOne s m).1 = none ∧ ∃ h, (shardEvictOne (shardEvictOne s m).2.1 m).1 = some h := by
  intro s m
  obtain ⟨hnone, hagain⟩ := (@clock_second_chance s ⟨2, rfl⟩ m).2 (by decide)
  exact ⟨by rw [hnone], hagain ⟨0, by decide, rfl⟩⟩

end VoidCache
