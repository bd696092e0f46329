import VoidCache.Shard.Basic

/-!
# Robin Hood insertion

Whatever the stored probe distances are, the loop conserves entries: the table afterwards
together with the entry left in hand is the table before together with the incoming entry.
Chains stay unbroken because the loop only ever passes used slots, and nothing is left in
hand as soon as one slot is free. `Displaces` follows the entries that an insertion moves, from
the first one displaced to the free slot that ends it.
-/
namespace VoidCache

/-- A slot that insertion can fill. -/
def Entry.Free (e : Entry) : Prop := e.state = .empty ∨ e.state = .dead

instance (e : Entry) : Decidable e.Free := inferInstanceAs (Decidable (_ ∨ _))

/-- What the loop still holds at its end. -/
def leftover : Option Incoming → Multiset EntryData
  | some incoming => {incoming.toEntryData}
  | none => 0

/-- What one iteration does: fill a free slot, displace a richer entry, or pass on. -/
theorem shardInsertLoop_cases (cap n slot : Nat) (t : Nat → Entry) (incoming : Incoming) :
    ((t slot).Free ∧
      shardInsertLoop cap (n + 1) slot t incoming = (Function.update t slot incoming.placed, none)) ∨
    ((t slot).state = .live ∧
      shardInsertLoop cap (n + 1) slot t incoming =
        shardInsertLoop cap n (Cyclic.next cap slot) (Function.update t slot incoming.placed)
          { toEntryData := (t slot).toEntryData, probeDist := ((t slot).probeDist + 1) % 256 }) ∨
    (¬ (t slot).Free ∧
      shardInsertLoop cap (n + 1) slot t incoming =
        shardInsertLoop cap n (Cyclic.next cap slot) t
          { incoming with probeDist := (incoming.probeDist + 1) % 256 }) := by
  by_cases hf : (t slot).Free
  · exact Or.inl ⟨hf, by rw [shardInsertLoop]; exact if_pos hf⟩
  · have hstep : shardInsertLoop cap (n + 1) slot t incoming =
        if (t slot).state = .live ∧ (t slot).probeDist < incoming.probeDist then
          shardInsertLoop cap n (Cyclic.next cap slot) (Function.update t slot incoming.placed)
            { toEntryData := (t slot).toEntryData, probeDist := ((t slot).probeDist + 1) % 256 }
        else
          shardInsertLoop cap n (Cyclic.next cap slot) t
            { incoming with probeDist := (incoming.probeDist + 1) % 256 } := by
      rw [shardInsertLoop]
      exact if_neg hf
    rw [hstep]
    split_ifs with hr
    · exact Or.inr (Or.inl ⟨hr.1, rfl⟩)
    · exact Or.inr (Or.inr ⟨hf, rfl⟩)

theorem Entry.Free.not_live {e : Entry} (h : e.Free) : e.state ≠ .live := by
  rcases h with h | h <;> simp [h]

/-- Entries are conserved, whatever the probe distances. -/
theorem shardInsertLoop_contents {cap : Nat} (hc : ∃ b, cap = 2 ^ b) (n slot : Nat)
    (t : Nat → Entry) (incoming : Incoming) (hs : slot < cap) :
    slotSum cap Entry.contents (shardInsertLoop cap n slot t incoming).1 +
        leftover (shardInsertLoop cap n slot t incoming).2 =
      incoming.toEntryData ::ₘ slotSum cap Entry.contents t := by
  induction n generalizing slot t incoming with
  | zero => simp [shardInsertLoop, leftover, ← Multiset.singleton_add, add_comm]
  | succ n ih =>
    obtain ⟨R, hR⟩ := slotSum.exists_rest Entry.contents t hs
    have ht : slotSum cap Entry.contents t = (t slot).contents + R := by
      simpa using hR (t slot)
    rcases shardInsertLoop_cases cap n slot t incoming with ⟨hf, he⟩ | ⟨hl, he⟩ | ⟨_, he⟩
    · rw [he, ht, contents_of_not_live hf.not_live]
      simp [hR, leftover, ← Multiset.singleton_add]
    · rw [he, ih _ _ _ (Cyclic.next_lt hc slot), hR, ht, contents_of_live hl]
      simp [← Multiset.singleton_add, add_left_comm]
    · rw [he, ih _ _ _ (Cyclic.next_lt hc slot)]

/-- A free slot within reach leaves nothing in hand. -/
theorem shardInsertLoop_placed {cap : Nat} (hc : ∃ b, cap = 2 ^ b) (n slot : Nat)
    (t : Nat → Entry) (incoming : Incoming) (hs : slot < cap) (j : Nat) (hj : j < n)
    (hn : n ≤ cap) (hf : (t ((slot + j) % cap)).Free) :
    (shardInsertLoop cap n slot t incoming).2 = none := by
  induction n generalizing slot t incoming j with
  | zero => omega
  | succ n ih =>
    cases j with
    | zero =>
      rw [Nat.add_zero, Nat.mod_eq_of_lt hs] at hf
      rcases shardInsertLoop_cases cap n slot t incoming with ⟨_, he⟩ | ⟨hl, _⟩ | ⟨hnf, _⟩
      · rw [he]
      · exact absurd hl hf.not_live
      · exact absurd hf hnf
    | succ j =>
      rw [← Cyclic.next_offset hc] at hf
      -- the free slot is not the current one, so the write of this iteration spares it
      have hne : (Cyclic.next cap slot + j) % cap ≠ slot := by
        rw [Cyclic.next_offset hc]
        intro he
        have := Cyclic.offset_inj (j := 0) (by omega) (by omega) (he.trans (Nat.mod_eq_of_lt hs).symm)
        omega
      rcases shardInsertLoop_cases cap n slot t incoming with ⟨_, he⟩ | ⟨_, he⟩ | ⟨_, he⟩
      · rw [he]
      · rw [he]
        refine ih _ _ _ (Cyclic.next_lt hc slot) j (by omega) (by omega) ?_
        rwa [Function.update_of_ne hne]
      · rw [he]
        exact ih _ _ _ (Cyclic.next_lt hc slot) j (by omega) (by omega) hf

/-- Something left in hand means that no slot on the walk was free. -/
theorem shardInsertLoop_full {cap : Nat} (hc : ∃ b, cap = 2 ^ b) (slot : Nat) (t : Nat → Entry)
    (incoming : Incoming) (hs : slot < cap)
    (hsome : (shardInsertLoop cap cap slot t incoming).2 ≠ none) (i : Nat) (hi : i < cap) :
    ¬ (t i).Free := by
  intro hf
  refine hsome (shardInsertLoop_placed hc cap slot t incoming hs (Cyclic.dist cap slot i)
    (Cyclic.dist_lt (Cyclic.pos_of_pow hc) slot i) (le_refl cap) ?_)
  rwa [Cyclic.home_add_dist hs hi]

/-- Every live entry of `t` is reached from its home over used slots. -/
def Chained (cap : Nat) (t : Nat → Entry) : Prop :=
  ∀ i, i < cap → (t i).state = .live →
    Cyclic.Filled (fun j => (t j).state ≠ .empty) cap (tableSlot (t i).keyHash cap) i

theorem used_update {t : Nat → Entry} {slot : Nat} {e : Entry} (he : e.state ≠ .empty) (i : Nat)
    (h : (t i).state ≠ .empty) : (Function.update t slot e i).state ≠ .empty := by
  by_cases hi : i = slot
  · subst hi
    simpa using he
  · simpa [hi] using h

theorem notBusy_update {t : Nat → Entry} (h : ∀ i, (t i).state ≠ .busy) {slot : Nat} {e : Entry}
    (he : e.state ≠ .busy) (i : Nat) : (Function.update t slot e i).state ≠ .busy := by
  by_cases hi : i = slot
  · subst hi
    simpa using he
  · simpa [hi] using h i

/-- Storing an entry in a slot that its own walk has reached keeps all chains. -/
theorem Chained.update {cap slot : Nat} {t : Nat → Entry} (h : Chained cap t) {e : Entry}
    (he : e.state ≠ .empty)
    (hw : e.state = .live →
      Cyclic.Filled (fun j => (t j).state ≠ .empty) cap (tableSlot e.keyHash cap) slot) :
    Chained cap (Function.update t slot e) := by
  intro i hi hl
  by_cases his : i = slot
  · subst his
    rw [Function.update_self] at hl ⊢
    exact (hw hl).mono fun j hj => used_update he j hj
  · rw [Function.update_of_ne his] at hl ⊢
    exact (h i hi hl).mono fun j hj => used_update he j hj

/-- The loop keeps chains, never empties a slot and leaves no slot busy. -/
theorem shardInsertLoop_shape {cap : Nat} (hc : ∃ b, cap = 2 ^ b) (n slot : Nat)
    (t : Nat → Entry) (incoming : Incoming) (hs : slot < cap) (hch : Chained cap t)
    (hb : ∀ i, (t i).state ≠ .busy)
    (hw : Cyclic.Filled (fun j => (t j).state ≠ .empty) cap
      (tableSlot incoming.keyHash cap) slot) :
    Chained cap (shardInsertLoop cap n slot t incoming).1 ∧
      ∀ i, ((shardInsertLoop cap n slot t incoming).1 i).state ≠ .busy := by
  induction n generalizing slot t incoming with
  | zero => exact ⟨hch, hb⟩
  | succ n ih =>
    have hput : Chained cap (Function.update t slot incoming.placed) :=
      hch.update (by simp [Incoming.placed]) fun _ => hw
    have hbusy : ∀ i, (Function.update t slot incoming.placed i).state ≠ .busy :=
      notBusy_update hb (by simp [Incoming.placed])
    rcases shardInsertLoop_cases cap n slot t incoming with ⟨_, he⟩ | ⟨hl, he⟩ | ⟨hnf, he⟩
    · rw [he]
      exact ⟨hput, hbusy⟩
    · rw [he]
      -- the displaced entry continues from a slot its own chain already reaches
      have hcarry := (hch slot hs hl).next hc (tableSlot_lt hc _) hs (by simp [hl])
      exact ih _ _ _ (Cyclic.next_lt hc slot) hput hbusy
        (hcarry.mono fun j hj => used_update (by simp [Incoming.placed]) j hj)
    · rw [he]
      have hused : (t slot).state ≠ .empty := fun hemp => hnf (Or.inl hemp)
      exact ih _ _ _ (Cyclic.next_lt hc slot) hch hb (hw.next hc (tableSlot_lt hc _) hs hused)

/-! ## The entries that an insertion moves -/

/-- Along the slots of the list each entry moves to the next slot: `d` goes to the first one,
what a slot held goes to the slot after it, and the last slot was free. -/
inductive Displaces (t t' : Nat → Entry) : EntryData → List Nat → Prop
  | fill {d : EntryData} {i : Nat} : (t i).Free → (t' i).state = .live → (t' i).toEntryData = d →
      Displaces t t' d [i]
  | swap {d : EntryData} {i : Nat} {is : List Nat} : (t i).state = .live → (t' i).state = .live →
      (t' i).toEntryData = d → Displaces t t' (t i).toEntryData is → Displaces t t' d (i :: is)

namespace Displaces

variable {t t₁ t' : Nat → Entry} {d : EntryData} {chain : List Nat}

theorem congr (h : Displaces t₁ t' d chain) (ht : ∀ i ∈ chain, t₁ i = t i) :
    Displaces t t' d chain := by
  induction h with
  | @fill d i hf hl hd =>
    rw [ht i (List.mem_singleton_self i)] at hf
    exact .fill hf hl hd
  | @swap d i is hl hl' hd _ ih =>
    rw [ht i List.mem_cons_self] at hl ih
    exact .swap hl hl' hd (ih fun j hj => ht j (List.mem_cons_of_mem _ hj))

theorem live (h : Displaces t t' d chain) : ∀ i ∈ chain, (t' i).state = .live := by
  induction h with
  | fill _ hl _ => simpa using hl
  | swap _ hl _ _ ih => simpa using ⟨hl, ih⟩

/-- One slot of the chain was free. -/
theorem free_unique (h : Displaces t t' d chain) : ∃! i, i ∈ chain ∧ (t i).Free := by
  induction h with
  | @fill d i hf _ _ =>
    refine ⟨i, ⟨List.mem_singleton_self i, hf⟩, ?_⟩
    rintro j ⟨hj, -⟩
    exact List.mem_singleton.mp hj
  | @swap d i is hl _ _ _ ih =>
    obtain ⟨k, ⟨hk, hkf⟩, huniq⟩ := ih
    refine ⟨k, ⟨List.mem_cons_of_mem _ hk, hkf⟩, ?_⟩
    rintro j ⟨hj, hjf⟩
    obtain rfl | hj := List.mem_cons.mp hj
    · exact absurd hl hjf.not_live
    · exact huniq j ⟨hj, hjf⟩

end Displaces

/-- The loop moves the entries of one chain of slots on its walk and touches no other slot. -/
theorem shardInsertLoop_displaces {cap : Nat} (hc : ∃ b, cap = 2 ^ b) (n slot : Nat)
    (t : Nat → Entry) (incoming : Incoming) (hs : slot < cap) (hn : n ≤ cap)
    (hnone : (shardInsertLoop cap n slot t incoming).2 = none) :
    ∃ chain : List Nat, chain.Nodup ∧ (∀ i ∈ chain, ∃ j, j < n ∧ i = (slot + j) % cap) ∧
      Displaces t (shardInsertLoop cap n slot t incoming).1 incoming.toEntryData chain ∧
      ∀ i, i ∉ chain → (shardInsertLoop cap n slot t incoming).1 i = t i := by
  induction n generalizing slot t incoming with
  | zero => simp [shardInsertLoop] at hnone
  | succ n ih =>
    have h0 : slot = (slot + 0) % cap := (Nat.mod_eq_of_lt hs).symm
    -- the rest of the walk does not come back to this slot
    have hback : ∀ {chain : List Nat},
        (∀ i ∈ chain, ∃ j, j < n ∧ i = (Cyclic.next cap slot + j) % cap) →
        slot ∉ chain ∧ ∀ i ∈ chain, ∃ j, j < n + 1 ∧ i = (slot + j) % cap := by
      intro chain hin
      refine ⟨fun hmem => ?_, fun i hi => ?_⟩
      · obtain ⟨j, hj, he⟩ := hin slot hmem
        rw [Cyclic.next_offset hc] at he
        exact Cyclic.offset_ne_self hs (by omega) he.symm
      · obtain ⟨j, hj, rfl⟩ := hin i hi
        exact ⟨j + 1, by omega, Cyclic.next_offset hc slot j⟩
    rcases shardInsertLoop_cases cap n slot t incoming with ⟨hf, he⟩ | ⟨hl, he⟩ | ⟨_, he⟩
    · rw [he]
      refine ⟨[slot], List.nodup_singleton slot, ?_, ?_, ?_⟩
      · intro i hi
        exact ⟨0, Nat.succ_pos n, (List.mem_singleton.mp hi).trans h0⟩
      · exact .fill hf (by simp [Incoming.placed]) (by simp [Incoming.placed])
      · intro i hi
        exact Function.update_of_ne (fun h => hi (List.mem_singleton.mpr h)) _ _
    · rw [he] at hnone ⊢
      obtain ⟨chain, hnodup, hin, hmoves, hrest⟩ :=
        ih _ _ _ (Cyclic.next_lt hc slot) (by omega) hnone
      obtain ⟨hslot, hin'⟩ := hback hin
      have hput := hrest slot hslot
      rw [Function.update_self] at hput
      have hsame : ∀ i ∈ chain, Function.update t slot incoming.placed i = t i := by
        intro i hi
        have hne : i ≠ slot := fun h => hslot (h ▸ hi)
        exact Function.update_of_ne hne _ _
      refine ⟨slot :: chain, List.nodup_cons.mpr ⟨hslot, hnodup⟩, ?_, ?_, ?_⟩
      · intro i hi
        obtain rfl | hi := List.mem_cons.mp hi
        · exact ⟨0, Nat.succ_pos n, h0⟩
        · exact hin' i hi
      · exact .swap hl (by rw [hput]; rfl) (by rw [hput]; rfl) (hmoves.congr hsame)
      · intro i hi
        rw [List.mem_cons, not_or] at hi
        rw [hrest i hi.2, Function.update_of_ne hi.1]
    · rw [he] at hnone ⊢
      obtain ⟨chain, hnodup, hin, hmoves, hrest⟩ :=
        ih _ _ _ (Cyclic.next_lt hc slot) (by omega) hnone
      exact ⟨chain, hnodup, (hback hin).2, hmoves, hrest⟩

/-- Insertion into a table with a free slot adds the entry and loses none: the displaced
entries move along one chain that ends in the only slot that was free and now is live. -/
theorem insert_conserves {s : Shard} (hc : ∃ b, s.cap = 2 ^ b)
    (hf : ∃ i, i < s.cap ∧ (s.table i).Free) (ne : EntryData) :
    (shardInsert s ne).contents = ne ::ₘ s.contents ∧
      (∃! i, i < s.cap ∧ (s.table i).Free ∧ ((shardInsert s ne).table i).state = .live) ∧
      ∃ chain : List Nat, chain.Nodup ∧ (∀ i ∈ chain, i < s.cap) ∧
        Displaces s.table (shardInsert s ne).table ne chain ∧
        ∀ i, i ∉ chain → (shardInsert s ne).table i = s.table i := by
  obtain ⟨k, hk, hkf⟩ := hf
  have hhome := tableSlot_lt hc ne.keyHash
  have hnone : (shardInsertLoop s.cap s.cap (tableSlot ne.keyHash s.cap) s.table
      { toEntryData := ne, probeDist := 0 }).2 = none := by
    by_contra hsome
    exact shardInsertLoop_full hc _ _ _ hhome hsome k hk hkf
  have hcontents := shardInsertLoop_contents hc s.cap _ s.table
    { toEntryData := ne, probeDist := 0 } hhome
  rw [hnone, leftover, add_zero] at hcontents
  obtain ⟨chain, hnodup, hin, hmoves, hrest⟩ :=
    shardInsertLoop_displaces hc s.cap _ s.table _ hhome (le_refl _) hnone
  have hlt : ∀ i ∈ chain, i < s.cap := by
    intro i hi
    obtain ⟨j, -, rfl⟩ := hin i hi
    exact Nat.mod_lt _ (Cyclic.pos_of_pow hc)
  refine ⟨hcontents, ?_, chain, hnodup, hlt, hmoves, hrest⟩
  obtain ⟨i, ⟨hi, hif⟩, huniq⟩ := hmoves.free_unique
  refine ⟨i, ⟨hlt i hi, hif, hmoves.live i hi⟩, ?_⟩
  rintro j ⟨-, hjf, hjl⟩
  refine huniq j ⟨?_, hjf⟩
  by_contra hj
  have hsame : (shardInsert s ne).table j = s.table j := hrest j hj
  rw [hsame] at hjl
  exact hjf.not_live hjl

/-- An entry without key and value whose home is slot `hash`. -/
def homeEntry (hash : UInt64) (state : SlotState) (clockBit : Bool) : Entry where
  flags := 0
  valLen := 0
  keyLen := 0
  keyHash := hash
  expireNs := 0
  payload := []
  state := state
  clockBit := clockBit
  probeDist := 0

/-- Entries at home in slots 0 and 1, a tombstone, and a slot that was never used. -/
def fourSlots (clockBit : Bool) : Shard where
  table
    | 0 => homeEntry 0 .live clockBit
    | 1 => homeEntry 1 .live clockBit
    | 2 => homeEntry 2 .dead clockBit
    | _ => homeEntry 3 .empty false
  cap := 4
  count := 2
  clockHand := 3
  hits := 0
  misses := 0
  sets := 2
  evictions := 0

theorem insert_conserves_fourSlots :
    let s := fourSlots true
    let ne := (homeEntry 0 .live true).toEntryData
    (shardInsert s ne).contents = ne ::ₘ s.contents ∧
      (∃! i, i < s.cap ∧ (s.table i).Free ∧ ((shardInsert s ne).table i).state = .live) ∧
      ∃ chain : List Nat, chain.Nodup ∧ (∀ i ∈ chain, i < s.cap) ∧
        Displaces s.table (shardInsert s ne).table ne chain ∧
        ∀ i, i ∉ chain → (shardInsert s ne).table i = s.table i :=
  insert_conserves ⟨2, rfl⟩ ⟨2, by decide, by decide⟩ _

end VoidCache
