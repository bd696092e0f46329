import VoidCache.Cluster.Slots
import VoidCache.Lib.Crc

/-!
# Slots against the bitwise CRC

Redis Cluster takes the slot of a key from the CRC-16/XMODEM of its hash tag. The code finds
the hash tag that Redis finds. Its table is not that of the polynomial: the entries 64 to 127
and 206 are wrong. `slot_agrees_iff` says for each key whether its slot is the right one: when it
meets no wrong entry, or the errors it meets cancel in the bits that are kept.
-/
namespace VoidCache

/-! ## The specification -/

/-- What stands between the first opening brace of the key and the first closing one after it, if
that is not empty. -/
def InBraces (key tag : List UInt8) : Prop :=
  ∃ before after, key = before ++ 123 :: (tag ++ 125 :: after) ∧ 123 ∉ before ∧ 125 ∉ tag ∧ tag ≠ []

/-- The bytes of a key that Redis Cluster hashes. -/
def IsHashTag (key tag : List UInt8) : Prop :=
  InBraces key tag ∨ tag = key ∧ ∀ t, ¬ InBraces key t

def crcPoly : BitVec 16 := 0x1021#16

/-- CRC-16/XMODEM: nothing is reflected and the remainder starts at 0. -/
def crc16Xmodem (msg : List UInt8) : BitVec 16 := Crc.crc crcPoly (msg.map UInt8.toBitVec)

example : crc16Xmodem (str "123456789") = 0x31C3#16 := by decide +kernel

/-! ## The hash tag -/

theorem takeWhile_ne_append {b : UInt8} {l : List UInt8} (hl : b ∉ l) (x : List UInt8) :
    (l ++ b :: x).takeWhile (· ≠ b) = l := by
  have hall : ∀ a ∈ l, (decide (a ≠ b)) = true := fun a ha => by
    simpa using fun hab : a = b => hl (hab ▸ ha)
  rw [List.takeWhile_append_of_pos hall]
  simp

theorem dropWhile_ne_append {b : UInt8} {l : List UInt8} (hl : b ∉ l) (x : List UInt8) :
    (l ++ b :: x).dropWhile (· ≠ b) = b :: x := by
  have hall : ∀ a ∈ l, (decide (a ≠ b)) = true := fun a ha => by
    simpa using fun hab : a = b => hl (hab ▸ ha)
  rw [List.dropWhile_append_of_pos hall]
  simp

/-- The two searches of the code find what stands in braces. -/
theorem hashTag_of_inBraces {key tag : List UInt8} (h : InBraces key tag) : hashTag key = tag := by
  obtain ⟨before, after, rfl, hbefore, htag, hne⟩ := h
  unfold hashTag
  rw [dropWhile_ne_append hbefore]
  dsimp only
  rw [takeWhile_ne_append htag, if_pos ⟨by simp, hne⟩]

theorem inBraces_of_hashTag {key rest : List UInt8} (hdrop : key.dropWhile (· ≠ 123) = 123 :: rest)
    (hclose : 125 ∈ rest) (hne : rest.takeWhile (· ≠ 125) ≠ []) :
    InBraces key (rest.takeWhile (· ≠ 125)) := by
  have hopened : key = key.takeWhile (· ≠ 123) ++ 123 :: rest := by
    rw [← hdrop, List.takeWhile_append_dropWhile]
  obtain ⟨before, after, rfl, hbefore⟩ := List.eq_append_cons_of_mem hclose
  rw [takeWhile_ne_append hbefore] at hne ⊢
  refine ⟨_, after, hopened, ?_, hbefore, hne⟩
  intro hmem
  simpa using List.mem_takeWhile_imp hmem

theorem hashTag_of_not_inBraces {key : List UInt8} (h : ∀ t, ¬ InBraces key t) : hashTag key = key := by
  unfold hashTag
  split
  · rfl
  · rename_i b rest hdrop
    dsimp only
    split_ifs with htag
    · have hb : b = 123 := by
        have hhead := List.head_dropWhile_not (p := (· ≠ (123 : UInt8))) (l := key) (by rw [hdrop]; simp)
        simp only [hdrop, List.head_cons] at hhead
        simpa using hhead
      subst hb
      exact absurd (inBraces_of_hashTag hdrop htag.1 htag.2) (h _)
    · rfl

theorem hashTag_eq {key tag : List UInt8} (h : IsHashTag key tag) : hashTag key = tag := by
  rcases h with h | ⟨rfl, h⟩
  · exact hashTag_of_inBraces h
  · exact hashTag_of_not_inBraces h

/-! ## The table -/

/-- The table of the source, by octets. -/
def crcTable (i : BitVec 8) : BitVec 16 := (crc16Tab.getD i.toNat 0).toBitVec

/-- How far an entry is off. -/
def tabError (i : BitVec 8) : BitVec 16 := crcTable i ^^^ Crc.entry crcPoly i

/-- The wrong entries. -/
def Damaged (i : BitVec 8) : Prop := 64 ≤ i.toNat ∧ i.toNat ≤ 127 ∨ i.toNat = 206

instance (i : BitVec 8) : Decidable (Damaged i) := inferInstanceAs (Decidable (_ ∨ _))

theorem tabError_eq_zero_iff : ∀ i, tabError i = 0#16 ↔ ¬ Damaged i := by decide +kernel

theorem crcTable_eq (i : BitVec 8) : crcTable i = Crc.entry crcPoly i ^^^ tabError i := by
  rw [tabError, BitVec.xor_comm, BitVec.xor_assoc, BitVec.xor_self, BitVec.xor_zero]

/-- The index of an octet into the table. -/
theorem crcIndex_eq (crc : UInt16) (b : UInt8) :
    (((crc >>> 8) ^^^ b.toUInt16) &&& 0xFF).toNat = (Crc.top crc.toBitVec ^^^ b.toBitVec).toNat := by
  have hmask : ((crc >>> 8 ^^^ b.toUInt16) &&& 0xFF).toNat = (crc >>> 8 ^^^ b.toUInt16).toNat % 2 ^ 8 := by
    rw [UInt16.toNat_and]
    exact Nat.and_two_pow_sub_one_eq_mod _ 8
  rw [hmask, UInt16.toNat_xor, BitVec.toNat_xor, Crc.top, BitVec.toNat_setWidth, Nat.xor_mod_two_pow]
  simp

theorem vcCrc16_step (crc : UInt16) (b : UInt8) :
    ((crc <<< 8) ^^^ crc16Tab.getD (((crc >>> 8) ^^^ b.toUInt16) &&& 0xFF).toNat 0).toBitVec =
      Crc.feedWith crcTable crc.toBitVec b.toBitVec := by
  rw [crcIndex_eq, UInt16.toBitVec_xor]
  rfl

theorem vcCrc16_toBitVec (msg : List UInt8) :
    (vcCrc16 msg).toBitVec = (msg.map UInt8.toBitVec).foldl (Crc.feedWith crcTable) 0#16 := by
  have hfold (crc : UInt16) : (msg.foldl (fun (crc : UInt16) (b : UInt8) => (crc <<< 8) ^^^
      crc16Tab.getD (((crc >>> 8) ^^^ b.toUInt16) &&& 0xFF).toNat 0) crc).toBitVec =
      (msg.map UInt8.toBitVec).foldl (Crc.feedWith crcTable) crc.toBitVec := by
    induction msg generalizing crc with
    | nil => rfl
    | cons b msg ih => rw [List.foldl_cons, ih, vcCrc16_step, List.map_cons, List.foldl_cons]
  exact hfold 0

/-! ## Slots -/

/-- How far the remainder of the code is off in the end. -/
def crcDrift (tag : List UInt8) : BitVec 16 :=
  Crc.drift crcPoly tabError (tag.map UInt8.toBitVec) 0#16 0#16

theorem vcCrc16_eq (msg : List UInt8) : (vcCrc16 msg).toBitVec = crc16Xmodem msg ^^^ crcDrift msg := by
  have hfold := Crc.foldl_feedWith (by decide) crcTable_eq (msg.map UInt8.toBitVec) 0#16 0#16
  rw [BitVec.xor_self] at hfold
  rw [vcCrc16_toBitVec, hfold]
  rfl

/-- A byte of the tag whose entry of the table is wrong. -/
def MeetsDamage (tag : List UInt8) : Prop :=
  ∃ p b q, tag = p ++ b :: q ∧ Damaged (Crc.top (crc16Xmodem p) ^^^ b.toBitVec)

theorem crcDrift_eq_zero {tag : List UInt8} (h : ¬ MeetsDamage tag) : crcDrift tag = 0#16 := by
  refine Crc.drift_eq_zero fun p b q hmsg => (tabError_eq_zero_iff _).mpr fun hdamaged => h ?_
  obtain ⟨p', rest, rfl, rfl, hrest⟩ := List.map_eq_append_iff.mp hmsg
  obtain ⟨b', q', rfl, rfl, rfl⟩ := List.map_eq_cons_iff.mp hrest
  exact ⟨p', b', q', rfl, hdamaged⟩

theorem vcKeySlot_eq {key tag : List UInt8} (h : IsHashTag key tag) :
    vcKeySlot key = ((crc16Xmodem tag).toNat % 16384) ^^^ ((crcDrift tag).toNat % 16384) := by
  have hmask : (vcCrc16 tag &&& 0x3FFF).toNat = (vcCrc16 tag).toNat % 2 ^ 14 := by
    rw [UInt16.toNat_and]
    exact Nat.and_two_pow_sub_one_eq_mod _ 14
  rw [vcKeySlot, hashTag_eq h, hmask, ← UInt16.toNat_toBitVec, vcCrc16_eq, BitVec.toNat_xor,
    Nat.xor_mod_two_pow]

/-- The slot is right just when the drift vanishes in the bits that are kept. -/
theorem vcKeySlot_eq_iff_drift {key tag : List UInt8} (h : IsHashTag key tag) :
    vcKeySlot key = (crc16Xmodem tag).toNat % 16384 ↔ (crcDrift tag).toNat % 16384 = 0 := by
  rw [vcKeySlot_eq h]
  constructor
  · intro heq
    calc (crcDrift tag).toNat % 16384
        = (crc16Xmodem tag).toNat % 16384 ^^^
            ((crc16Xmodem tag).toNat % 16384 ^^^ (crcDrift tag).toNat % 16384) := by
          rw [← Nat.xor_assoc, Nat.xor_self, Nat.zero_xor]
      _ = 0 := by rw [heq, Nat.xor_self]
  · intro hzero
    rw [hzero, Nat.xor_zero]

/-- For every key, the slot is the one of Redis Cluster if no byte of the hash tag meets a wrong entry.
If some do, it is the right one just when their errors cancel in the bits that are kept. -/
theorem slot_agrees_iff {key tag : List UInt8} (h : IsHashTag key tag) :
    (¬ MeetsDamage tag → vcKeySlot key = (crc16Xmodem tag).toNat % 16384) ∧
      (vcKeySlot key = (crc16Xmodem tag).toNat % 16384 ↔ (crcDrift tag).toNat % 16384 = 0) := by
  have hdrift := vcKeySlot_eq_iff_drift h
  refine ⟨fun hmeets => hdrift.mpr ?_, hdrift⟩
  rw [crcDrift_eq_zero hmeets]
  rfl

theorem foo_isHashTag : IsHashTag (str "foo") (str "foo") := by
  refine .inr ⟨rfl, ?_⟩
  rintro t ⟨before, after, hkey, -⟩
  have hmem : (123 : UInt8) ∈ str "foo" := by rw [hkey]; simp
  exact absurd hmem (by decide +kernel)

/-- A key whose slot is right although it meets a wrong entry. -/
theorem slot_agrees_tag :
    IsHashTag (str "x\x7b_1\x7d") (str "_1") ∧ MeetsDamage (str "_1") ∧
      vcKeySlot (str "x\x7b_1\x7d") = (crc16Xmodem (str "_1")).toNat % 16384 := by
  have htag : IsHashTag (str "x\x7b_1\x7d") (str "_1") :=
    .inl ⟨str "x", [], by decide +kernel, by decide +kernel, by decide +kernel, by decide +kernel⟩
  exact ⟨htag, ⟨[], 95, str "1", by decide +kernel, by decide +kernel⟩,
    (slot_agrees_iff htag).2.mpr (by decide +kernel)⟩

/-- Redis puts this key into slot 12182. -/
theorem foo_slot_differs :
    IsHashTag (str "foo") (str "foo") ∧ (crc16Xmodem (str "foo")).toNat % 16384 = 12182 ∧
      vcKeySlot (str "foo") = 13547 :=
  ⟨foo_isHashTag, by decide +kernel, by decide +kernel⟩

end VoidCache
