import VoidCache.Lib.Peek
import VoidCache.Net.Handlers

/-!
# Where the typed decoders read

`TYPE`, `VCGET` and `INCRBY` take a stored value apart through a pointer and a length. Here they
are the same functions of the value as in the handlers, as programs that read byte by byte.
`TYPE` and `INCRBY` read below the length for every value; `VCGET` copies eight bytes for a
float and one for a boolean without looking at the length.
-/
namespace VoidCache

open Peek

/-- The test for the magic, and the type byte behind it: all that `cmd_type` reads. -/
def headerPeek (vlen : Nat) : Peek (Option UInt8) :=
  if vlen > vcWireMagic.length then do
    let v ← bytes 0 vcWireMagic.length
    if v = vcWireMagic then do
      let t ← byte vcWireMagic.length
      pure (some t)
    else pure none
  else pure none

def vcgetPeek (libm : Libm) (vlen : Nat) : Peek (List UInt8 × List UInt8) := do
  let header ← headerPeek vlen
  match header with
  | none =>
    let v ← bytes 0 vlen
    pure (str "string", respWriteBulk v)
  | some t =>
    let payload := vcWireMagic.length + 1
    let plen := vlen - vcWireMagic.length - 1
    if t = vcTypeInt64 then do
      let b ← bytes payload (min 8 plen)
      pure (str "int", respWriteInteger (toInt64 (leNat b)))
    else if t = vcTypeFloat64 then do
      let d ← bytes payload 8
      pure (str "float", respWriteDouble (libm.fmtG d))
    else if t = vcTypeBool then do
      let b ← byte payload
      pure (str "bool", respWriteBool (b != 0))
    else do
      let b ← bytes payload plen
      pure (if t = vcTypeJson then str "json" else str "binary", respWriteBulk b)

/-- The test of `cmd_incrby` for a typed integer. -/
def typedIntPeek (vlen : Nat) : Peek Bool :=
  if vlen = vcWireMagic.length + 1 + 8 then do
    let v ← bytes 0 vcWireMagic.length
    if v = vcWireMagic then do
      let t ← byte vcWireMagic.length
      pure (t == vcTypeInt64)
    else pure false
  else pure false

def incrbyPeek (vlen : Nat) : Peek Int := do
  let typed ← typedIntPeek vlen
  if typed then do
    let b ← bytes (vcWireMagic.length + 1) 8
    pure (toInt64 (leNat b))
  else do
    let tmp ← bytes 0 (if vlen < 31 then vlen else 31)
    pure (parseNum tmp)

/-! ## The same functions of the value -/

theorem length_of_typeByte {val : List UInt8} {t : UInt8} (h : typeByte val = some t) :
    vcWireMagic.length + 1 ≤ val.length := by
  unfold typeByte hasTypeHeader at h
  grind

section Values

variable {mem : Nat → UInt8} {val : List UInt8} (hval : window mem 0 val.length = val)
include hval

theorem window_eq_drop {pos len : Nat} (h : pos + len ≤ val.length) :
    window mem pos len = (val.drop pos).take len := by
  obtain ⟨rest, hrest⟩ := Nat.exists_eq_add_of_le h
  rw [hrest, window_add, window_add, Nat.zero_add] at hval
  rw [← hval, List.append_assoc, List.drop_left' (length_window ..), List.take_left' (length_window ..)]

theorem window_eq_take {len : Nat} (h : len ≤ val.length) : window mem 0 len = val.take len :=
  window_eq_drop hval (by rwa [Nat.zero_add])

theorem byte_eq_getD {i : Nat} (h : i < val.length) : mem i = val.getD i 0 := by
  have hone := @window_eq_drop mem val hval i 1 h
  rw [List.drop_eq_getElem_cons h] at hone
  rw [List.getD_eq_getElem _ _ h]
  exact (List.cons.inj hone).1

theorem value_headerPeek : value mem (headerPeek val.length) = typeByte val := by
  unfold headerPeek typeByte hasTypeHeader
  by_cases hlen : val.length > vcWireMagic.length
  · rw [if_pos hlen, value_bind, value_bytes, window_eq_take hval (Nat.le_of_lt hlen), value_ite]
    by_cases hmagic : val.take vcWireMagic.length = vcWireMagic
    · rw [if_pos hmagic, value_bind, value_byte, byte_eq_getD hval hlen]
      simp [hlen, hmagic]
    · rw [if_neg hmagic]
      simp [hmagic]
  · rw [if_neg hlen]
    simp [hlen]

theorem value_typedIntPeek : value mem (typedIntPeek val.length) =
    decide (val.length = vcWireMagic.length + 1 + 8 ∧ val.take vcWireMagic.length = vcWireMagic ∧
      val.getD vcWireMagic.length 0 = vcTypeInt64) := by
  unfold typedIntPeek
  by_cases hlen : val.length = vcWireMagic.length + 1 + 8
  · have hmagic := window_eq_take hval (show vcWireMagic.length ≤ val.length by omega)
    have htype := byte_eq_getD hval (show vcWireMagic.length < val.length by omega)
    simp only [value_bind, value_ite, value_pure, value_bytes, hmagic, value_byte, htype, if_pos hlen]
    grind
  · simp [hlen]

theorem value_incrbyPeek : value mem (incrbyPeek val.length) = counterValue val := by
  have hplain := window_eq_take hval
    (show (if val.length < 31 then val.length else 31) ≤ val.length by split <;> omega)
  rw [incrbyPeek, value_bind, value_typedIntPeek hval, counterValue, value_ite]
  simp only [decide_eq_true_eq]
  split
  · next htyped =>
    have hnumber : window mem (vcWireMagic.length + 1) 8 = val.drop (vcWireMagic.length + 1) := by
      rw [window_eq_drop hval (by omega), List.take_of_length_le (by simp; omega)]
    rw [value_bind, value_bytes, hnumber, value_pure]
  · rw [value_bind, value_bytes, hplain, value_pure]

/-- Reading ahead of a payload is reading the buffer, which holds something behind the value. -/
theorem readAhead_run {h : Host} (hspill : ∀ i, mem (val.length + i) = (h.envs h.calls).spill i) {pos : Nat}
    (hpos : pos ≤ val.length) (n : Nat) :
    (readAhead (val.drop pos) n).run hostExec h = (h, window mem pos n) := by
  have hlen : (val.drop pos).length = val.length - pos := List.length_drop
  unfold readAhead
  split
  · next hn => exact congrArg (Prod.mk h) (window_eq_drop hval (by omega)).symm
  · next hn =>
    obtain ⟨rest, rfl⟩ : ∃ rest, n = (val.drop pos).length + rest :=
      Nat.exists_eq_add_of_le (Nat.le_of_not_le hn)
    have hbeyond : List.ofFn (fun i : Fin ((val.drop pos).length + rest - (val.drop pos).length) =>
        (h.envs h.calls).spill i) = window mem (pos + (val.drop pos).length) rest := by
      rw [Nat.add_sub_cancel_left, window, hlen, Nat.add_sub_cancel' hpos]
      refine List.ext_getElem (by simp) fun i _ _ => ?_
      simp [hspill]
    have hthere : window mem pos (val.drop pos).length = val.drop pos := by
      rw [window_eq_drop hval (by omega), List.take_of_length_le (Nat.le_refl _)]
    rw [Calls.run_bind, window_add, hthere, ← hbeyond]
    rfl

theorem vcgetParts_run {h : Host} (hspill : ∀ i, mem (val.length + i) = (h.envs h.calls).spill i)
    (libm : Libm) :
    (vcgetParts libm val).run hostExec h = (h, value mem (vcgetPeek libm val.length)) := by
  rw [vcgetPeek, value_bind, value_headerPeek hval, vcgetParts]
  cases htype : typeByte val with
  | none => simp [hval]
  | some t =>
    have hlen := length_of_typeByte htype
    have hahead := readAhead_run hval hspill hlen
    have hall : window mem (vcWireMagic.length + 1) (val.length - vcWireMagic.length - 1) =
        val.drop (vcWireMagic.length + 1) := by
      rw [window_eq_drop hval (by omega), List.take_of_length_le (by simp; omega)]
    have hfirst : window mem (vcWireMagic.length + 1) (min 8 (val.length - vcWireMagic.length - 1)) =
        (val.drop (vcWireMagic.length + 1)).take 8 := by
      rw [window_eq_drop hval (by omega), List.take_eq_take_iff, List.length_drop]
      omega
    simp only [value_bind, value_ite, value_pure, value_bytes, value_byte, hall, hfirst]
    split_ifs
    · rfl
    · rw [Calls.run_bind, hahead]
      rfl
    · rw [Calls.run_bind, hahead]
      rfl
    · rfl
    · rfl

end Values

/-! ## The reads -/

/-- A float or a boolean that is stored without its payload, or with only a part of it. -/
def CutPayload (val : List UInt8) : Prop :=
  typeByte val = some vcTypeFloat64 ∧ val.length < vcWireMagic.length + 1 + 8 ∨
    typeByte val = some vcTypeBool ∧ val.length < vcWireMagic.length + 1 + 1

instance (val : List UInt8) : Decidable (CutPayload val) := inferInstanceAs (Decidable (_ ∨ _))

section Reads

variable {mem : Nat → UInt8} {val : List UInt8}

theorem headerPeek_inside (n : Nat) : Inside mem n (headerPeek n) := by
  unfold headerPeek
  simp only [inside_ite, inside_bind, inside_bytes, inside_byte, inside_pure]
  grind

theorem incrbyPeek_inside (hval : window mem 0 val.length = val) :
    Inside mem val.length (incrbyPeek val.length) := by
  have htest : Inside mem val.length (typedIntPeek val.length) := by
    unfold typedIntPeek
    simp only [inside_ite, inside_bind, inside_bytes, inside_byte, inside_pure]
    grind
  rw [incrbyPeek, inside_bind, value_typedIntPeek hval]
  simp only [decide_eq_true_eq, inside_ite, inside_bind, inside_bytes, inside_pure]
  grind

theorem vcgetPeek_inside_iff (hval : window mem 0 val.length = val) (libm : Libm) :
    Inside mem val.length (vcgetPeek libm val.length) ↔ ¬ CutPayload val := by
  rw [vcgetPeek, inside_bind, and_iff_right (headerPeek_inside _), value_headerPeek hval, CutPayload]
  cases htype : typeByte val with
  | none => simp
  | some t =>
    have hlen := length_of_typeByte htype
    simp only [inside_ite, inside_bind, inside_bytes, inside_byte, inside_pure, and_true, Option.some.injEq]
    have hne : vcTypeInt64 ≠ vcTypeFloat64 ∧ vcTypeInt64 ≠ vcTypeBool ∧ vcTypeFloat64 ≠ vcTypeBool := by decide
    grind

end Reads

end VoidCache
