import Mathlib.Data.List.TakeWhile
import Mathlib.Data.Nat.Digits.Defs
import Mathlib.Data.UInt
import Mathlib.Tactic.Ring

/-!
# C text: strings, letters and decimal numbers over bytes

Byte-level counterparts of the few libc routines that text protocols lean on. A C string is
what stands before the first zero byte; `strtoll` reads a base-ten number the way libc does,
with its leading blanks, its sign, its end position and its range error; `decimal` is what
`%zu` prints. The last section says that reading undoes printing.
-/
namespace VoidCache

/-! ## Text -/

/-- The bytes of a string literal. -/
def str (s : String) : List UInt8 :=
  s.toList.flatMap String.utf8EncodeChar

/-- The C string that starts a buffer. -/
def cstr (bs : List UInt8) : List UInt8 :=
  bs.takeWhile (· ≠ 0)

def toUpper (b : UInt8) : UInt8 :=
  if 97 ≤ b ∧ b ≤ 122 then b - 32 else b

def toLower (b : UInt8) : UInt8 :=
  if 65 ≤ b ∧ b ≤ 90 then b + 32 else b

/-- `strcasecmp(a, b) == 0`. -/
def strcaseeq (a b : List UInt8) : Bool :=
  (cstr a).map toLower == (cstr b).map toLower

theorem cstr_eq_self {bs : List UInt8} (h : (0 : UInt8) ∉ bs) : cstr bs = bs := by
  unfold cstr
  rw [List.takeWhile_eq_self_iff]
  intro b hb
  have hb0 : b ≠ 0 := fun h0 => h (h0 ▸ hb)
  simpa using hb0

theorem cstr_append_zero {bs : List UInt8} (h : (0 : UInt8) ∉ bs) (tl : List UInt8) :
    cstr (bs ++ 0 :: tl) = bs := by
  have hbs : ∀ b ∈ bs, b ≠ 0 := fun b hb h0 => h (h0 ▸ hb)
  rw [cstr, List.takeWhile_append_of_pos (by simpa using hbs)]
  simp

/-! ## Numbers -/

/-- The blanks that `strtoll` skips. -/
def isSpace (b : UInt8) : Bool :=
  b = 32 ∨ 9 ≤ b ∧ b ≤ 13

def isDigit (b : UInt8) : Bool :=
  48 ≤ b ∧ b ≤ 57

def digitsVal (ds : List UInt8) : Nat :=
  ds.foldl (fun n d => 10 * n + (d.toNat - 48)) 0

/-- What a call of `strtoll` leaves: its value, how many bytes it read, and `ERANGE`. -/
structure Strtoll where
  value : Int
  stop : Nat
  range : Bool
  deriving DecidableEq, Repr

/-- The sign that starts a number: whether it is a minus, and its width. -/
def signOf : List UInt8 → Bool × Nat
  | 45 :: _ => (true, 1)
  | 43 :: _ => (false, 1)
  | _ => (false, 0)

def strtoll (s : List UInt8) : Strtoll :=
  let body := s.dropWhile isSpace
  let (neg, width) := signOf body
  let ds := (body.drop width).takeWhile isDigit
  if ds = [] then ⟨0, 0, false⟩
  else
    let v : Int := if neg then -(digitsVal ds : Int) else digitsVal ds
    let stop := (s.length - body.length) + width + ds.length
    if v < -2 ^ 63 then ⟨-2 ^ 63, stop, true⟩
    else if 2 ^ 63 - 1 < v then ⟨2 ^ 63 - 1, stop, true⟩
    else ⟨v, stop, false⟩

/-- What `%zu` prints. -/
def decimal (n : Nat) : List UInt8 :=
  (Nat.toDigits 10 n).map Char.toUInt8

/-- What `%lld` prints. -/
def decimalInt (n : Int) : List UInt8 :=
  if n < 0 then 45 :: decimal n.natAbs else decimal n.natAbs

theorem toUInt8_isDigit {c : Char} (h : c.isDigit = true) :
    isDigit c.toUInt8 = true ∧ c.toUInt8.toNat = c.toNat := by
  have hb : 48 ≤ c.toNat ∧ c.toNat ≤ 57 := by
    simpa [Char.isDigit, UInt32.le_iff_toNat_le] using h
  have hn : c.toUInt8.toNat = c.toNat := by
    show (UInt8.ofNat c.toNat).toNat = c.toNat
    rw [UInt8.toNat_ofNat']
    omega
  refine ⟨?_, hn⟩
  simp [isDigit, UInt8.le_iff_toNat_le, hn, hb]

theorem decimal_ne_nil (n : Nat) : decimal n ≠ [] := by
  simp [decimal, Nat.toDigits_ne_nil]

theorem isDigit_of_mem_decimal {n : Nat} {b : UInt8} (h : b ∈ decimal n) : isDigit b = true := by
  obtain ⟨c, hc, rfl⟩ := List.mem_map.mp h
  exact (toUInt8_isDigit (Nat.isDigit_of_mem_toDigits (by decide) (by decide) hc)).1

theorem length_decimal_le {n k : Nat} (hk : 0 < k) (h : n < 10 ^ k) : (decimal n).length ≤ k := by
  rw [decimal, List.length_map]
  exact (Nat.length_toDigits_le_iff (by decide) hk).mpr h

theorem digitsVal_map {cs : List Char} (h : ∀ c ∈ cs, c.isDigit = true) (init : Nat) :
    (cs.map Char.toUInt8).foldl (fun n d => 10 * n + (d.toNat - 48)) init =
      Nat.ofDigitChars 10 cs init := by
  induction cs generalizing init with
  | nil => rfl
  | cons c cs ih =>
    rw [List.map_cons, List.foldl_cons, Nat.ofDigitChars_cons,
      (toUInt8_isDigit (h c (List.mem_cons_self ..))).2]
    exact ih (fun d hd => h d (List.mem_cons_of_mem _ hd)) _

theorem digitsVal_decimal (n : Nat) : digitsVal (decimal n) = n := by
  have hd : ∀ c ∈ Nat.toDigits 10 n, c.isDigit = true :=
    fun c hc => Nat.isDigit_of_mem_toDigits (by decide) (by decide) hc
  rw [digitsVal, decimal, digitsVal_map hd, Nat.ofDigitChars_ten_toDigits]

theorem decimal_injective : Function.Injective decimal :=
  Function.LeftInverse.injective digitsVal_decimal

/-- A digit is neither a blank nor a sign, nor one of the bytes that end a line. -/
theorem isDigit_plain {b : UInt8} (h : isDigit b = true) :
    isSpace b = false ∧ b ≠ 45 ∧ b ≠ 43 ∧ b ≠ 13 ∧ b ≠ 10 := by
  simp only [isDigit, isSpace, UInt8.le_iff_toNat_le, ne_eq, ← UInt8.toNat_inj,
    decide_eq_true_eq, decide_eq_false_iff_not, UInt8.toNat_ofNat] at h ⊢
  omega

/-- A number is read up to the first byte that is no digit. -/
theorem strtoll_digits {ds : List UInt8} (hne : ds ≠ []) (hds : ∀ b ∈ ds, isDigit b = true)
    {x : List UInt8} (hx : ∀ b ∈ x.head?, isDigit b = false) :
    strtoll (ds ++ x) =
      if 2 ^ 63 ≤ digitsVal ds then ⟨2 ^ 63 - 1, ds.length, true⟩
      else ⟨digitsVal ds, ds.length, false⟩ := by
  obtain ⟨d, rest, hcons⟩ := List.exists_cons_of_ne_nil hne
  have hd := isDigit_plain (hds d (by rw [hcons]; exact List.mem_cons_self ..))
  have hdrop : (ds ++ x).dropWhile isSpace = ds ++ x := by
    rw [hcons, List.cons_append, List.dropWhile_cons_of_neg (by simp [hd.1])]
  have hsign : signOf (ds ++ x) = (false, 0) := by
    rw [hcons]
    unfold signOf
    split <;> simp_all
  have hrest : x.takeWhile isDigit = [] := by
    cases x with
    | nil => rfl
    | cons b x => exact List.takeWhile_cons_of_neg (by simp [hx b rfl])
  have htake : (ds ++ x).takeWhile isDigit = ds := by
    rw [List.takeWhile_append_of_pos hds, hrest, List.append_nil]
  unfold strtoll
  simp only [hdrop, hsign, List.drop_zero, htake, hne, if_false, Nat.sub_self,
    Bool.false_eq_true, Nat.zero_add]
  rw [if_neg (by omega)]
  split_ifs <;> first | rfl | omega

theorem strtoll_decimal_append {n : Nat} (h : n < 2 ^ 63) {x : List UInt8}
    (hx : ∀ b ∈ x.head?, isDigit b = false) :
    strtoll (decimal n ++ x) = ⟨n, (decimal n).length, false⟩ := by
  have hval := digitsVal_decimal n
  have hread := strtoll_digits (decimal_ne_nil n) (fun b hb => isDigit_of_mem_decimal hb) hx
  rwa [hval, if_neg (by omega)] at hread

theorem strtoll_decimal {n : Nat} (h : n < 2 ^ 63) :
    strtoll (decimal n) = ⟨n, (decimal n).length, false⟩ := by
  simpa using strtoll_decimal_append h (x := []) (by simp)

example : strtoll (str " -042x") = ⟨-42, 5, false⟩ := by decide

theorem isDigit_or_minus {v : Int} {b : UInt8} (h : b ∈ decimalInt v) : isDigit b = true ∨ b = 45 := by
  unfold decimalInt at h
  split at h
  · rcases List.mem_cons.mp h with rfl | h
    · exact .inr rfl
    · exact .inl (isDigit_of_mem_decimal h)
  · exact .inl (isDigit_of_mem_decimal h)

theorem zero_notMem_decimalInt (v : Int) : (0 : UInt8) ∉ decimalInt v := fun h =>
  absurd (isDigit_or_minus h) (by decide)

theorem length_decimalInt_le {v : Int} (hge : -2 ^ 63 ≤ v) (hlt : v < 2 ^ 63) :
    (decimalInt v).length ≤ 20 := by
  have hdigits := length_decimal_le (n := v.natAbs) (k := 19) (by decide) (by omega)
  unfold decimalInt
  split <;> simp <;> omega

/-- Reading a signed number undoes printing it. -/
theorem strtoll_decimalInt {v : Int} (hge : -2 ^ 63 ≤ v) (hlt : v < 2 ^ 63) :
    strtoll (decimalInt v) = ⟨v, (decimalInt v).length, false⟩ := by
  by_cases hv : v < 0
  · have htake : (decimal v.natAbs).takeWhile isDigit = decimal v.natAbs :=
      List.takeWhile_eq_self_iff.mpr fun b hb => isDigit_of_mem_decimal hb
    have hdrop : (45 :: decimal v.natAbs).dropWhile isSpace = 45 :: decimal v.natAbs :=
      List.dropWhile_cons_of_neg (by decide)
    rw [decimalInt, if_pos hv]
    unfold strtoll
    simp only [hdrop, signOf, List.drop_succ_cons, List.drop_zero, htake, decimal_ne_nil, if_false,
      digitsVal_decimal, if_true, Nat.sub_self, Nat.zero_add, List.length_cons]
    rw [if_neg (by omega), if_neg (by omega)]
    congr 1 <;> omega
  · have hnat : ((v.natAbs : Nat) : Int) = v := by omega
    rw [decimalInt, if_neg hv, strtoll_decimal (by omega), hnat]

theorem strtoll_bounds (s : List UInt8) : -2 ^ 63 ≤ (strtoll s).value ∧ (strtoll s).value < 2 ^ 63 := by
  unfold strtoll
  dsimp only
  split_ifs <;> dsimp only <;> omega

end VoidCache
