import VoidCache.Net.Parse

/-!
# Replies: the RESP writers of the server

Each writer is given by the bytes it appends to the output buffer. `buf_printf` formats into
256 bytes and appends nothing when the text does not fit. `RespValue` is the grammar: one
complete value, with as many elements after an array or map header as the header announces.
-/
namespace VoidCache

/-! ## Writers -/

def bufPrintf (text : List UInt8) : List UInt8 :=
  if 256 ≤ text.length then [] else text

def respWriteOk : List UInt8 := str "+OK\r\n"

def respWriteNullCompat (resp3 : Bool) : List UInt8 :=
  if resp3 then str "_\r\n" else str "$-1\r\n"

def respWriteError (code msg : List UInt8) : List UInt8 :=
  bufPrintf (45 :: code ++ 32 :: msg ++ crlf)

def respWriteSimple (s : List UInt8) : List UInt8 :=
  bufPrintf (43 :: s ++ crlf)

def respWriteInteger (n : Int) : List UInt8 :=
  58 :: decimalInt n ++ crlf

/-- `text` is what `%g` makes of the number. -/
def respWriteDouble (text : List UInt8) : List UInt8 :=
  bufPrintf (44 :: text ++ crlf)

def respWriteBool (v : Bool) : List UInt8 :=
  if v then str "#t\r\n" else str "#f\r\n"

def respWriteBulk (data : List UInt8) : List UInt8 :=
  36 :: decimal data.length ++ crlf ++ data ++ crlf

def respWriteArrayHeader (count : Nat) : List UInt8 :=
  42 :: decimal count ++ crlf

def respWriteMapHeader (pairs : Nat) : List UInt8 :=
  37 :: decimal pairs ++ crlf

def vcTypeInt64 : UInt8 := 105
def vcTypeFloat64 : UInt8 := 100
def vcTypeBool : UInt8 := 98
def vcTypeJson : UInt8 := 106
def vcTypeList : UInt8 := 108
def vcTypeHash : UInt8 := 104
def vcTypeBinary : UInt8 := 66

def respWriteVcTyped (type : UInt8) (payload : List UInt8) : List UInt8 :=
  36 :: decimal (vcWireMagic.length + 1 + payload.length) ++ crlf ++ vcWireMagic ++ [type] ++
    payload ++ crlf

/-- The low eight bytes of an `int64_t`, least significant first. -/
def int64Bytes (v : Int) : List UInt8 := leBytes 8 (v % 2 ^ 64).toNat

def respWriteVcInt64 (v : Int) : List UInt8 := respWriteVcTyped vcTypeInt64 (int64Bytes v)

def respWriteVcBool (v : Bool) : List UInt8 := respWriteVcTyped vcTypeBool [if v then 1 else 0]

def respWriteVcJson (json : List UInt8) : List UInt8 := respWriteVcTyped vcTypeJson json

def respWriteVcBinary (data : List UInt8) : List UInt8 := respWriteVcTyped vcTypeBinary data

def vcServerVersion : List UInt8 := str "2.0.0"

def respWriteHello (serverVer nodeId : List UInt8) (resp3 : Bool) : List UInt8 :=
  (if resp3 then respWriteMapHeader 5 else respWriteArrayHeader (5 * 2)) ++
    respWriteBulk (str "server") ++ respWriteBulk (str "voidcache") ++
    respWriteBulk (str "version") ++ respWriteBulk serverVer ++
    respWriteBulk (str "proto") ++ respWriteInteger (if resp3 then 3 else 2) ++
    respWriteBulk (str "id") ++ respWriteBulk nodeId ++
    respWriteBulk (str "mode") ++ respWriteBulk (str "standalone")

/-! ## The grammar of replies -/

/-- Text that a line can hold. -/
def Plain (s : List UInt8) : Prop := ∀ b ∈ s, b ≠ 13 ∧ b ≠ 10

instance (s : List UInt8) : Decidable (Plain s) := List.decidableBAll _ s

/-- One complete RESP value. -/
inductive RespValue : List UInt8 → Prop where
  | simple {s : List UInt8} (h : Plain s) : RespValue (43 :: s ++ crlf)
  | error {s : List UInt8} (h : Plain s) : RespValue (45 :: s ++ crlf)
  | integer (n : Int) : RespValue (58 :: decimalInt n ++ crlf)
  | double {s : List UInt8} (h : Plain s) : RespValue (44 :: s ++ crlf)
  | boolean (v : Bool) : RespValue (35 :: (if v then 116 else 102) :: crlf)
  | null : RespValue (95 :: crlf)
  | nullBulk : RespValue (36 :: 45 :: 49 :: crlf)
  | bulk (data : List UInt8) : RespValue (36 :: decimal data.length ++ crlf ++ data ++ crlf)
  | array (parts : List (List UInt8)) (h : ∀ p ∈ parts, RespValue p) :
      RespValue (42 :: decimal parts.length ++ crlf ++ parts.flatten)
  | map (keys values : List (List UInt8)) (hlen : keys.length = values.length)
      (hk : ∀ p ∈ keys, RespValue p) (hv : ∀ p ∈ values, RespValue p) :
      RespValue (37 :: decimal keys.length ++ crlf ++ (List.zipWith (· ++ ·) keys values).flatten)

/-- One complete value in the given version of the protocol: doubles, booleans, maps and the
underscore for null came with RESP3. -/
inductive RespVersion (resp3 : Bool) : List UInt8 → Prop where
  | simple {s : List UInt8} (h : Plain s) : RespVersion resp3 (43 :: s ++ crlf)
  | error {s : List UInt8} (h : Plain s) : RespVersion resp3 (45 :: s ++ crlf)
  | integer (n : Int) : RespVersion resp3 (58 :: decimalInt n ++ crlf)
  | nullBulk : RespVersion resp3 (36 :: 45 :: 49 :: crlf)
  | bulk (data : List UInt8) : RespVersion resp3 (36 :: decimal data.length ++ crlf ++ data ++ crlf)
  | array (parts : List (List UInt8)) (h : ∀ p ∈ parts, RespVersion resp3 p) :
      RespVersion resp3 (42 :: decimal parts.length ++ crlf ++ parts.flatten)
  | double {s : List UInt8} (h3 : resp3 = true) (h : Plain s) : RespVersion resp3 (44 :: s ++ crlf)
  | boolean (h3 : resp3 = true) (v : Bool) :
      RespVersion resp3 (35 :: (if v then 116 else 102) :: crlf)
  | null (h3 : resp3 = true) : RespVersion resp3 (95 :: crlf)
  | map (h3 : resp3 = true) (keys values : List (List UInt8)) (hlen : keys.length = values.length)
      (hk : ∀ p ∈ keys, RespVersion resp3 p) (hv : ∀ p ∈ values, RespVersion resp3 p) :
      RespVersion resp3
        (37 :: decimal keys.length ++ crlf ++ (List.zipWith (· ++ ·) keys values).flatten)

theorem RespVersion.value {resp3 : Bool} {w : List UInt8} (h : RespVersion resp3 w) : RespValue w := by
  induction h with
  | simple h => exact .simple h
  | error h => exact .error h
  | integer n => exact .integer n
  | nullBulk => exact .nullBulk
  | bulk data => exact .bulk data
  | array parts _ ih => exact .array parts ih
  | double _ h => exact .double h
  | boolean _ v => exact .boolean v
  | null => exact .null
  | map _ keys values hlen _ _ ihk ihv => exact .map keys values hlen ihk ihv

/-- Complete values of one version of the protocol, one after the other. -/
def RespValues (resp3 : Bool) (w : List UInt8) : Prop :=
  ∃ parts : List (List UInt8), (∀ p ∈ parts, RespVersion resp3 p) ∧ w = parts.flatten

theorem RespVersion.values {resp3 : Bool} {w : List UInt8} (h : RespVersion resp3 w) :
    RespValues resp3 w :=
  ⟨[w], List.forall_mem_singleton.mpr h, by simp⟩

theorem RespVersion.values_append {resp3 : Bool} {v w : List UInt8} (hv : RespVersion resp3 v)
    (hw : RespVersion resp3 w) : RespValues resp3 (v ++ w) :=
  ⟨[v, w], by simp [hv, hw], by simp⟩

/-- What RESP2 knows, RESP3 knows too. -/
theorem RespVersion.mono {w : List UInt8} (h : RespVersion false w) (resp3 : Bool) :
    RespVersion resp3 w := by
  induction h with
  | simple h => exact .simple h
  | error h => exact .error h
  | integer n => exact .integer n
  | nullBulk => exact .nullBulk
  | bulk data => exact .bulk data
  | array parts _ ih => exact .array parts ih
  | double h3 | boolean h3 | null h3 | map h3 => cases h3

section Writers

variable {resp3 : Bool}

theorem respWriteOk_value : RespVersion resp3 respWriteOk := .simple (s := str "OK") (by decide)

/-- The null of a RESP2 connection is known to both versions. -/
theorem respWriteNullCompat_value {compat : Bool} (h : compat = true → resp3 = true) :
    RespVersion resp3 (respWriteNullCompat compat) := by
  cases compat with
  | false => exact .nullBulk
  | true => exact .null (h rfl)

theorem respWriteInteger_value (n : Int) : RespVersion resp3 (respWriteInteger n) := .integer n

theorem respWriteBulk_value (data : List UInt8) : RespVersion resp3 (respWriteBulk data) := .bulk data

/-- A line that fits the buffer of `buf_printf` is written whole. -/
theorem bufPrintf_eq {text : List UInt8} (h : text.length < 256) : bufPrintf text = text :=
  if_neg (by omega)

theorem respWriteError_value {code msg : List UInt8} (hc : Plain code) (hm : Plain msg)
    (hlen : code.length + msg.length < 252) : RespVersion resp3 (respWriteError code msg) := by
  rw [respWriteError, bufPrintf_eq (by simp [crlf]; omega)]
  have hplain : Plain (code ++ 32 :: msg) := by
    intro b hb
    rcases List.mem_append.mp hb with h | h
    · exact hc b h
    · rcases List.mem_cons.mp h with rfl | h
      · decide
      · exact hm b h
  simpa using RespVersion.error hplain

theorem respWriteSimple_value {s : List UInt8} (h : Plain s) (hlen : s.length < 253) :
    RespVersion resp3 (respWriteSimple s) := by
  rw [respWriteSimple, bufPrintf_eq (by simp [crlf]; omega)]
  exact .simple h

theorem respWriteArrayHeader_value {parts : List (List UInt8)} {n : Nat} (hn : parts.length = n)
    (h : ∀ p ∈ parts, RespVersion resp3 p) :
    RespVersion resp3 (respWriteArrayHeader n ++ parts.flatten) := by
  subst hn
  exact .array parts h

theorem respWriteMapHeader_value {keys values : List (List UInt8)} {n : Nat} (h3 : resp3 = true)
    (hn : keys.length = n) (hlen : keys.length = values.length)
    (hk : ∀ p ∈ keys, RespVersion resp3 p) (hv : ∀ p ∈ values, RespVersion resp3 p) :
    RespVersion resp3 (respWriteMapHeader n ++ (List.zipWith (· ++ ·) keys values).flatten) := by
  subst hn
  exact .map h3 keys values hlen hk hv

theorem respWriteBool_value (h3 : resp3 = true) (v : Bool) : RespVersion resp3 (respWriteBool v) := by
  cases v
  · exact .boolean h3 false
  · exact .boolean h3 true

theorem respWriteDouble_value {s : List UInt8} (h3 : resp3 = true) (h : Plain s)
    (hlen : s.length < 253) : RespVersion resp3 (respWriteDouble s) := by
  rw [respWriteDouble, bufPrintf_eq (by simp [crlf]; omega)]
  exact .double h3 h

end Writers

theorem respWriteVcTyped_eq (type : UInt8) (payload : List UInt8) :
    respWriteVcTyped type payload = respWriteBulk (vcWireMagic ++ type :: payload) := by
  have hlen : (vcWireMagic ++ type :: payload).length = vcWireMagic.length + 1 + payload.length := by
    simp
    omega
  rw [respWriteBulk, hlen]
  simp [respWriteVcTyped]

/-- A bulk string ends where its length says. -/
theorem respWriteBulk_append_inj {a b x y : List UInt8} (h : respWriteBulk a ++ x = respWriteBulk b ++ y) :
    a = b ∧ x = y := by
  have hwire (d z : List UInt8) :
      respWriteBulk d ++ z = (36 :: decimal d.length) ++ (crlf ++ (d ++ (crlf ++ z))) := by
    simp [respWriteBulk]
  have hline (d : List UInt8) : NoCrlf (36 :: decimal d.length) :=
    noCrlf_of_plain (cr_notMem_decimal (by decide) _)
  rw [hwire, hwire] at h
  obtain ⟨hhead, hrest⟩ := line_unique h (hline a) (hline b)
  have hlen := decimal_injective (List.cons.inj hhead).2
  obtain ⟨hab, htail⟩ := List.append_inj hrest hlen
  exact ⟨hab, List.append_cancel_left htail⟩

/-- Nothing can follow a bulk string inside one value. -/
theorem not_respValue_bulk_append (data : List UInt8) {x : List UInt8} (hx : x ≠ []) :
    ¬ RespValue (respWriteBulk data ++ x) := by
  intro h
  generalize hw : respWriteBulk data ++ x = w at h
  have hhead : w.head? = some 36 := by rw [← hw]; rfl
  cases h with
  | simple => simp at hhead
  | error => simp at hhead
  | integer => simp at hhead
  | double => simp at hhead
  | boolean => simp at hhead
  | null => simp at hhead
  | array => simp at hhead
  | map => simp at hhead
  | nullBulk =>
    obtain ⟨d, ds, hd⟩ := List.exists_cons_of_ne_nil (decimal_ne_nil data.length)
    have hdigit : isDigit d = true := isDigit_of_mem_decimal (n := data.length) (by simp [hd])
    rw [respWriteBulk, hd] at hw
    simp only [List.cons_append, List.cons.injEq] at hw
    exact absurd hw.2.1 (isDigit_plain hdigit).2.1
  | bulk b =>
    rw [← respWriteBulk, ← List.append_nil (respWriteBulk b)] at hw
    exact hx (respWriteBulk_append_inj hw).2

end VoidCache
