import VoidCache.Net.Parse

/-!
# What the parser accepts

The array path of `resp_parse_command` read as a grammar: `ArrayText` is the text of an array
with its numbers as they are written, `WellFormed` says that `strtoll` reads them as the lengths
that follow. The parser accepts the well formed texts whose numbers are shorter than its scratch
buffer, whatever two bytes stand behind each element. The documented grammar wants digits and CR
LF. `array_grammar` says for which buffers the two agree.
-/
namespace VoidCache

/-! ## Numbers -/

/-- Digits only, of value `n`. -/
structure DecimalOf (s : List UInt8) (n : Nat) : Prop where
  ne_nil : s ≠ []
  digits : ∀ b ∈ s, isDigit b = true
  val : digitsVal s = n

/-- A line that `strtoll` reads to its end, as the number `n`. -/
structure Numeral (s : List UInt8) (n : Nat) : Prop where
  ne_nil : s ≠ []
  line : NoCrlf s
  read : strtoll s = ⟨n, s.length, false⟩

theorem noCrlf_of_digits {s : List UInt8} (h : ∀ b ∈ s, isDigit b = true) : NoCrlf s :=
  noCrlf_of_plain fun b hb => (isDigit_plain (h b hb)).2.2.2.1

theorem DecimalOf.numeral {s : List UInt8} {n : Nat} (h : DecimalOf s n) (hn : n < 2 ^ 63) :
    Numeral s n := by
  refine ⟨h.ne_nil, noCrlf_of_digits h.digits, ?_⟩
  have hread := strtoll_digits h.ne_nil h.digits (x := []) (by simp)
  rwa [List.append_nil, h.val, if_neg (by omega)] at hread

theorem Numeral.decimalOf {s : List UInt8} {n : Nat} (h : Numeral s n)
    (hd : ∀ b ∈ s, isDigit b = true) : DecimalOf s n := by
  refine ⟨h.ne_nil, hd, ?_⟩
  have hread := strtoll_digits h.ne_nil hd (x := []) (by simp)
  rw [List.append_nil, h.read] at hread
  split_ifs at hread
  · cases hread
  · simpa using (Strtoll.mk.inj hread).1.symm

theorem Numeral.unique {s : List UInt8} {m n : Nat} (h : Numeral s m) (h' : Numeral s n) : m = n := by
  have hread := h.read.symm.trans h'.read
  simpa using (Strtoll.mk.inj hread).1

theorem decimalOf_decimal (n : Nat) : DecimalOf (decimal n) n :=
  ⟨decimal_ne_nil n, fun _ hb => isDigit_of_mem_decimal hb, digitsVal_decimal n⟩

theorem parseInt64_eq_some {s : List UInt8} {v : Int} :
    parseInt64 s = some v ↔ s ≠ [] ∧ s.length < 32 ∧ strtoll s = ⟨v, s.length, false⟩ := by
  unfold parseInt64
  dsimp only
  rcases hr : strtoll s with ⟨value, stop, range⟩
  constructor
  · intro h
    split_ifs at h with hlen hread
    rw [not_or] at hlen hread
    obtain rfl := Option.some.inj h
    refine ⟨fun hnil => hlen.1 (by rw [hnil]; rfl), by omega, ?_⟩
    simp_all
  · rintro ⟨hne, hlen, he⟩
    cases he
    have hpos := List.length_pos_iff.mpr hne
    rw [if_neg (by omega)]
    simp

/-- The numbers the parser takes: a line of fewer than 32 bytes with a number in range. -/
theorem parseInt64_numeral {s : List UInt8} {n : Nat} (hs : NoCrlf s) :
    parseInt64 s = some (n : Int) ↔ Numeral s n ∧ s.length < 32 := by
  rw [parseInt64_eq_some]
  constructor
  · rintro ⟨hne, hlen, hread⟩
    exact ⟨⟨hne, hs, hread⟩, hlen⟩
  · rintro ⟨hnum, hlen⟩
    exact ⟨hnum.ne_nil, hlen, hnum.read⟩

/-! ## One element -/

/-- An element as it stands in the buffer: its length as written, its data, and what is skipped
behind them. -/
structure BulkText where
  len : List UInt8
  data : List UInt8
  tail : List UInt8

namespace BulkText

def text (e : BulkText) : List UInt8 := (36 :: e.len) ++ (crlf ++ (e.data ++ e.tail))

structure WellFormed (e : BulkText) : Prop where
  len : Numeral e.len e.data.length
  max : e.data.length ≤ vcMaxInlineArg
  tail : e.tail.length = 2

theorem length_text (e : BulkText) :
    e.text.length = (36 :: e.len).length + 2 + (e.data ++ e.tail).length := by
  simp only [text, crlf, List.length_append, List.length_cons, List.length_nil]
  omega

end BulkText

/-- A line that starts with `b` and holds a number of at most `max`, and what follows it. -/
theorem numberLine_eq_ok {γ : Type} {b : UInt8} (hb : b ≠ 13) {max : Nat}
    {k : Int → Scanner UInt8 γ} {p : List UInt8} (hp : p.head? = some b) {c : γ} {n : Nat} :
    (do
      let line ← crlfLine
      let v ← Scanner.ofOption (parseInt64 (line.drop 1))
      if v < 0 ∨ (max : Int) < v then .fail else k v : Scanner UInt8 γ) p = .ok c n ↔
    ∃ (s : List UInt8) (v : Nat) (x : List UInt8) (j : Nat), p = (b :: s) ++ (crlf ++ x) ∧
      Numeral s v ∧ s.length < 32 ∧ v ≤ max ∧ k v x = .ok c j ∧ n = (b :: s).length + 2 + j := by
  rw [Scanner.bind_eq_ok]
  simp only [Scanner.ofOption_bind_eq_ok, Scanner.ite_fail_eq_ok, crlfLine_eq_ok]
  constructor
  · rintro ⟨line, _, j, ⟨x, rfl, hline, rfl⟩, ⟨v, hv, hrange, hk⟩, rfl⟩
    rw [not_or, Int.not_lt, Int.not_lt] at hrange
    obtain ⟨s, rfl⟩ : ∃ s, line = b :: s := by
      cases line with
      | nil => exact absurd (Option.some.inj hp).symm hb
      | cons d s => exact ⟨s, by rw [Option.some.inj hp]⟩
    have hs : NoCrlf s := fun hin => hline (hin.trans (List.suffix_cons b s).isInfix)
    obtain ⟨v, rfl⟩ := Int.eq_ofNat_of_zero_le hrange.1
    obtain ⟨hnum, hlen⟩ := (parseInt64_numeral hs).mp hv
    refine ⟨s, v, x, j, rfl, hnum, hlen, by omega, ?_, rfl⟩
    rwa [← List.append_assoc, List.drop_left' (by simp [crlf])] at hk
  · rintro ⟨s, v, x, j, rfl, hnum, hlen, hmax, hk, rfl⟩
    refine ⟨b :: s, _, j, ⟨x, rfl, hnum.line.cons hb, rfl⟩, ⟨v, ?_, by omega, ?_⟩, rfl⟩
    · exact (parseInt64_numeral hnum.line).mpr ⟨hnum, hlen⟩
    · rwa [← List.append_assoc, List.drop_left' (by simp [crlf])]

theorem bulkData_eq_ok {p data : List UInt8} {n : Nat} :
    bulkData p = .ok data n ↔
      ∃ (e : BulkText) (x : List UInt8), p = e.text ++ x ∧ e.WellFormed ∧ e.len.length < 32 ∧
        data = e.data ∧ n = e.text.length := by
  unfold bulkData
  rw [Scanner.need_bind_eq_ok, Scanner.peek_bind_eq_ok]
  simp only [Scanner.ite_fail_eq_ok, not_not]
  constructor
  · rintro ⟨-, b, hb, rfl, h⟩
    obtain ⟨s, v, x, j, rfl, hnum, hlen, hmax, hk, rfl⟩ :=
      (numberLine_eq_ok (by decide) hb).mp h
    obtain ⟨d, i, _, htake, hpure, rfl⟩ := Scanner.bind_eq_ok.mp hk
    obtain ⟨hv, rfl, rfl⟩ := Scanner.take_eq_ok.mp htake
    cases hpure
    rw [Int.toNat_natCast] at hv
    have hd : (x.take v).length = v := List.length_take_of_le (by omega)
    refine ⟨⟨s, x.take v, (x.drop v).take 2⟩, x.drop (v + 2), ?_, ⟨?_, ?_, ?_⟩, hlen, ?_, ?_⟩
    · simp [BulkText.text, ← List.drop_drop]
    · rwa [hd]
    · rwa [hd]
    · simp
      omega
    · simp [List.take_take]
    · rw [BulkText.length_text]
      simp
      omega
  · rintro ⟨e, x, rfl, hwf, hlen, rfl, rfl⟩
    have hshape : e.text ++ x = (36 :: e.len) ++ (crlf ++ (e.data ++ e.tail ++ x)) := by
      simp [BulkText.text]
    refine ⟨by rw [List.length_append, BulkText.length_text]; simp; omega, 36, rfl, rfl, ?_⟩
    refine (numberLine_eq_ok (by decide) rfl).mpr
      ⟨e.len, e.data.length, _, _, hshape, hwf.len, hlen, hwf.max, ?_, e.length_text⟩
    have hlong : e.data.length + 2 = (e.data ++ e.tail).length := by rw [List.length_append, hwf.tail]
    refine Scanner.bind_eq_ok.mpr ⟨_, _, 0, Scanner.take_eq_ok.mpr ⟨?_, rfl, rfl⟩, ?_, ?_⟩
    · simp only [Int.toNat_natCast, List.length_append, hwf.tail]
      omega
    · rw [Int.toNat_natCast, hlong, List.take_left, List.take_left]
      rfl
    · rw [Int.toNat_natCast, hlong]

/-! ## A list of elements -/

/-- The command that a list of payloads makes. -/
def VcCmd.pushAll (cmd : VcCmd) (i : Nat) : List (List UInt8) → VcCmd
  | [] => cmd
  | a :: args => (cmd.push i a).pushAll (i + 1) args

theorem parseArgs_eq_ok {n i : Nat} {cmd cmd' : VcCmd} {p : List UInt8} {k : Nat} :
    parseArgs n i cmd p = .ok cmd' k ↔
      ∃ (elems : List BulkText) (x : List UInt8), elems.length = n ∧
        p = elems.flatMap BulkText.text ++ x ∧
        (∀ e ∈ elems, e.WellFormed ∧ e.len.length < 32) ∧
        cmd' = cmd.pushAll i (elems.map BulkText.data) ∧ k = (elems.flatMap BulkText.text).length := by
  induction n generalizing i cmd p k with
  | zero =>
    constructor
    · intro h
      cases h
      exact ⟨[], p, rfl, rfl, by simp, rfl, rfl⟩
    · rintro ⟨elems, x, hlen, -, -, rfl, rfl⟩
      rw [List.length_eq_zero_iff.mp hlen]
      rfl
  | succ n ih =>
    rw [parseArgs, Scanner.bind_eq_ok]
    constructor
    · rintro ⟨data, a, b, hdata, hrest, rfl⟩
      obtain ⟨e, y, rfl, hwf, hlen, rfl, rfl⟩ := bulkData_eq_ok.mp hdata
      rw [List.drop_left] at hrest
      obtain ⟨elems, x, rfl, rfl, hall, rfl, rfl⟩ := ih.mp hrest
      refine ⟨e :: elems, x, rfl, by simp, ?_, rfl, by simp⟩
      intro d hd
      obtain rfl | hd := List.mem_cons.mp hd
      · exact ⟨hwf, hlen⟩
      · exact hall d hd
    · rintro ⟨elems, x, hlen, rfl, hall, rfl, rfl⟩
      cases elems with
      | nil => cases hlen
      | cons e elems =>
        obtain ⟨hwf, hshort⟩ := hall e List.mem_cons_self
        refine ⟨e.data, e.text.length, (elems.flatMap BulkText.text).length, bulkData_eq_ok.mpr
          ⟨e, elems.flatMap BulkText.text ++ x, by simp, hwf, hshort, rfl, rfl⟩, ?_,
          by rw [List.flatMap_cons, List.length_append]⟩
        rw [List.flatMap_cons, List.append_assoc, List.drop_left]
        exact ih.mpr ⟨elems, x, Nat.succ.inj hlen, rfl,
          fun d hd => hall d (List.mem_cons_of_mem _ hd), rfl, rfl⟩

/-! ## The header -/

def arrayHeader : Scanner UInt8 Int := do
  .need 4
  let line ← crlfLine
  let argc ← .ofOption (parseInt64 (line.drop 1))
  if argc < 0 ∨ (vcMaxArgs : Int) < argc then .fail else .pure argc

theorem parseArray_eq :
    parseArray = (do
      let argc ← arrayHeader
      let cmd ← parseArgs argc.toNat 0 ⟨[], 0⟩
      .pure cmd.upper) := by
  unfold parseArray arrayHeader
  simp only [bind_assoc, Scanner.ite_fail_bind, Scanner.pure_then]

/-- The buffer starts with the header of an array of `n` elements, `n` written as `s`, and goes on
with `x`. -/
structure HeaderRead (b s : List UInt8) (n : Nat) (x : List UInt8) : Prop where
  text : b = (42 :: s) ++ (crlf ++ x)
  count : Numeral s n
  short : s.length < 32
  max : n ≤ vcMaxArgs

theorem arrayHeader_eq_ok {b : List UInt8} (hb : b.head? = some 42) {argc : Int} {k : Nat} :
    arrayHeader b = .ok argc k ↔
      ∃ (s : List UInt8) (n : Nat) (x : List UInt8), HeaderRead b s n x ∧ argc = n ∧
        k = (42 :: s).length + 2 := by
  unfold arrayHeader
  rw [Scanner.need_bind_eq_ok, numberLine_eq_ok (by decide) hb]
  constructor
  · rintro ⟨-, s, n, x, j, htext, hcount, hshort, hmax, hpure, rfl⟩
    cases hpure
    exact ⟨s, n, x, ⟨htext, hcount, hshort, hmax⟩, rfl, rfl⟩
  · rintro ⟨s, n, x, h, rfl, rfl⟩
    refine ⟨?_, s, n, x, 0, h.text, h.count, h.short, h.max, rfl, rfl⟩
    have hpos := List.length_pos_iff.mpr h.count.ne_nil
    rw [h.text]
    simp only [crlf, List.length_append, List.length_cons]
    omega

theorem HeaderRead.drop {b s : List UInt8} {n : Nat} {x : List UInt8} (h : HeaderRead b s n x) :
    b.drop ((42 :: s).length + 2) = x := by
  rw [h.text, ← List.append_assoc, List.drop_left' (by simp [crlf])]

theorem HeaderRead.unique {b s s' : List UInt8} {n n' : Nat} {x x' : List UInt8}
    (h : HeaderRead b s n x) (h' : HeaderRead b s' n' x') : s = s' ∧ n = n' ∧ x = x' := by
  obtain ⟨hs, hx⟩ := line_unique (h.text.symm.trans h'.text) (h.count.line.cons (by decide))
    (h'.count.line.cons (by decide))
  obtain rfl : s = s' := (List.cons.inj hs).2
  exact ⟨rfl, h.count.unique h'.count, hx⟩

/-! ## The array -/

structure ArrayText where
  count : List UInt8
  elems : List BulkText

namespace ArrayText

def text (a : ArrayText) : List UInt8 :=
  (42 :: a.count) ++ (crlf ++ a.elems.flatMap BulkText.text)

structure WellFormed (a : ArrayText) : Prop where
  count : Numeral a.count a.elems.length
  max : a.elems.length ≤ vcMaxArgs
  elems : ∀ e ∈ a.elems, e.WellFormed

/-- Every number fits in the buffer of `parse_int64`. -/
def Short (a : ArrayText) : Prop := a.count.length < 32 ∧ ∀ e ∈ a.elems, e.len.length < 32

/-- Digits only, and CR LF behind each element. -/
def Plain (a : ArrayText) : Prop :=
  (∀ b ∈ a.count, isDigit b = true) ∧ ∀ e ∈ a.elems, (∀ b ∈ e.len, isDigit b = true) ∧ e.tail = crlf

end ArrayText

theorem ArrayText.length_text (a : ArrayText) :
    a.text.length = (42 :: a.count).length + 2 + (a.elems.flatMap BulkText.text).length := by
  simp only [text, crlf, List.length_append, List.length_cons, List.length_nil]
  omega

theorem ArrayText.WellFormed.headerRead {a : ArrayText} (h : a.WellFormed) (hs : a.count.length < 32)
    (x : List UInt8) :
    HeaderRead (a.text ++ x) a.count a.elems.length (a.elems.flatMap BulkText.text ++ x) :=
  ⟨by simp [text], h.count, hs, h.max⟩

theorem parse_array_eq_ok {rest : List UInt8} {cmd : VcCmd} {n : Nat} :
    respParseCommand (42 :: rest) = .ok cmd n ↔
      ∃ (a : ArrayText) (x : List UInt8), 42 :: rest = a.text ++ x ∧ a.WellFormed ∧ a.Short ∧
        cmd = (VcCmd.pushAll ⟨[], 0⟩ 0 (a.elems.map BulkText.data)).upper ∧ n = a.text.length := by
  have harray : respParseCommand (42 :: rest) = parseArray (42 :: rest) := by
    rw [respParseCommand, Scanner.need_bind_of_le (by simp), Scanner.peek_bind_cons, if_neg (by simp)]
  rw [harray, parseArray_eq, Scanner.bind_eq_ok]
  simp only [Scanner.bind_eq_ok, arrayHeader_eq_ok (b := 42 :: rest) rfl]
  constructor
  · rintro ⟨_, _, _, ⟨s, v, y, hread, rfl, rfl⟩, ⟨c, i, j, hargs, hpure, rfl⟩, rfl⟩
    rw [hread.drop] at hargs
    obtain ⟨elems, x, hcount, rfl, hall, rfl, rfl⟩ := parseArgs_eq_ok.mp hargs
    cases hpure
    rw [Int.toNat_natCast] at hcount
    subst hcount
    refine ⟨⟨s, elems⟩, x, ?_, ⟨hread.count, hread.max, fun e he => (hall e he).1⟩,
      ⟨hread.short, fun e he => (hall e he).2⟩, rfl, ?_⟩
    · rw [hread.text]
      simp [ArrayText.text]
    · rw [ArrayText.length_text]
      rfl
  · rintro ⟨a, x, hrest, hwf, hshort, rfl, rfl⟩
    have hread := hwf.headerRead hshort.1 x
    rw [hrest]
    refine ⟨_, _, _, ⟨_, _, _, hread, rfl, rfl⟩, ⟨_, _, 0, ?_, rfl, rfl⟩, a.length_text⟩
    rw [hread.drop, Int.toNat_natCast]
    exact parseArgs_eq_ok.mpr
      ⟨a.elems, x, rfl, rfl, fun e he => ⟨hwf.elems e he, hshort.2 e he⟩, rfl, rfl⟩

/-! ## One reading

The numbers say where each part ends, so a buffer starts with at most one well formed array. -/

theorem BulkText.WellFormed.unique {e e' : BulkText} (h : e.WellFormed) (h' : e'.WellFormed)
    {x x' : List UInt8} (heq : e.text ++ x = e'.text ++ x') : e = e' ∧ x = x' := by
  simp only [text, List.append_assoc] at heq
  obtain ⟨hlen, hrest⟩ :=
    line_unique heq (h.len.line.cons (by decide)) (h'.len.line.cons (by decide))
  have hlen : e.len = e'.len := (List.cons.inj hlen).2
  have hnum : Numeral e.len e'.data.length := hlen ▸ h'.len
  obtain ⟨hdata, hrest⟩ := List.append_inj hrest (h.len.unique hnum)
  obtain ⟨htail, hx⟩ := List.append_inj hrest (h.tail.trans h'.tail.symm)
  refine ⟨?_, hx⟩
  cases e
  cases e'
  simp_all

theorem elems_unique {elems elems' : List BulkText} (h : ∀ e ∈ elems, e.WellFormed)
    (h' : ∀ e ∈ elems', e.WellFormed) (hlen : elems.length = elems'.length) {x x' : List UInt8}
    (heq : elems.flatMap BulkText.text ++ x = elems'.flatMap BulkText.text ++ x') :
    elems = elems' := by
  induction elems generalizing elems' with
  | nil => exact (List.length_eq_zero_iff.mp hlen.symm).symm
  | cons e elems ih =>
    cases elems' with
    | nil => cases hlen
    | cons e' elems' =>
      simp only [List.flatMap_cons, List.append_assoc] at heq
      obtain ⟨rfl, hrest⟩ := (h e List.mem_cons_self).unique (h' e' List.mem_cons_self) heq
      rw [ih (fun d hd => h d (List.mem_cons_of_mem _ hd))
        (fun d hd => h' d (List.mem_cons_of_mem _ hd)) (Nat.succ.inj hlen) hrest]

theorem ArrayText.WellFormed.unique {a a' : ArrayText} (h : a.WellFormed) (h' : a'.WellFormed)
    {b : List UInt8} (hb : a.text <+: b) (hb' : a'.text <+: b) : a = a' := by
  obtain ⟨x, rfl⟩ := hb
  obtain ⟨x', heq⟩ := hb'
  simp only [text, List.append_assoc] at heq
  obtain ⟨hcount, hrest⟩ :=
    line_unique heq.symm (h.count.line.cons (by decide)) (h'.count.line.cons (by decide))
  have hcount : a.count = a'.count := (List.cons.inj hcount).2
  have hnum : Numeral a.count a'.elems.length := hcount ▸ h'.count
  have helems := elems_unique h.elems h'.elems (h.count.unique hnum) hrest
  cases a
  cases a'
  simp_all

/-! ## The documented grammar -/

/-- The first `n` bytes are an array of at most 128 bulk strings of at most 65536 bytes each, with
the numbers in digits and CR LF behind each line and each string. -/
def InGrammar (b : List UInt8) (n : Nat) : Prop :=
  ∃ (count : List UInt8) (elems : List (List UInt8 × List UInt8)),
    DecimalOf count elems.length ∧ elems.length ≤ 128 ∧
    (∀ e ∈ elems, DecimalOf e.1 e.2.length ∧ e.2.length ≤ 65536) ∧
    n ≤ b.length ∧
    b.take n = [42] ++ count ++ crlf ++ elems.flatMap fun e => [36] ++ e.1 ++ crlf ++ e.2 ++ crlf

/-- The grammar takes the well formed arrays that are plain. -/
theorem inGrammar_iff {b : List UInt8} {n : Nat} :
    InGrammar b n ↔
      ∃ a : ArrayText, a.WellFormed ∧ a.Plain ∧ a.text <+: b ∧ n = a.text.length := by
  constructor
  · rintro ⟨count, elems, hcount, hmax, helems, hn, htake⟩
    let bulk : List UInt8 × List UInt8 → BulkText := fun e => ⟨e.1, e.2, crlf⟩
    let a : ArrayText := ⟨count, elems.map bulk⟩
    have htext : a.text = b.take n := by
      rw [htake]
      simp [a, bulk, ArrayText.text, BulkText.text, List.flatMap_map]
    refine ⟨a, ⟨?_, by simpa [a, vcMaxArgs] using hmax, ?_⟩, ⟨hcount.digits, ?_⟩, ?_, ?_⟩
    · have hnum := hcount.numeral (Nat.lt_of_le_of_lt hmax (by decide))
      simpa [a] using hnum
    · intro d hd
      obtain ⟨e, he, rfl⟩ := List.mem_map.mp hd
      obtain ⟨hlen, hle⟩ := helems e he
      exact ⟨hlen.numeral (Nat.lt_of_le_of_lt hle (by decide)), hle, rfl⟩
    · intro d hd
      obtain ⟨e, he, rfl⟩ := List.mem_map.mp hd
      exact ⟨(helems e he).1.digits, rfl⟩
    · rw [htext]
      exact List.take_prefix n b
    · rw [htext, List.length_take_of_le hn]
  · rintro ⟨a, hwf, hplain, hstart, rfl⟩
    refine ⟨a.count, a.elems.map fun e => (e.len, e.data), ?_, ?_, ?_, hstart.length_le, ?_⟩
    · rw [List.length_map]
      exact hwf.count.decimalOf hplain.1
    · rw [List.length_map]
      exact hwf.max
    · intro d hd
      obtain ⟨e, he, rfl⟩ := List.mem_map.mp hd
      exact ⟨(hwf.elems e he).len.decimalOf (hplain.2 e he).1, (hwf.elems e he).max⟩
    · rw [← List.prefix_iff_eq_take.mp hstart, ArrayText.text, List.flatMap_map]
      have htext : ∀ e ∈ a.elems, e.text = [36] ++ e.len ++ crlf ++ e.data ++ crlf := by
        intro e he
        rw [BulkText.text, (hplain.2 e he).2]
        simp
      rw [List.flatMap_congr htext]
      simp

/-- The parser takes exactly the documented arrays on the buffers whose array, if it has one,
either is plain, with no number of 32 digits or more, or is not plain and has such a number. -/
theorem array_grammar (rest : List UInt8) :
    (∀ n, (∃ cmd, respParseCommand (42 :: rest) = .ok cmd n) ↔ InGrammar (42 :: rest) n) ↔
      ∀ a : ArrayText, a.WellFormed → a.text <+: 42 :: rest → (a.Short ↔ a.Plain) := by
  have haccepts : ∀ n, (∃ cmd, respParseCommand (42 :: rest) = .ok cmd n) ↔
      ∃ a : ArrayText, a.WellFormed ∧ a.Short ∧ a.text <+: 42 :: rest ∧ n = a.text.length := by
    intro n
    constructor
    · rintro ⟨cmd, h⟩
      obtain ⟨a, x, hx, hwf, hshort, -, rfl⟩ := parse_array_eq_ok.mp h
      exact ⟨a, hwf, hshort, ⟨x, hx.symm⟩, rfl⟩
    · rintro ⟨a, hwf, hshort, ⟨x, hx⟩, rfl⟩
      exact ⟨_, parse_array_eq_ok.mpr ⟨a, x, hx.symm, hwf, hshort, rfl, rfl⟩⟩
  simp only [haccepts, inGrammar_iff]
  constructor
  · intro h a hwf hstart
    constructor
    · intro hshort
      obtain ⟨a', hwf', hplain, hstart', -⟩ := (h _).mp ⟨a, hwf, hshort, hstart, rfl⟩
      exact hwf.unique hwf' hstart hstart' ▸ hplain
    · intro hplain
      obtain ⟨a', hwf', hshort, hstart', -⟩ := (h _).mpr ⟨a, hwf, hplain, hstart, rfl⟩
      exact hwf.unique hwf' hstart hstart' ▸ hshort
  · intro h n
    constructor
    · rintro ⟨a, hwf, hshort, hstart, rfl⟩
      exact ⟨a, hwf, (h a hwf hstart).mp hshort, hstart, rfl⟩
    · rintro ⟨a, hwf, hplain, hstart, rfl⟩
      exact ⟨a, hwf, (h a hwf hstart).mpr hplain, hstart, rfl⟩

/-- One element of one byte, with two other bytes where CR LF belongs, is taken. -/
theorem unterminated_element_accepted :
    respParseCommand (str "*1\r\n$1\r\naXY") = .ok ⟨[⟨[65], 1⟩], 0⟩ 11 ∧
      ¬ InGrammar (str "*1\r\n$1\r\naXY") 11 := by
  have hdigit : DecimalOf (str "1") 1 := ⟨by decide +kernel, by decide +kernel, by decide +kernel⟩
  have hone : Numeral (str "1") 1 := hdigit.numeral (by decide)
  have hwf : ArrayText.WellFormed ⟨str "1", [⟨str "1", str "a", str "XY"⟩]⟩ := by
    refine ⟨hone, by decide, fun e he => ?_⟩
    cases List.mem_singleton.mp he
    exact ⟨hone, by decide +kernel, rfl⟩
  refine ⟨by decide +kernel, fun hin => ?_⟩
  obtain ⟨a, hwf', hplain, hstart, -⟩ := inGrammar_iff.mp hin
  obtain rfl := hwf.unique hwf' (by decide +kernel) hstart
  exact absurd (hplain.2 _ List.mem_cons_self).2 (by decide +kernel)

end VoidCache
