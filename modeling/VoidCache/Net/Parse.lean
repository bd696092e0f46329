import VoidCache.Lib.Bytes
import VoidCache.Lib.CText
import VoidCache.Lib.Scan

/-!
# Requests: the RESP parser of the server

`respParseCommand` is `resp_parse_command`: an inline line, or an array of bulk strings whose
arguments lose a leading type header and whose name is upper-cased. Allocation in the parser is
taken to succeed.
-/
namespace VoidCache

def vcMaxInlineArg : Nat := 65536
def vcMaxArgs : Nat := 128
def vcMaxCmdLen : Nat := 64

/-- `VC_WIRE_MAGIC`, the start of a typed payload. -/
def vcWireMagic : List UInt8 := str "*VC1"

def crlf : List UInt8 := [13, 10]

/-- One argument of a command: the bytes copied to `argv[i]`, without the zero after them,
and `argl[i]`. The two differ only for an inline word that holds a zero byte, which `strndup`
cuts. -/
structure Arg where
  str : List UInt8
  len : Nat
  deriving DecidableEq, Repr

def Arg.ofBytes (bs : List UInt8) : Arg := ⟨bs, bs.length⟩

structure VcCmd where
  argv : List Arg
  vcType : UInt8
  deriving DecidableEq, Repr

/-! ## Parsing -/

def findCrlf : List UInt8 → Option Nat
  | [] => none
  | b :: bs => if b = 13 ∧ bs.head? = some 10 then some 0 else (findCrlf bs).map (· + 1)

/-- `parse_int64` of the protocol: the whole line is the number. -/
def parseInt64 (line : List UInt8) : Option Int :=
  if line.length = 0 ∨ 32 ≤ line.length then none
  else
    let r := strtoll line
    if r.range ∨ r.stop ≠ line.length then none else some r.value

/-- The bytes before the next CR LF. -/
def crlfLine : Scanner UInt8 (List UInt8) := fun p =>
  match findCrlf p with
  | none => .more
  | some i => .ok (p.take i) (i + 2)

def isBlank (b : UInt8) : Bool := b = 32 ∨ b = 9

/-- The end of an inline line, and the width of what ends it: CR LF, or a bare LF. -/
def findEol : List UInt8 → Option (Nat × Nat)
  | [] => none
  | b :: bs =>
    if b = 13 ∧ bs.head? = some 10 then some (0, 2)
    else if b = 10 then some (0, 1)
    else (findEol bs).map fun e => (e.1 + 1, e.2)

def eolLine : Scanner UInt8 (List UInt8) := fun p =>
  match findEol p with
  | none => .more
  | some (i, skip) => .ok (p.take i) (i + skip)

/-- Split a line at blanks, into at most `n` words. -/
def splitInline : Nat → List UInt8 → List Arg
  | 0, _ => []
  | n + 1, s =>
    let s := s.dropWhile isBlank
    if s = [] then []
    else
      let word := s.takeWhile fun b => !isBlank b
      ⟨cstr word, word.length⟩ :: splitInline n (s.dropWhile fun b => !isBlank b)

def parseInline : Scanner UInt8 VcCmd := do
  let line ← eolLine
  let argv := splitInline vcMaxArgs line
  if argv = [] then .fail else .pure ⟨argv, 0⟩

/-- The data of one `$N` element; the two bytes after it are skipped unseen. -/
def bulkData : Scanner UInt8 (List UInt8) := do
  .need 3
  let b ← .peek
  if b ≠ 36 then .fail
  else do
    let line ← crlfLine
    let blen ← .ofOption (parseInt64 (line.drop 1))
    if blen < 0 ∨ (vcMaxInlineArg : Int) < blen then .fail
    else do
      let data ← .take (blen.toNat + 2)
      .pure (data.take blen.toNat)

def hasTypeHeader (payload : List UInt8) : Bool :=
  vcWireMagic.length < payload.length && payload.take vcWireMagic.length == vcWireMagic

def stripTypeHeader (payload : List UInt8) : List UInt8 :=
  if hasTypeHeader payload then payload.drop (vcWireMagic.length + 1) else payload

/-- Add element `i`. Its type is kept only for `i = 1`. -/
def VcCmd.push (cmd : VcCmd) (i : Nat) (payload : List UInt8) : VcCmd where
  argv := cmd.argv ++ [.ofBytes (stripTypeHeader payload)]
  vcType := if hasTypeHeader payload ∧ i = 1 then payload.getD vcWireMagic.length 0 else cmd.vcType

/-- Elements `i`, `i + 1`, …, `n` of them. -/
def parseArgs : Nat → Nat → VcCmd → Scanner UInt8 VcCmd
  | 0, _, cmd => .pure cmd
  | n + 1, i, cmd => do
    let payload ← bulkData
    parseArgs n (i + 1) (cmd.push i payload)

def upperName (name : List UInt8) : List UInt8 :=
  (name.take vcMaxCmdLen).map toUpper ++ name.drop vcMaxCmdLen

def VcCmd.upper (cmd : VcCmd) : VcCmd :=
  match cmd.argv with
  | [] => cmd
  | name :: args => { cmd with argv := { name with str := upperName name.str } :: args }

def parseArray : Scanner UInt8 VcCmd := do
  .need 4
  let line ← crlfLine
  let argc ← .ofOption (parseInt64 (line.drop 1))
  if argc < 0 ∨ (vcMaxArgs : Int) < argc then .fail
  else do
    let cmd ← parseArgs argc.toNat 0 ⟨[], 0⟩
    .pure cmd.upper

def respParseCommand : Scanner UInt8 VcCmd := do
  .need 1
  let b ← .peek
  if b ≠ 42 then parseInline else parseArray

/-! ## Verdicts are final -/

theorem findCrlf_append {p : List UInt8} {i : Nat} (h : findCrlf p = some i) (x : List UInt8) :
    findCrlf (p ++ x) = some i ∧ i + 2 ≤ p.length := by
  induction p generalizing i with
  | nil => cases h
  | cons b bs ih =>
    rw [List.cons_append]
    unfold findCrlf at h ⊢
    split at h
    · rename_i hb
      obtain ⟨c, cs, rfl⟩ : ∃ c cs, bs = c :: cs := by
        cases bs with
        | nil => simp at hb
        | cons c cs => exact ⟨c, cs, rfl⟩
      cases h
      refine ⟨if_pos (by simpa using hb), by simp⟩
    · rename_i hb
      obtain ⟨j, hj, rfl⟩ := Option.map_eq_some_iff.mp h
      have hbs : bs ≠ [] := by rintro rfl; cases hj
      obtain ⟨h1, h2⟩ := ih hj
      refine ⟨?_, by rw [List.length_cons]; omega⟩
      rw [if_neg (by simpa [List.head?_append_of_ne_nil _ hbs] using hb), h1]
      rfl

theorem crlfLine_incremental : crlfLine.Incremental where
  ok_append {p a n} h x := by
    unfold crlfLine at h ⊢
    cases hp : findCrlf p with
    | none => simp [hp] at h
    | some i =>
      obtain ⟨h1, h2⟩ := findCrlf_append hp x
      rw [hp] at h
      rw [h1, ← h]
      simp only [List.take_append_of_le_length (show i ≤ p.length by omega)]
  err_append {p} h x := by
    unfold crlfLine at h
    split at h <;> cases h
  used_le {p a n} h := by
    unfold crlfLine at h
    cases hp : findCrlf p with
    | none => simp [hp] at h
    | some i =>
      rw [hp] at h
      cases h
      exact (findCrlf_append hp []).2

theorem findEol_append {p : List UInt8} {i skip : Nat} (h : findEol p = some (i, skip))
    (x : List UInt8) : findEol (p ++ x) = some (i, skip) ∧ i + skip ≤ p.length ∧ 0 < skip := by
  induction p generalizing i with
  | nil => cases h
  | cons b bs ih =>
    rw [List.cons_append]
    unfold findEol at h ⊢
    split at h
    · rename_i hb
      cases bs with
      | nil => simp at hb
      | cons c cs =>
        cases h
        exact ⟨if_pos (by simpa using hb), by simp, by simp⟩
    · rename_i hb
      split at h
      · rename_i hlf
        cases h
        refine ⟨?_, by simp, by simp⟩
        rw [if_neg (by rintro ⟨rfl, -⟩; cases hlf), if_pos hlf]
      · rename_i hlf
        obtain ⟨⟨j, s⟩, hj, he⟩ := Option.map_eq_some_iff.mp h
        cases he
        have hbs : bs ≠ [] := by rintro rfl; cases hj
        obtain ⟨h1, h2, h3⟩ := ih hj
        refine ⟨?_, by rw [List.length_cons]; omega, h3⟩
        rw [if_neg (by simpa [List.head?_append_of_ne_nil _ hbs] using hb), if_neg hlf, h1]
        rfl

theorem eolLine_incremental : eolLine.Incremental where
  ok_append {p a n} h x := by
    unfold eolLine at h ⊢
    cases hp : findEol p with
    | none => simp [hp] at h
    | some e =>
      obtain ⟨h1, h2, -⟩ := findEol_append hp x
      rw [hp] at h
      rw [h1, ← h]
      simp only [List.take_append_of_le_length (show e.1 ≤ p.length by omega)]
  err_append {p} h x := by
    unfold eolLine at h
    split at h <;> cases h
  used_le {p a n} h := by
    unfold eolLine at h
    cases hp : findEol p with
    | none => simp [hp] at h
    | some e =>
      rw [hp] at h
      cases h
      exact (findEol_append hp []).2.1

theorem parseInline_incremental : parseInline.Incremental := by
  refine .bind eolLine_incremental fun line => ?_
  exact .ite .fail (.pure _)

theorem bulkData_incremental : bulkData.Incremental := by
  refine .bind (.need 3) fun _ => .bind .peek fun b => .ite .fail ?_
  refine .bind crlfLine_incremental fun line => .bind (.ofOption _) fun blen => .ite .fail ?_
  exact .bind (.take _) fun data => .pure _

theorem parseArgs_incremental (n i : Nat) (cmd : VcCmd) : (parseArgs n i cmd).Incremental := by
  induction n generalizing i cmd with
  | zero => exact .pure cmd
  | succ n ih => exact .bind bulkData_incremental fun payload => ih _ _

theorem parseArray_incremental : parseArray.Incremental := by
  refine .bind (.need 4) fun _ => .bind crlfLine_incremental fun line => ?_
  refine .bind (.ofOption _) fun argc => .ite .fail ?_
  exact .bind (parseArgs_incremental _ _ _) fun cmd => .pure _

theorem respParseCommand_incremental : respParseCommand.Incremental := by
  refine .bind (.need 1) fun _ => .bind .peek fun b => ?_
  exact .ite parseInline_incremental parseArray_incremental

/-- Every command takes something out of the buffer: the line ends are used up. -/
theorem used_pos {p : List UInt8} {cmd : VcCmd} {n : Nat}
    (h : respParseCommand p = .ok cmd n) : 0 < n := by
  obtain ⟨_, i, j, -, hj, rfl⟩ := Scanner.bind_eq_ok.mp h
  obtain ⟨b, k, l, -, hl, rfl⟩ := Scanner.bind_eq_ok.mp hj
  split at hl
  · obtain ⟨line, u, v, hu, -, rfl⟩ := Scanner.bind_eq_ok.mp hl
    unfold eolLine at hu
    split at hu
    · cases hu
    · rename_i he
      cases hu
      have := (findEol_append he []).2.2
      omega
  · obtain ⟨_, u, v, -, hv, rfl⟩ := Scanner.bind_eq_ok.mp hl
    obtain ⟨line, s, t, hs, -, rfl⟩ := Scanner.bind_eq_ok.mp hv
    unfold crlfLine at hs
    split at hs
    · cases hs
    · cases hs
      omega

/-! ## Lines -/

/-- The line holds no CR LF pair. -/
def NoCrlf (s : List UInt8) : Prop := ¬ crlf <:+: s

instance (s : List UInt8) : Decidable (NoCrlf s) := inferInstanceAs (Decidable (¬ _))

theorem noCrlf_of_plain {s : List UInt8} (h : ∀ b ∈ s, b ≠ 13) : NoCrlf s := fun hs =>
  h 13 (hs.subset (by decide)) rfl

theorem NoCrlf.cons {s : List UInt8} {c : UInt8} (h : NoCrlf s) (hc : c ≠ 13) : NoCrlf (c :: s) := by
  intro hs
  rcases List.infix_cons_iff.mp hs with hp | hp
  · obtain ⟨t, ht⟩ := hp
    exact hc (List.cons.inj ht).1.symm
  · exact h hp

/-- The first pair is the one behind a line that holds none. -/
theorem findCrlf_line {line : List UInt8} (h : NoCrlf line) (x : List UInt8) :
    findCrlf (line ++ (crlf ++ x)) = some line.length := by
  induction line with
  | nil => simp [findCrlf, crlf]
  | cons b line ih =>
    have htail : NoCrlf line := fun hs => h (hs.trans (List.suffix_cons b line).isInfix)
    have hb : ¬ (b = 13 ∧ (line ++ (crlf ++ x)).head? = some 10) := by
      rintro ⟨rfl, hnext⟩
      cases line with
      | nil => cases hnext
      | cons c line =>
        obtain rfl : c = 10 := by simpa using hnext
        exact h ⟨[], line, rfl⟩
    rw [List.cons_append, findCrlf, if_neg hb, ih htail]
    rfl

theorem findCrlf_eq_some {p : List UInt8} {i : Nat} (h : findCrlf p = some i) :
    ∃ line x, p = line ++ (crlf ++ x) ∧ line.length = i ∧ NoCrlf line := by
  induction p generalizing i with
  | nil => cases h
  | cons b p ih =>
    unfold findCrlf at h
    split_ifs at h with hb
    · cases h
      obtain ⟨rfl, hnext⟩ := hb
      cases p with
      | nil => cases hnext
      | cons c p =>
        obtain rfl : c = 10 := by simpa using hnext
        exact ⟨[], p, rfl, rfl, by decide⟩
    · obtain ⟨j, hj, rfl⟩ := Option.map_eq_some_iff.mp h
      obtain ⟨line, x, rfl, rfl, hline⟩ := ih hj
      refine ⟨b :: line, x, rfl, rfl, fun hs => ?_⟩
      rcases List.infix_cons_iff.mp hs with hstart | hin
      · -- the pair would start at `b`
        obtain ⟨t, ht⟩ := hstart
        obtain ⟨rfl, rfl⟩ := List.cons.inj ht
        exact hb ⟨rfl, rfl⟩
      · exact hline hin

theorem crlfLine_eq_ok {p line : List UInt8} {n : Nat} :
    crlfLine p = .ok line n ↔ ∃ x, p = line ++ (crlf ++ x) ∧ NoCrlf line ∧ n = line.length + 2 := by
  unfold crlfLine
  constructor
  · intro h
    cases hp : findCrlf p with
    | none => simp [hp] at h
    | some i =>
      obtain ⟨l, x, rfl, rfl, hl⟩ := findCrlf_eq_some hp
      rw [hp] at h
      simp only [Scan.ok.injEq, List.take_left] at h
      obtain ⟨rfl, rfl⟩ := h
      exact ⟨x, rfl, hl, rfl⟩
  · rintro ⟨x, rfl, hl, rfl⟩
    simp [findCrlf_line hl]

/-- The first CR LF is where a line ends, whatever follows. -/
theorem line_unique {s s' x x' : List UInt8} (h : s ++ (crlf ++ x) = s' ++ (crlf ++ x'))
    (hs : NoCrlf s) (hs' : NoCrlf s') : s = s' ∧ x = x' := by
  have hline : crlfLine (s ++ (crlf ++ x)) = .ok s (s.length + 2) :=
    crlfLine_eq_ok.mpr ⟨x, rfl, hs, rfl⟩
  have hline' : crlfLine (s ++ (crlf ++ x)) = .ok s' (s'.length + 2) :=
    crlfLine_eq_ok.mpr ⟨x', h, hs', rfl⟩
  rw [hline] at hline'
  obtain rfl : s = s' := (Scan.ok.inj hline').1
  exact ⟨rfl, List.append_cancel_left (List.append_cancel_left h)⟩

theorem cr_notMem_decimal {c : UInt8} (hc : c ≠ 13) (n : Nat) : ∀ b ∈ c :: decimal n, b ≠ 13 := by
  intro b hb
  obtain rfl | hb := List.mem_cons.mp hb
  · exact hc
  · exact (isDigit_plain (isDigit_of_mem_decimal hb)).2.2.2.1

end VoidCache
