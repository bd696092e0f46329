import Mathlib.Data.List.Forall2
import VoidCache.Lib.Words
import VoidCache.Net.Grammar

/-!
# The arguments a request leaves

What `resp_parse_command` leaves in the command record. On an inline line it is one argument for
each of the first 128 words, copied by `strndup`, and `inline_arguments` says when these are the
words that were sent. `respParseRecord` is the parser with the record itself and with allocations
that may fail; `nothing_left_behind` says which calls leave no argument that nobody frees.
-/
namespace VoidCache

/-! ## Words of a line -/

/-- The maximal runs of bytes other than space and tab. -/
def runs (line : List UInt8) : List (List UInt8) :=
  (line.splitOnP fun b => b = 32 ∨ b = 9).filter (· ≠ [])

theorem runs_eq_words (line : List UInt8) : runs line = words isBlank line := by
  rw [runs, words]
  refine List.filter_congr fun w _ => ?_
  cases w <;> rfl

theorem splitInline_eq (n : Nat) (s : List UInt8) :
    splitInline n s = ((runs s).take n).map fun r => ⟨cstr r, r.length⟩ := by
  rw [runs_eq_words]
  induction n generalizing s with
  | zero => rfl
  | succ n ih =>
    rw [splitInline, ← words_dropWhile s]
    cases hs : s.dropWhile isBlank with
    | nil => rfl
    | cons b t =>
      simp only [if_neg (List.cons_ne_nil b t)]
      rw [ih, words_word (not_sep_of_dropWhile hs)]
      rfl

/-! ## The first line -/

/-- The bytes before the first LF, and before the CR in front of it if there is one. -/
def firstLine (b : List UInt8) : List UInt8 :=
  let line := b.takeWhile (· ≠ 10)
  if line.getLast? = some 13 then line.dropLast else line

theorem firstLine_cons {b : UInt8} {bs : List UInt8} (hb : b ≠ 10)
    (hcr : ¬ (b = 13 ∧ bs.head? = some 10)) (hbs : bs ≠ []) :
    firstLine (b :: bs) = b :: firstLine bs := by
  have hline : (b :: bs).takeWhile (· ≠ 10) = b :: bs.takeWhile (· ≠ 10) :=
    List.takeWhile_cons_of_pos (by simpa using hb)
  simp only [firstLine, hline]
  cases bs with
  | nil => exact absurd rfl hbs
  | cons c bs =>
    by_cases hc : c = 10
    · subst hc
      have hb13 : b ≠ 13 := fun h => hcr ⟨h, rfl⟩
      simp [hb13]
    · have hnext : (c :: bs).takeWhile (· ≠ 10) = c :: bs.takeWhile (· ≠ 10) :=
        List.takeWhile_cons_of_pos (by simpa using hc)
      rw [hnext, List.getLast?_cons_cons]
      split_ifs <;> rfl

theorem findEol_firstLine {b : List UInt8} {i skip : Nat} (h : findEol b = some (i, skip)) :
    b.take i = firstLine b := by
  induction b generalizing i with
  | nil => cases h
  | cons c bs ih =>
    unfold findEol at h
    split_ifs at h with hcr hlf
    · obtain ⟨rfl, hnext⟩ := hcr
      cases h
      cases bs with
      | nil => cases hnext
      | cons d bs =>
        obtain rfl : d = 10 := by simpa using hnext
        rfl
    · cases h
      subst hlf
      rfl
    · obtain ⟨⟨j, k⟩, hj, he⟩ := Option.map_eq_some_iff.mp h
      cases he
      have hbs : bs ≠ [] := by
        rintro rfl
        cases hj
      rw [firstLine_cons hlf hcr hbs, List.take_succ_cons, ih hj]

theorem parse_inline_eq_ok {b : List UInt8} {cmd : VcCmd} {n : Nat} (hb : b.head? ≠ some 42)
    (h : respParseCommand b = .ok cmd n) :
    cmd.argv = ((runs (firstLine b)).take vcMaxArgs).map fun r => ⟨cstr r, r.length⟩ := by
  unfold respParseCommand at h
  rw [Scanner.need_bind_eq_ok, Scanner.peek_bind_eq_ok] at h
  obtain ⟨-, c, hc, h⟩ := h
  rw [if_pos (by rintro rfl; exact hb hc)] at h
  unfold parseInline at h
  obtain ⟨line, i, j, hline, hrest, rfl⟩ := Scanner.bind_eq_ok.mp h
  have hfirst : line = firstLine b := by
    unfold eolLine at hline
    split at hline
    · cases hline
    · rename_i hfind
      cases hline
      exact findEol_firstLine hfind
  obtain ⟨-, hpure⟩ := Scanner.ite_fail_eq_ok.mp hrest
  cases hpure
  rw [splitInline_eq, hfirst]

/-! ## The copies -/

/-- The allocated bytes of the argument, the zero at their end included, start with `r`, and `r`
is as long as `argl` says. -/
def Arg.Holds (a : Arg) (r : List UInt8) : Prop := a.len = r.length ∧ r <+: a.str ++ [0]

theorem holds_strndup {r : List UInt8} : Arg.Holds ⟨cstr r, r.length⟩ r ↔ 0 ∉ r.dropLast := by
  by_cases hr : (0 : UInt8) ∈ r
  · obtain ⟨u, v, rfl, hu⟩ := List.eq_append_cons_of_mem hr
    rw [Arg.Holds, cstr_append_zero hu]
    cases v with
    | nil => simp [hu]
    | cons c v =>
      -- the copy ends at the zero, before the end of the word
      have hshort : ¬ u ++ 0 :: c :: v <+: u ++ [0] := fun hp => by simpa using hp.length_le
      simp [hshort, List.dropLast_append_of_ne_nil]
  · have hsub : (0 : UInt8) ∉ r.dropLast := fun h => hr (List.dropLast_subset r h)
    simp only [Arg.Holds, cstr_eq_self hr, List.prefix_append, hsub, true_and, not_false_iff]

/-- The arguments of an inline request are the words of its first line exactly when there are at
most 128 of them and none holds a zero byte before its last byte. -/
theorem inline_arguments {b : List UInt8} {cmd : VcCmd} {n : Nat} (hb : b.head? ≠ some 42)
    (h : respParseCommand b = .ok cmd n) :
    List.Forall₂ Arg.Holds cmd.argv (runs (firstLine b)) ↔
      (runs (firstLine b)).length ≤ 128 ∧ ∀ r ∈ runs (firstLine b), 0 ∉ r.dropLast := by
  rw [parse_inline_eq_ok hb h]
  constructor
  · intro hall
    have hlen : (runs (firstLine b)).length ≤ vcMaxArgs := by
      have := hall.length_eq
      simp only [List.length_map, List.length_take] at this
      omega
    rw [List.take_of_length_le hlen, List.forall₂_map_left_iff, List.forall₂_same] at hall
    exact ⟨hlen, fun r hr => holds_strndup.mp (hall r hr)⟩
  · rintro ⟨hlen, hall⟩
    change _ ≤ vcMaxArgs at hlen
    rw [List.take_of_length_le hlen, List.forall₂_map_left_iff, List.forall₂_same]
    exact fun r hr => holds_strndup.mpr (hall r hr)

theorem inline_arguments_set :
    List.Forall₂ Arg.Holds [⟨str "SET", 3⟩, ⟨str "k", 1⟩, ⟨str "v", 1⟩]
      (runs (firstLine (str "SET\tk  v\r\n"))) :=
  (@inline_arguments (str "SET\tk  v\r\n") ⟨[⟨str "SET", 3⟩, ⟨str "k", 1⟩, ⟨str "v", 1⟩], 0⟩ 10
    (by decide +kernel) (by decide +kernel)).mpr ⟨by decide +kernel, by decide +kernel⟩

/-- The word `a\0b` is copied up to its zero byte, and recorded with three bytes. -/
theorem zero_byte_cuts_word :
    respParseCommand (str "GET a\x00b\r\n") = .ok ⟨[⟨str "GET", 3⟩, ⟨str "a", 3⟩], 0⟩ 9 ∧
      ¬ List.Forall₂ Arg.Holds [⟨str "GET", 3⟩, ⟨str "a", 3⟩]
        (runs (firstLine (str "GET a\x00b\r\n"))) := by
  have hruns : runs (firstLine (str "GET a\x00b\r\n")) = [str "GET", str "a\x00b"] := by decide +kernel
  refine ⟨by decide +kernel, fun h => ?_⟩
  rw [hruns] at h
  obtain ⟨-, hholds⟩ := ((List.forall₂_cons.mp h).2 |> List.forall₂_cons.mp).1
  exact absurd hholds (by decide +kernel)

/-! ## The record and its allocations

The parser once more, with the record it fills in and with allocations that may fail: `alloc i`
says whether argument `i` is allocated. -/

/-- `vc_cmd_t` as the parser leaves it: what it stored in `argv`, from `argv[0]` on, with `none`
for a null pointer. The pointers behind these are null. -/
structure CmdRec where
  argv : List (Option Arg)
  argc : Nat
  vcType : UInt8
  deriving DecidableEq, Repr

namespace CmdRec

def zero : CmdRec := ⟨[], 0, 0⟩

def noteType (cmd : CmdRec) (i : Nat) (payload : List UInt8) : CmdRec :=
  { cmd with
    vcType := if hasTypeHeader payload ∧ i = 1 then payload.getD vcWireMagic.length 0 else cmd.vcType }

def store (cmd : CmdRec) (a : Option Arg) : CmdRec := { cmd with argv := cmd.argv ++ [a] }

def upper (cmd : CmdRec) : CmdRec :=
  match cmd.argv with
  | some name :: args => { cmd with argv := some { name with str := upperName name.str } :: args }
  | _ => cmd

@[simp] theorem length_argv_upper (cmd : CmdRec) : cmd.upper.argv.length = cmd.argv.length := by
  unfold upper
  split <;> simp_all

@[simp] theorem argc_upper (cmd : CmdRec) : cmd.upper.argc = cmd.argc := by
  unfold upper
  split <;> rfl

/-- Every pointer that is not null is one of the first `argc`. -/
def Owned (cmd : CmdRec) : Prop := ∀ j a, cmd.argv[j]? = some (some a) → j < cmd.argc

end CmdRec

def vcCmdFree (cmd : CmdRec) : CmdRec :=
  { cmd with argv := cmd.argv.mapIdx fun i a => if i < cmd.argc then none else a, argc := 0 }

/-- The argument loop, from element `i` on. `argc` is still 0, so that `vc_cmd_free` in the
middle of it frees nothing. -/
def fillArgs (alloc : Nat → Bool) : Nat → Nat → CmdRec → List UInt8 → Scan Unit × CmdRec
  | 0, _, cmd, _ => (.ok () 0, cmd)
  | n + 1, i, cmd, p =>
    match bulkData p with
    | .more => (.more, cmd)
    | .err => (.err, cmd)
    | .ok payload k =>
      let cmd := cmd.noteType i payload
      if alloc i then
        let r := fillArgs alloc n (i + 1) (cmd.store (some (.ofBytes (stripTypeHeader payload)))) (p.drop k)
        (r.1.advance k, r.2)
      else (.err, vcCmdFree (cmd.store none))

def fillArray (alloc : Nat → Bool) (b : List UInt8) : Scan Unit × CmdRec :=
  match arrayHeader b with
  | .more => (.more, .zero)
  | .err => (.err, .zero)
  | .ok argc n =>
    let r := fillArgs alloc argc.toNat 0 .zero (b.drop n)
    match r.1 with
    | .ok () m => (.ok () (n + m), CmdRec.upper { r.2 with argc := argc.toNat })
    | _ => r

/-- A word that `strndup` could not copy is left null and counted all the same. -/
def fillInline (alloc : Nat → Bool) (b : List UInt8) : Scan Unit × CmdRec :=
  match eolLine b with
  | .more => (.more, .zero)
  | .err => (.err, .zero)
  | .ok line n =>
    let words := splitInline vcMaxArgs line
    (if words = [] then .err else .ok () n,
      ⟨words.mapIdx fun i w => if alloc i then some w else none, words.length, 0⟩)

/-- `resp_parse_command` on a record of zeros. -/
def respParseRecord (alloc : Nat → Bool) (b : List UInt8) : Scan Unit × CmdRec :=
  if b = [] then (.more, .zero)
  else if b.head? ≠ some 42 then fillInline alloc b
  else fillArray alloc b

/-! ### What is stored -/

theorem vcCmdFree_of_argc {cmd : CmdRec} (h : cmd.argc = 0) : vcCmdFree cmd = cmd := by
  obtain ⟨argv, argc, vcType⟩ := cmd
  subst h
  have hargv : argv.mapIdx (fun _ a => a) = argv := List.ext_getElem (by simp) (by simp)
  simp [vcCmdFree, hargv]

/-- A record is owned when freeing it leaves no pointer. -/
theorem CmdRec.owned_iff_freed {cmd : CmdRec} :
    cmd.Owned ↔ ∀ a, some a ∉ (vcCmdFree cmd).argv := by
  constructor
  · intro h a ha
    obtain ⟨j, hj, heq⟩ := List.mem_iff_getElem.mp ha
    simp only [vcCmdFree, List.getElem_mapIdx] at heq
    simp only [vcCmdFree, List.length_mapIdx] at hj
    split_ifs at heq with hlt
    exact hlt (h j a (List.getElem?_eq_some_iff.mpr ⟨hj, heq⟩))
  · intro h j a hj
    by_contra hlt
    refine h a (List.mem_iff_getElem?.mpr ⟨j, ?_⟩)
    simp [vcCmdFree, hj, hlt]

theorem CmdRec.owned_of_argc {cmd : CmdRec} (h : cmd.argc = 0) :
    cmd.Owned ↔ ∀ a, some a ∉ cmd.argv := by
  rw [owned_iff_freed, vcCmdFree_of_argc h]

theorem CmdRec.owned_of_length {cmd : CmdRec} (h : cmd.argv.length = cmd.argc) : cmd.Owned := by
  intro j a hj
  rw [← h]
  exact (List.getElem?_eq_some_iff.mp hj).1

/-- The loop only adds to the record, and counts nothing before it is done. -/
theorem fillArgs_adds (alloc : Nat → Bool) (n i : Nat) (cmd : CmdRec) (h : cmd.argc = 0)
    (p : List UInt8) :
    ∃ added, (fillArgs alloc n i cmd p).2.argv = cmd.argv ++ added ∧
      (fillArgs alloc n i cmd p).2.argc = 0 ∧
      ∀ k, (fillArgs alloc n i cmd p).1 = .ok () k → added.length = n := by
  induction n generalizing i cmd p with
  | zero => exact ⟨[], by simp [fillArgs], h, fun _ _ => rfl⟩
  | succ n ih =>
    unfold fillArgs
    cases bulkData p with
    | more => exact ⟨[], by simp, h, by simp⟩
    | err => exact ⟨[], by simp, h, by simp⟩
    | ok payload k =>
      cases alloc i with
      | false =>
        have hargc : ((cmd.noteType i payload).store none).argc = 0 := h
        simp only [vcCmdFree_of_argc hargc]
        exact ⟨[none], rfl, h, by simp⟩
      | true =>
        let a : Arg := .ofBytes (stripTypeHeader payload)
        have hargc : ((cmd.noteType i payload).store (some a)).argc = 0 := h
        obtain ⟨added, hargv, hzero, hlen⟩ := ih (i + 1) _ hargc (p.drop k)
        refine ⟨some a :: added, ?_, hzero, fun m hm => ?_⟩
        · simp only [if_true]
          rw [hargv]
          simp [CmdRec.store, CmdRec.noteType]
        · obtain ⟨j, hj, -⟩ := Scan.advance_eq_ok.mp hm
          rw [List.length_cons, hlen j hj]

theorem fillArgs_alloc {alloc : Nat → Bool} {n i : Nat} {cmd : CmdRec} {p : List UInt8} {k : Nat}
    (h : (fillArgs alloc n i cmd p).1 = .ok () k) : ∀ j < n, alloc (i + j) = true := by
  induction n generalizing i cmd p k with
  | zero => simp
  | succ n ih =>
    unfold fillArgs at h
    cases hb : bulkData p with
    | more => simp [hb] at h
    | err => simp [hb] at h
    | ok payload m =>
      cases ha : alloc i with
      | false => simp [hb, ha] at h
      | true =>
        simp only [hb, ha, if_true] at h
        obtain ⟨l, hl, -⟩ := Scan.advance_eq_ok.mp h
        intro j hj
        cases j with
        | zero => exact ha
        | succ j =>
          have hnext := ih hl j (by omega)
          rwa [Nat.add_right_comm] at hnext

/-- While its allocations succeed, the loop is the one of the parser. -/
theorem fillArgs_parseArgs {alloc : Nat → Bool} {n i : Nat} (halloc : ∀ j < n, alloc (i + j) = true)
    (c : VcCmd) (p : List UInt8) :
    (fillArgs alloc n i ⟨c.argv.map some, 0, c.vcType⟩ p).1 = (parseArgs n i c p).forget ∧
      ∀ c' k, parseArgs n i c p = .ok c' k →
        (fillArgs alloc n i ⟨c.argv.map some, 0, c.vcType⟩ p).2 =
          ⟨c'.argv.map some, 0, c'.vcType⟩ := by
  induction n generalizing i c p with
  | zero =>
    refine ⟨rfl, fun c' k h => ?_⟩
    cases h
    rfl
  | succ n ih =>
    have hnext : ∀ j < n, alloc (i + 1 + j) = true := by
      intro j hj
      rw [Nat.add_right_comm]
      exact halloc (j + 1) (by omega)
    rw [parseArgs]
    show _ = (Scanner.bind bulkData _ p).forget ∧ ∀ c' k, Scanner.bind bulkData _ p = _ → _
    unfold fillArgs Scanner.bind
    cases bulkData p with
    | more => exact ⟨rfl, by simp⟩
    | err => exact ⟨rfl, by simp⟩
    | ok payload m =>
      obtain ⟨hverdict, hrec⟩ := ih hnext (c.push i payload) (p.drop m)
      have hstore : (CmdRec.noteType ⟨c.argv.map some, 0, c.vcType⟩ i payload).store
          (some (.ofBytes (stripTypeHeader payload))) =
          ⟨(c.push i payload).argv.map some, 0, (c.push i payload).vcType⟩ := by
        simp [CmdRec.store, CmdRec.noteType, VcCmd.push]
      simp only [show alloc i = true from halloc 0 (by omega), if_true, hstore]
      constructor
      · rw [hverdict]
        cases parseArgs n (i + 1) (c.push i payload) (p.drop m) <;> rfl
      · intro c' k h
        cases hp : parseArgs n (i + 1) (c.push i payload) (p.drop m) with
        | more => simp [hp] at h
        | err => simp [hp] at h
        | ok c'' l =>
          simp only [hp, Scan.ok.injEq] at h
          exact hrec c' l (by rw [hp, h.1])

theorem fillArgs_zero {alloc : Nat → Bool} {n : Nat} (halloc : ∀ j < n, alloc j = true)
    (p : List UInt8) :
    (fillArgs alloc n 0 .zero p).1 = (parseArgs n 0 ⟨[], 0⟩ p).forget ∧
      ∀ c k, parseArgs n 0 ⟨[], 0⟩ p = .ok c k →
        (fillArgs alloc n 0 .zero p).2 = ⟨c.argv.map some, 0, c.vcType⟩ :=
  fillArgs_parseArgs (by simpa using halloc) ⟨[], 0⟩ p

/-! ### The parser without the record -/

def CmdRec.full (cmd : VcCmd) : CmdRec := ⟨cmd.argv.map some, cmd.argv.length, cmd.vcType⟩

theorem CmdRec.full_upper (cmd : VcCmd) : (full cmd).upper = full cmd.upper := by
  obtain ⟨argv, vcType⟩ := cmd
  cases argv <;> rfl

theorem length_argv_parseArgs {n i : Nat} {c c' : VcCmd} {p : List UInt8} {k : Nat}
    (h : parseArgs n i c p = .ok c' k) : c'.argv.length = c.argv.length + n := by
  induction n generalizing i c p k with
  | zero =>
    cases h
    rfl
  | succ n ih =>
    obtain ⟨payload, a, b, -, hrest, -⟩ := Scanner.bind_eq_ok.mp h
    rw [ih hrest, VcCmd.push, List.length_append, List.length_singleton]
    omega

theorem fillArray_parseArray {alloc : Nat → Bool} (halloc : ∀ i, alloc i = true) (b : List UInt8) :
    (fillArray alloc b).1 = (parseArray b).forget ∧
      ∀ cmd n, parseArray b = .ok cmd n → (fillArray alloc b).2 = .full cmd := by
  rw [parseArray_eq]
  show _ = (Scanner.bind arrayHeader _ b).forget ∧ ∀ cmd n, Scanner.bind arrayHeader _ b = _ → _
  unfold fillArray Scanner.bind
  cases arrayHeader b with
  | more => exact ⟨rfl, by simp⟩
  | err => exact ⟨rfl, by simp⟩
  | ok argc n =>
    obtain ⟨hverdict, hrec⟩ := @fillArgs_zero alloc argc.toNat (fun j _ => halloc j) (b.drop n)
    cases hp : parseArgs argc.toNat 0 ⟨[], 0⟩ (b.drop n) with
    | more =>
      rw [hp] at hverdict
      simp [Bind.bind, Scanner.bind, hp, hverdict, Scan.forget]
    | err =>
      rw [hp] at hverdict
      simp [Bind.bind, Scanner.bind, hp, hverdict, Scan.forget]
    | ok c k =>
      rw [hp] at hverdict
      have hlen := length_argv_parseArgs hp
      simp only [hverdict, hrec c k hp, Bind.bind, Scanner.bind, hp, Scan.forget, Scanner.pure]
      refine ⟨rfl, fun cmd m h => ?_⟩
      cases h
      rw [← CmdRec.full_upper, CmdRec.full, hlen]
      simp

theorem fillInline_parseInline {alloc : Nat → Bool} (halloc : ∀ i, alloc i = true)
    (b : List UInt8) :
    (fillInline alloc b).1 = (parseInline b).forget ∧
      ∀ cmd n, parseInline b = .ok cmd n → (fillInline alloc b).2 = .full cmd := by
  show _ = (Scanner.bind eolLine _ b).forget ∧ ∀ cmd n, Scanner.bind eolLine _ b = _ → _
  unfold fillInline Scanner.bind
  cases eolLine b with
  | more => exact ⟨rfl, by simp⟩
  | err => exact ⟨rfl, by simp⟩
  | ok line n =>
    have hargv : (splitInline vcMaxArgs line).mapIdx (fun i w => if alloc i then some w else none) =
        (splitInline vcMaxArgs line).map some := by
      refine List.ext_getElem (by simp) fun i hi _ => ?_
      simp [halloc i]
    dsimp only
    rw [hargv]
    by_cases hw : splitInline vcMaxArgs line = []
    · simp [hw, Scanner.fail, Scan.forget]
    · simp only [if_neg hw, Scanner.pure]
      refine ⟨rfl, fun cmd m h => ?_⟩
      cases h
      rfl

/-- When every allocation succeeds, the record holds what the parser of the model returns. -/
theorem respParseRecord_refines {alloc : Nat → Bool} (halloc : ∀ i, alloc i = true)
    (b : List UInt8) :
    (respParseRecord alloc b).1 = (respParseCommand b).forget ∧
      ∀ cmd n, respParseCommand b = .ok cmd n → (respParseRecord alloc b).2 = .full cmd := by
  cases b with
  | nil => exact ⟨rfl, fun cmd n h => by cases h⟩
  | cons c bs =>
    have hparse : respParseCommand (c :: bs) = (if c ≠ 42 then parseInline else parseArray) (c :: bs) := by
      rw [respParseCommand, Scanner.need_bind_of_le (by simp), Scanner.peek_bind_cons]
    rw [hparse, respParseRecord, if_neg (List.cons_ne_nil c bs)]
    by_cases hc : c = 42
    · subst hc
      rw [if_neg (by simp), if_neg (by simp)]
      exact fillArray_parseArray halloc _
    · rw [if_pos (by simpa using hc), if_pos hc]
      exact fillInline_parseInline halloc _

/-! ### Nothing is left -/

/-- No pointer is out of reach of `vc_cmd_free`, which leaves none, and a call that returns no
command leaves none itself. -/
structure LeavesNothing (r : Scan Unit × CmdRec) : Prop where
  owned : r.2.Owned
  freed : ∀ a, some a ∉ (vcCmdFree r.2).argv
  failed : (∀ n, r.1 ≠ .ok () n) → ∀ a, some a ∉ r.2.argv

/-- The buffer starts with the header of an array and its first element. -/
def FirstRead (b : List UInt8) : Prop :=
  ∃ (s : List UInt8) (n : Nat) (e : BulkText) (x : List UInt8),
    HeaderRead b s (n + 1) (e.text ++ x) ∧ e.WellFormed ∧ e.len.length < 32

/-- The buffer starts with a whole array, and each of its elements is allocated. -/
def AllRead (alloc : Nat → Bool) (b : List UInt8) : Prop :=
  ∃ (s : List UInt8) (elems : List BulkText) (x : List UInt8),
    HeaderRead b s elems.length (elems.flatMap BulkText.text ++ x) ∧
      (∀ e ∈ elems, e.WellFormed ∧ e.len.length < 32) ∧ ∀ i < elems.length, alloc i = true

theorem leavesNothing_of_length {r : Scan Unit × CmdRec} (h : r.2.argv.length = r.2.argc)
    (hfail : (∀ n, r.1 ≠ .ok () n) → r.2.argv = []) : LeavesNothing r := by
  have howned := CmdRec.owned_of_length h
  exact ⟨howned, CmdRec.owned_iff_freed.mp howned, fun hr => by simp [hfail hr]⟩

theorem leavesNothing_zero (v : Scan Unit) : LeavesNothing (v, .zero) :=
  leavesNothing_of_length rfl fun _ => rfl

theorem leavesNothing_of_argc {r : Scan Unit × CmdRec} (h : r.2.argc = 0) :
    LeavesNothing r ↔ ∀ a, some a ∉ r.2.argv := by
  refine ⟨fun hr => (CmdRec.owned_of_argc h).mp hr.owned, fun hr => ?_⟩
  have howned := (CmdRec.owned_of_argc h).mpr hr
  exact ⟨howned, CmdRec.owned_iff_freed.mp howned, fun _ => hr⟩

theorem leavesNothing_inline (alloc : Nat → Bool) (b : List UInt8) :
    LeavesNothing (fillInline alloc b) := by
  unfold fillInline
  cases eolLine b with
  | more => exact leavesNothing_zero _
  | err => exact leavesNothing_zero _
  | ok line n =>
    refine leavesNothing_of_length (by simp) fun hfail => ?_
    by_cases hw : splitInline vcMaxArgs line = []
    · simp [hw]
    · exact absurd (if_neg hw) (hfail n)

section

variable {alloc : Nat → Bool} {b s : List UInt8} {n : Nat} {x : List UInt8}

theorem allRead_iff (h : HeaderRead b s n x) :
    AllRead alloc b ↔ ∃ k, (fillArgs alloc n 0 .zero x).1 = .ok () k := by
  constructor
  · rintro ⟨s', elems, y, h', hall, halloc⟩
    obtain ⟨rfl, rfl, rfl⟩ := h.unique h'
    have hparse : parseArgs elems.length 0 ⟨[], 0⟩ (elems.flatMap BulkText.text ++ y) = .ok _ _ :=
      parseArgs_eq_ok.mpr ⟨elems, y, rfl, rfl, hall, rfl, rfl⟩
    exact ⟨_, by rw [(fillArgs_zero halloc _).1, hparse]; rfl⟩
  · rintro ⟨k, hk⟩
    have halloc : ∀ j < n, alloc j = true := by simpa using fillArgs_alloc hk
    rw [(fillArgs_zero halloc x).1] at hk
    cases hparse : parseArgs n 0 ⟨[], 0⟩ x with
    | more => simp [hparse, Scan.forget] at hk
    | err => simp [hparse, Scan.forget] at hk
    | ok c m =>
      obtain ⟨elems, y, rfl, rfl, hall, -, -⟩ := parseArgs_eq_ok.mp hparse
      exact ⟨s, elems, y, h, hall, halloc⟩

/-- As soon as the first element is there and allocated, the record holds it. -/
theorem stored_iff (h : HeaderRead b s n x) :
    (∃ a, some a ∈ (fillArgs alloc n 0 .zero x).2.argv) ↔ FirstRead b ∧ alloc 0 = true := by
  constructor
  · rintro ⟨a, ha⟩
    cases n with
    | zero => simp [fillArgs, CmdRec.zero] at ha
    | succ n =>
      unfold fillArgs at ha
      cases hdata : bulkData x with
      | more => simp [hdata, CmdRec.zero] at ha
      | err => simp [hdata, CmdRec.zero] at ha
      | ok payload k =>
        obtain ⟨e, y, rfl, hwf, hlen, -, -⟩ := bulkData_eq_ok.mp hdata
        refine ⟨⟨s, n, e, y, h, hwf, hlen⟩, ?_⟩
        by_contra halloc
        rw [hdata] at ha
        simp only [Bool.not_eq_true] at halloc
        simp [halloc, CmdRec.zero, CmdRec.noteType, CmdRec.store, vcCmdFree] at ha
  · rintro ⟨⟨s', m, e, y, h', hwf, hlen⟩, halloc⟩
    obtain ⟨rfl, rfl, rfl⟩ := h.unique h'
    have hdata : bulkData (e.text ++ y) = .ok e.data e.text.length :=
      bulkData_eq_ok.mpr ⟨e, y, rfl, hwf, hlen, rfl, rfl⟩
    refine ⟨.ofBytes (stripTypeHeader e.data), ?_⟩
    unfold fillArgs
    simp only [hdata, halloc, if_true]
    -- later elements are added behind the first one
    obtain ⟨added, hargv, -, -⟩ := fillArgs_adds alloc m 1
      ((CmdRec.zero.noteType 0 e.data).store (some (.ofBytes (stripTypeHeader e.data)))) rfl
      ((e.text ++ y).drop e.text.length)
    rw [hargv]
    simp [CmdRec.store]

/-- The call comes back with all the elements, or with those it has stored by then, if any. -/
theorem leavesNothing_array (hb : b.head? = some 42) (h : HeaderRead b s n x) :
    LeavesNothing (fillArray alloc b) ↔ (FirstRead b → alloc 0 = true → AllRead alloc b) := by
  have hheader : arrayHeader b = .ok n _ := (arrayHeader_eq_ok hb).mpr ⟨s, n, x, h, rfl, rfl⟩
  obtain ⟨added, hargv, hargc, hlen⟩ := fillArgs_adds alloc n 0 .zero rfl x
  rw [allRead_iff h]
  simp only [fillArray, hheader, h.drop, Int.toNat_natCast]
  cases hr : (fillArgs alloc n 0 .zero x).1 with
  | ok _ k =>
    -- `argc` is set to the number of elements that were stored
    refine iff_of_true ?_ fun _ _ => ⟨k, rfl⟩
    refine leavesNothing_of_length ?_ fun hfail => absurd rfl (hfail _)
    rw [CmdRec.length_argv_upper, CmdRec.argc_upper, hargv]
    simpa [CmdRec.zero] using hlen k hr
  | more =>
    rw [leavesNothing_of_argc hargc, ← not_exists, stored_iff h]
    simp
  | err =>
    rw [leavesNothing_of_argc hargc, ← not_exists, stored_iff h]
    simp

end

/-- No argument is lost exactly when an array whose first element is copied is there as a whole,
with an allocation for each of its elements. -/
theorem nothing_left_behind (alloc : Nat → Bool) (b : List UInt8) :
    LeavesNothing (respParseRecord alloc b) ↔ (FirstRead b → alloc 0 = true → AllRead alloc b) := by
  by_cases hb : b.head? = some 42
  · have hne : b ≠ [] := by
      rintro rfl
      cases hb
    rw [respParseRecord, if_neg hne, if_neg (not_not.mpr hb)]
    by_cases hread : ∃ s n x, HeaderRead b s n x
    · obtain ⟨s, n, x, hread⟩ := hread
      exact leavesNothing_array hb hread
    · have hfirst : ¬ FirstRead b := fun ⟨s, n, e, x, h, _⟩ => hread ⟨s, n + 1, _, h⟩
      refine iff_of_true ?_ fun h => absurd h hfirst
      unfold fillArray
      cases hheader : arrayHeader b with
      | more => exact leavesNothing_zero _
      | err => exact leavesNothing_zero _
      | ok argc k =>
        obtain ⟨s, n, x, h, -, -⟩ := (arrayHeader_eq_ok hb).mp hheader
        exact absurd ⟨s, n, x, h⟩ hread
  · have hfirst : ¬ FirstRead b := fun ⟨s, n, e, x, h, _⟩ => hb (by rw [h.text]; rfl)
    refine iff_of_true ?_ fun h => absurd h hfirst
    unfold respParseRecord
    split_ifs
    · exact leavesNothing_zero _
    · exact leavesNothing_inline alloc b

/-- Two elements are announced and one has arrived: its copy stays in the record, `argc` is 0. -/
theorem first_argument_left_behind :
    respParseRecord (fun _ => true) (str "*2\r\n$1\r\na\r\n") = (.more, ⟨[some ⟨str "a", 1⟩], 0, 0⟩) ∧
      ¬ CmdRec.Owned ⟨[some ⟨str "a", 1⟩], 0, 0⟩ := by
  refine ⟨by decide +kernel, fun h => ?_⟩
  exact absurd (h 0 _ rfl) (Nat.lt_irrefl 0)

end VoidCache
