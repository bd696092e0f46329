import VoidCache.Net.Grammar

/-!
# Requests: the encoder of the client

`encodeCommand` is `encode_command` of the command-line client, with its buffer and its running
position. What it writes is read back by the parser of the server.
-/
namespace VoidCache

/-! ## Encoding -/

def respBulk (a : List UInt8) : List UInt8 :=
  36 :: decimal a.length ++ crlf ++ a ++ crlf

/-- A request as an array of bulk strings. -/
def respArray (args : List (List UInt8)) : List UInt8 :=
  42 :: decimal args.length ++ crlf ++ args.flatMap respBulk

/-- `snprintf` of a text at `off`, into `size` bytes. -/
def snprintfAt (mem : Nat → UInt8) (off size : Nat) (text : List UInt8) : Nat → UInt8 :=
  if size = 0 then mem else overwrite mem off (text.take (size - 1) ++ [0])

def encodeLoop (bufsz : Nat) :
    List (List UInt8) → (Nat → UInt8) → Nat → (Nat → UInt8) × Int
  | [], mem, pos => (mem, pos)
  | a :: argv, mem, pos =>
    let piece := respBulk (cstr a)
    -- `bufsz - (size_t)pos` wraps
    let size := if pos ≤ bufsz then bufsz - pos else bufsz + 2 ^ 64 - pos
    let mem := snprintfAt mem pos size piece
    let pos := pos + piece.length
    if bufsz ≤ pos then (mem, -1) else encodeLoop bufsz argv mem pos

/-- `encode_command`: the buffer it leaves and what it returns. -/
def encodeCommand (mem : Nat → UInt8) (bufsz : Nat) (argv : List (List UInt8)) :
    (Nat → UInt8) × Int :=
  let head := 42 :: decimal argv.length ++ crlf
  encodeLoop bufsz argv (snprintfAt mem 0 bufsz head) head.length

/-- A text that fits is there whole, and what stood before it is untouched. -/
theorem window_snprintfAt {mem : Nat → UInt8} {off size : Nat} {text : List UInt8}
    (h : text.length < size) :
    window (snprintfAt mem off size text) 0 (off + text.length) = window mem 0 off ++ text := by
  have hfit : text.take (size - 1) = text := List.take_of_length_le (by omega)
  rw [snprintfAt, if_neg (by omega), hfit, ← overwrite_append,
    window_overwrite_of_disjoint _ _ (.inl (by omega)), window_add,
    window_overwrite_of_disjoint _ _ (.inl (by omega)), Nat.zero_add, window_overwrite_self]

theorem encodeLoop_spec {bufsz : Nat} (argv : List (List UInt8)) (mem : Nat → UInt8) {pos : Nat}
    (hpos : pos < bufsz) :
    let text := argv.flatMap fun a => respBulk (cstr a)
    let out := encodeLoop bufsz argv mem pos
    (out.2 = -1 ↔ bufsz ≤ pos + text.length) ∧
      (pos + text.length < bufsz →
        out.2 = (pos + text.length : Nat) ∧
          window out.1 0 (pos + text.length) = window mem 0 pos ++ text) := by
  induction argv generalizing mem pos with
  | nil =>
    refine ⟨?_, fun _ => ⟨rfl, by simp [encodeLoop]⟩⟩
    simp only [encodeLoop, List.flatMap_nil, List.length_nil, Nat.add_zero]
    omega
  | cons a argv ih =>
    simp only [encodeLoop, List.flatMap_cons, List.length_append, if_pos hpos.le, ← Nat.add_assoc]
    by_cases hfull : bufsz ≤ pos + (respBulk (cstr a)).length
    · rw [if_pos hfull]
      exact ⟨by simp; omega, fun h => absurd h (by omega)⟩
    · rw [if_neg hfull]
      obtain ⟨h1, h2⟩ := ih (snprintfAt mem pos (bufsz - pos) (respBulk (cstr a)))
        (Nat.lt_of_not_le hfull)
      refine ⟨h1, fun hfit => ?_⟩
      obtain ⟨h3, h4⟩ := h2 hfit
      rw [h3, h4, window_snprintfAt (by omega), List.append_assoc]
      exact ⟨rfl, rfl⟩

/-! ## Decoding undoes encoding -/

/-- An element as the encoder spells it. -/
def BulkText.spell (a : List UInt8) : BulkText := ⟨decimal a.length, a, crlf⟩

theorem BulkText.text_spell (a : List UInt8) : (spell a).text = respBulk a := by
  simp [spell, text, respBulk]

theorem length_decimal_lt {n : Nat} (h : n ≤ vcMaxInlineArg) : (decimal n).length < 32 :=
  Nat.lt_succ_of_le (length_decimal_le (by decide) (Nat.lt_of_le_of_lt h (by decide)))

theorem BulkText.spell_wellFormed {a : List UInt8} (ha : a.length ≤ vcMaxInlineArg) :
    (spell a).WellFormed where
  len := (decimalOf_decimal a.length).numeral (Nat.lt_of_le_of_lt ha (by decide))
  max := ha
  tail := rfl

theorem argv_pushAll (cmd : VcCmd) (i : Nat) (args : List (List UInt8)) :
    (cmd.pushAll i args).argv = cmd.argv ++ args.map fun a => .ofBytes (stripTypeHeader a) := by
  induction args generalizing cmd i with
  | nil => simp [VcCmd.pushAll]
  | cons a args ih => simp [VcCmd.pushAll, ih, VcCmd.push]

theorem vcType_pushAll {args : List (List UInt8)} (h : ∀ a ∈ args, hasTypeHeader a = false)
    (cmd : VcCmd) (i : Nat) : (cmd.pushAll i args).vcType = cmd.vcType := by
  induction args generalizing cmd i with
  | nil => rfl
  | cons a args ih =>
    rw [VcCmd.pushAll, ih fun b hb => h b (List.mem_cons_of_mem _ hb)]
    simp [VcCmd.push, h a (List.mem_cons_self ..)]

/-- Whatever follows it, an array of bulk strings is read back as the command it spells. -/
theorem respParseCommand_respArray {args : List (List UInt8)} (hn : args.length ≤ vcMaxArgs)
    (h : ∀ a ∈ args, a.length ≤ vcMaxInlineArg) (x : List UInt8) :
    respParseCommand (respArray args ++ x) =
      .ok (VcCmd.pushAll ⟨[], 0⟩ 0 args).upper (respArray args).length := by
  let a : ArrayText := ⟨decimal args.length, args.map BulkText.spell⟩
  have htext : a.text = respArray args := by
    simp [a, ArrayText.text, respArray, List.flatMap_map, BulkText.text_spell]
  have hdata : a.elems.map BulkText.data = args := by
    rw [List.map_map]
    exact List.map_id _
  have hcount : Numeral a.count a.elems.length := by
    rw [List.length_map]
    exact (decimalOf_decimal _).numeral (Nat.lt_of_le_of_lt hn (by decide))
  refine parse_array_eq_ok.mpr ⟨a, x, ?_, ⟨hcount, ?_, ?_⟩, ⟨?_, ?_⟩, ?_, ?_⟩
  · rw [htext]
    rfl
  · rwa [List.length_map]
  · rintro e he
    obtain ⟨b, hb, rfl⟩ := List.mem_map.mp he
    exact BulkText.spell_wellFormed (h b hb)
  · exact length_decimal_lt (hn.trans (by decide))
  · rintro e he
    obtain ⟨b, hb, rfl⟩ := List.mem_map.mp he
    exact length_decimal_lt (h b hb)
  · rw [hdata]
  · rw [htext]

theorem hasTypeHeader_iff {a : List UInt8} :
    hasTypeHeader a = true ↔ ∃ b bs, a = vcWireMagic ++ b :: bs := by
  simp only [hasTypeHeader, Bool.and_eq_true, decide_eq_true_eq, beq_iff_eq]
  constructor
  · rintro ⟨hlen, htake⟩
    have hne : a.drop vcWireMagic.length ≠ [] := by
      rw [Ne, List.drop_eq_nil_iff]
      omega
    obtain ⟨b, bs, hb⟩ := List.exists_cons_of_ne_nil hne
    exact ⟨b, bs, by rw [← htake, ← hb, htake, ← htake, List.length_take, Nat.min_eq_left hlen.le,
      List.take_append_drop]⟩
  · rintro ⟨b, bs, rfl⟩
    exact ⟨by simp, List.take_left⟩

theorem stripTypeHeader_eq_self {a : List UInt8} (h : hasTypeHeader a = false) :
    stripTypeHeader a = a := by
  simp [stripTypeHeader, h]

/-- The arguments as the parser hands them on: the first one upper-cased. -/
def upperFirst : List (List UInt8) → List (List UInt8)
  | [] => []
  | name :: args => upperName name :: args

theorem length_upperName (name : List UInt8) : (upperName name).length = name.length := by
  simp [upperName]
  omega

theorem upper_pushAll {args : List (List UInt8)} (h : ∀ a ∈ args, hasTypeHeader a = false) :
    (VcCmd.pushAll ⟨[], 0⟩ 0 args).upper = ⟨(upperFirst args).map Arg.ofBytes, 0⟩ := by
  have hargv : (VcCmd.pushAll ⟨[], 0⟩ 0 args).argv = args.map Arg.ofBytes := by
    rw [argv_pushAll, List.nil_append]
    refine List.map_congr_left fun a ha => ?_
    rw [stripTypeHeader_eq_self (h a ha)]
  have htype : (VcCmd.pushAll ⟨[], 0⟩ 0 args).vcType = 0 := vcType_pushAll h _ _
  generalize VcCmd.pushAll ⟨[], 0⟩ 0 args = cmd at hargv htype
  obtain ⟨argv, vcType⟩ := cmd
  subst hargv htype
  cases args with
  | nil => rfl
  | cons name args => simp [VcCmd.upper, upperFirst, Arg.ofBytes, length_upperName]

/-- Parsing undoes encoding, and the encoder refuses exactly what does not fit. -/
theorem decode_encode {args : List (List UInt8)} (hmax : args.length ≤ vcMaxArgs)
    (hnul : ∀ a ∈ args, (0 : UInt8) ∉ a)
    (hlen : ∀ a ∈ args, a.length ≤ vcMaxInlineArg)
    (htype : ∀ a ∈ args, ¬ ∃ b bs, a = str "*VC1" ++ b :: bs)
    (mem : Nat → UInt8) {bufsz : Nat} (hbuf : 16 ≤ bufsz) :
    let encoded := respArray args
    let out := encodeCommand mem bufsz args
    (out.2 = -1 ↔ bufsz ≤ encoded.length) ∧
      (encoded.length < bufsz →
        out.2 = encoded.length ∧ window out.1 0 encoded.length = encoded ∧
          ∀ rest, respParseCommand (window out.1 0 encoded.length ++ rest) =
            .ok ⟨(upperFirst args).map Arg.ofBytes, 0⟩ encoded.length) := by
  intro encoded out
  have hhead : (42 :: decimal args.length ++ crlf).length < bufsz := by
    have h3 : (decimal args.length).length ≤ 3 :=
      length_decimal_le (by decide) (Nat.lt_of_le_of_lt hmax (by decide))
    simp only [List.length_append, List.length_cons, crlf, List.length_nil]
    omega
  have htext : (args.flatMap fun a => respBulk (cstr a)) = args.flatMap respBulk :=
    List.flatMap_congr fun a ha => by rw [cstr_eq_self (hnul a ha)]
  have hspec := encodeLoop_spec args
    (snprintfAt mem 0 bufsz (42 :: decimal args.length ++ crlf)) hhead
  have hzero := @window_snprintfAt mem 0 _ _ hhead
  rw [Nat.zero_add, window_zero, List.nil_append] at hzero
  simp only [htext, hzero, ← List.length_append] at hspec
  refine ⟨hspec.1, fun hfit => ?_⟩
  obtain ⟨hret, hwin⟩ := hspec.2 hfit
  refine ⟨hret, hwin, fun rest => ?_⟩
  have hplain : ∀ a ∈ args, hasTypeHeader a = false := by
    intro a ha
    rw [Bool.eq_false_iff, Ne, hasTypeHeader_iff]
    exact htype a ha
  have hparse := respParseCommand_respArray hmax hlen rest
  rw [upper_pushAll hplain] at hparse
  rwa [show window out.1 0 encoded.length = encoded from hwin]

theorem decode_encode_get :
    let args := [str "get", str "k"]
    let out := encodeCommand (fun _ => 0) 64 args
    (out.2 = -1 ↔ 64 ≤ (respArray args).length) ∧
      ((respArray args).length < 64 →
        out.2 = (respArray args).length ∧
          window out.1 0 (respArray args).length = respArray args ∧
          ∀ rest, respParseCommand (window out.1 0 (respArray args).length ++ rest) =
            .ok ⟨(upperFirst args).map Arg.ofBytes, 0⟩ (respArray args).length) := by
  have hheader : ∀ a ∈ [str "get", str "k"], ¬ ∃ b bs, a = str "*VC1" ++ b :: bs := by
    intro a ha hb
    have hnone : ∀ a ∈ [str "get", str "k"], hasTypeHeader a = false := by decide
    exact Bool.false_ne_true ((hnone a ha).symm.trans (hasTypeHeader_iff.mpr hb))
  exact decode_encode (by decide) (by decide) (by decide) hheader _ (by decide)

end VoidCache
