import VoidCache.Net.Encode

/-!
# Lines of the command line client

`cli_readline` takes a line from the input, `tokenize` splits it into arguments, and `encode_command`
makes a request of them. There are no escapes, so not every argument can be typed: `typed_args_iff`
says which ones can.
-/
namespace VoidCache

/-! ## Tokens -/

/-- `cli_readline`: the next line of the input without its end, as the string that it is, and the rest
of the input. -/
def cliReadline (input : List UInt8) : Option (List UInt8 × List UInt8) :=
  if input = [] then none
  else some (cstr (input.takeWhile (· != 10)), (input.dropWhile (· != 10)).drop 1)

/-- `tokenize` of a line, into at most that many tokens. A token that begins with a quote goes up to
the next such quote, any other one up to the next blank. -/
def tokenize : Nat → List UInt8 → List (List UInt8)
  | 0, _ => []
  | n + 1, line =>
    match line.dropWhile isBlank with
    | [] => []
    | c :: p =>
      if c = 34 ∨ c = 39 then p.takeWhile (· != c) :: tokenize n ((p.dropWhile (· != c)).drop 1)
      else
        (c :: p).takeWhile (fun b => !isBlank b) ::
          tokenize n (((c :: p).dropWhile fun b => !isBlank b).drop 1)

/-- An argument that can be typed: between quotes that it does not hold, or as it is. -/
def Typable (a : List UInt8) : Prop :=
  34 ∉ a ∨ 39 ∉ a ∨ a ≠ [] ∧ (∀ b ∈ a, isBlank b = false) ∧ a.head? ≠ some 34 ∧ a.head? ≠ some 39

/-- How to type it. -/
def spelling (a : List UInt8) : List UInt8 :=
  if 34 ∉ a then 34 :: a ++ [34] else if 39 ∉ a then 39 :: a ++ [39] else a

section Tokens

variable {a line : List UInt8} {args : List (List UInt8)} {n : Nat}

theorem tokenize_blank (n : Nat) (line : List UInt8) : tokenize n (32 :: line) = tokenize n line := by
  cases n with
  | zero => rfl
  | succ n => simp [tokenize, isBlank]

theorem tokenize_quoted {c : UInt8} (hc : c = 34 ∨ c = 39) {a : List UInt8} (ha : c ∉ a) (n : Nat)
    (rest : List UInt8) : tokenize (n + 1) (c :: a ++ [c] ++ rest) = a :: tokenize n rest := by
  have hne : ∀ b ∈ a, (b != c) = true := fun b hb => bne_iff_ne.mpr fun h => ha (h ▸ hb)
  have hblank : isBlank c = false := by rcases hc with rfl | rfl <;> decide
  have htake : (a ++ c :: rest).takeWhile (· != c) = a := by
    simp [List.takeWhile_append_of_pos hne]
  have hdrop : (a ++ c :: rest).dropWhile (· != c) = c :: rest := by
    simp [List.dropWhile_append_of_pos hne]
  have hline : c :: a ++ [c] ++ rest = c :: (a ++ c :: rest) := by simp
  rw [hline, tokenize, List.dropWhile_cons_of_neg (by simp [hblank])]
  dsimp only
  rw [if_pos hc, htake, hdrop, List.drop_one, List.tail_cons]

theorem tokenize_plain (hne : a ≠ []) (hplain : ∀ b ∈ a, isBlank b = false)
    (hhead : a.head? ≠ some 34 ∧ a.head? ≠ some 39) (n : Nat) (rest : List UInt8) :
    tokenize (n + 1) (a ++ 32 :: rest) = a :: tokenize n rest := by
  obtain ⟨c, a, rfl⟩ := List.exists_cons_of_ne_nil hne
  have hc : ¬ (c = 34 ∨ c = 39) := by simpa using hhead
  have hin : ∀ b ∈ c :: a, (!isBlank b) = true := fun b hb => by simp [hplain b hb]
  have hblank : isBlank c = false := hplain c (by simp)
  have htake : (c :: (a ++ 32 :: rest)).takeWhile (fun b => !isBlank b) = c :: a := by
    rw [← List.cons_append, List.takeWhile_append_of_pos hin]
    simp [isBlank]
  have hdrop : (c :: (a ++ 32 :: rest)).dropWhile (fun b => !isBlank b) = 32 :: rest := by
    rw [← List.cons_append, List.dropWhile_append_of_pos hin]
    simp [isBlank]
  rw [List.cons_append, tokenize, List.dropWhile_cons_of_neg (by simp [hblank])]
  dsimp only
  rw [if_neg hc, htake, hdrop, List.drop_one, List.tail_cons]

theorem tokenize_spelling (ha : Typable a) (n : Nat) (rest : List UInt8) :
    tokenize (n + 1) (spelling a ++ 32 :: rest) = a :: tokenize n rest := by
  unfold spelling
  by_cases hdouble : 34 ∉ a
  · rw [if_pos hdouble, tokenize_quoted (.inl rfl) hdouble, tokenize_blank]
  rw [if_neg hdouble]
  by_cases hsingle : 39 ∉ a
  · rw [if_pos hsingle, tokenize_quoted (.inr rfl) hsingle, tokenize_blank]
  rw [if_neg hsingle]
  obtain ⟨hne, hplain, hhead⟩ := (ha.resolve_left hdouble).resolve_left hsingle
  exact tokenize_plain hne hplain hhead n rest

theorem tokenize_spellings (h : ∀ a ∈ args, Typable a) (hn : args.length ≤ n) :
    tokenize n (args.flatMap fun a => spelling a ++ [32]) = args := by
  induction args generalizing n with
  | nil => cases n <;> rfl
  | cons a args ih =>
    obtain ⟨ha, hargs⟩ := List.forall_mem_cons.mp h
    obtain ⟨n, rfl⟩ : ∃ k, n = k + 1 := Nat.exists_eq_succ_of_ne_zero (by simp at hn; omega)
    rw [List.flatMap_cons, List.append_assoc, List.singleton_append, tokenize_spelling ha,
      ih hargs (Nat.le_of_succ_le_succ hn)]

theorem length_tokenize_le (n : Nat) (line : List UInt8) : (tokenize n line).length ≤ n := by
  fun_induction tokenize n line with
  | case1 => simp
  | case2 => simp
  | case3 n line c p hline hquote ih => simpa using ih
  | case4 n line c p hline hquote ih => simpa using ih

/-- Every token can be typed, and is a part of the line. -/
theorem mem_tokenize (ha : a ∈ tokenize n line) : Typable a ∧ a ⊆ line := by
  fun_induction tokenize n line with
  | case1 => simp at ha
  | case2 => simp at ha
  | case3 n line c p hline hquote ih =>
    have hsub : c :: p ⊆ line := hline ▸ (List.dropWhile_sublist _).subset
    rcases List.mem_cons.mp ha with rfl | ha
    · have hstop : c ∉ p.takeWhile (· != c) := fun h => by simpa using List.mem_takeWhile_imp h
      refine ⟨?_, fun b hb => hsub (List.mem_cons_of_mem _ ((List.takeWhile_sublist _).subset hb))⟩
      rcases hquote with rfl | rfl
      · exact .inl hstop
      · exact .inr (.inl hstop)
    · obtain ⟨htypable, hrest⟩ := ih ha
      refine ⟨htypable, fun b hb => hsub (List.mem_cons_of_mem _ ?_)⟩
      exact (List.dropWhile_sublist _).subset (List.mem_of_mem_drop (hrest hb))
  | case4 n line c p hline hquote ih =>
    have hsub : c :: p ⊆ line := hline ▸ (List.dropWhile_sublist _).subset
    rcases List.mem_cons.mp ha with rfl | ha
    · have hblank : isBlank c = false := by
        have hfirst := List.head_dropWhile_not isBlank (l := line) (by simp [hline])
        simpa [hline] using hfirst
      refine ⟨.inr (.inr ⟨?_, fun b hb => ?_, ?_⟩), fun b hb => hsub ((List.takeWhile_sublist _).subset hb)⟩
      · simp [hblank]
      · simpa using List.mem_takeWhile_imp hb
      · simpa [hblank] using hquote
    · obtain ⟨htypable, hrest⟩ := ih ha
      refine ⟨htypable, fun b hb => hsub ?_⟩
      exact (List.dropWhile_sublist _).subset (List.mem_of_mem_drop (hrest hb))

end Tokens

section Lines

variable {input line rest : List UInt8}

theorem notMem_cliReadline (h : cliReadline input = some (line, rest)) : 0 ∉ line ∧ 10 ∉ line := by
  unfold cliReadline at h
  split at h
  · cases h
  · obtain ⟨rfl, -⟩ := Prod.mk.inj (Option.some.inj h)
    have hline : (10 : UInt8) ∉ input.takeWhile (· != 10) := fun h10 => by
      simpa using List.mem_takeWhile_imp h10
    refine ⟨fun h0 => ?_, fun h10 => hline ((List.takeWhile_sublist _).subset h10)⟩
    simpa using List.mem_takeWhile_imp h0

theorem cliReadline_line (hzero : 0 ∉ line) (hend : 10 ∉ line) (rest : List UInt8) :
    cliReadline (line ++ 10 :: rest) = some (line, rest) := by
  have hne : ∀ b ∈ line, (b != 10) = true := fun b hb => bne_iff_ne.mpr fun h => hend (h ▸ hb)
  rw [cliReadline, if_neg (by simp), List.takeWhile_append_of_pos hne, List.dropWhile_append_of_pos hne]
  simp [cstr_eq_self hzero]

end Lines

/-- Just these arguments can be typed: no more than there is room for, without zero bytes and line
ends, and each of them without one of the two quotes, or without blanks and not beginning with a
quote. -/
theorem typed_args_iff (n : Nat) (args : List (List UInt8)) :
    (∃ input line rest, cliReadline input = some (line, rest) ∧ tokenize n line = args) ↔
      args.length ≤ n ∧ ∀ a ∈ args, 0 ∉ a ∧ 10 ∉ a ∧ Typable a := by
  constructor
  · rintro ⟨input, line, rest, hread, rfl⟩
    obtain ⟨hzero, hend⟩ := notMem_cliReadline hread
    refine ⟨length_tokenize_le n line, fun a ha => ?_⟩
    obtain ⟨htypable, hsub⟩ := mem_tokenize ha
    exact ⟨fun h0 => hzero (hsub h0), fun h10 => hend (hsub h10), htypable⟩
  · rintro ⟨hlen, hargs⟩
    have hspelled (b : UInt8) (hb : ∀ a ∈ args, b ∉ a) (hblank : b ≠ 32) (hquotes : b ≠ 34 ∧ b ≠ 39) :
        b ∉ args.flatMap fun a => spelling a ++ [32] := by
      intro hmem
      obtain ⟨a, ha, hin⟩ := List.mem_flatMap.mp hmem
      have hnot := hb a ha
      unfold spelling at hin
      split_ifs at hin <;> simp [hnot, hblank, hquotes] at hin
    have hzero := hspelled 0 (fun a ha => (hargs a ha).1) (by decide) (by decide)
    have hend := hspelled 10 (fun a ha => (hargs a ha).2.1) (by decide) (by decide)
    exact ⟨_, _, [], cliReadline_line hzero hend [],
      tokenize_spellings (fun a ha => (hargs a ha).2.2) hlen⟩

/-! ## Requests -/

/-- The command as `encode_command` leaves it in the buffer, if it fits. -/
theorem encodeCommand_spec {args : List (List UInt8)} (hmax : args.length ≤ vcMaxArgs)
    (mem : Nat → UInt8) {bufsz : Nat} (hbuf : 16 ≤ bufsz) :
    let text := respArray (args.map cstr)
    let out := encodeCommand mem bufsz args
    (bufsz ≤ text.length → out.2 = -1) ∧
      (text.length < bufsz → out.2 = text.length ∧ window out.1 0 text.length = text) := by
  have hhead : (42 :: decimal args.length ++ crlf).length < bufsz := by
    have h3 : (decimal args.length).length ≤ 3 :=
      length_decimal_le (by decide) (Nat.lt_of_le_of_lt hmax (by decide))
    simp only [List.length_append, List.length_cons, crlf, List.length_nil]
    omega
  have htext : respArray (args.map cstr) =
      42 :: decimal args.length ++ crlf ++ args.flatMap fun a => respBulk (cstr a) := by
    rw [respArray, List.length_map, List.flatMap_map]
  have hspec := encodeLoop_spec args (snprintfAt mem 0 bufsz (42 :: decimal args.length ++ crlf)) hhead
  have hzero := @window_snprintfAt mem 0 _ _ hhead
  rw [Nat.zero_add, window_zero, List.nil_append] at hzero
  simp only [hzero, ← List.length_append, ← htext] at hspec
  exact ⟨hspec.1.mpr, hspec.2⟩

end VoidCache
