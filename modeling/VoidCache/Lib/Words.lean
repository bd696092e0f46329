import Mathlib.Data.List.TakeWhile

/-!
# Words and lines

The words of a text are its maximal runs of letters other than separators. `scanWord` reads one
word of bounded width, the way `%63s` of `scanf` does, and `fgets` one line into a buffer of bounded
size. Both cut what is too long, and go on with the rest as if it were the next word or line:
`scanWord_words` says what this does to the words, `fgets_buffers` what it does to the lines.
-/
namespace VoidCache

section Words

variable {α : Type} {sep : α → Bool}

/-- The maximal runs of letters that are no separators. -/
def words (sep : α → Bool) (s : List α) : List (List α) := (s.splitOnP sep).filter (!·.isEmpty)

/-- A text that is split at a separator: everything about words follows from this. -/
theorem words_append_sep {b : α} (hb : sep b = true) (s t : List α) :
    words sep (s ++ b :: t) = words sep s ++ words sep t := by
  rw [words, List.splitOnP_append_cons s t hb, List.filter_append]
  rfl

@[simp] theorem words_nil : words sep [] = [] := rfl

theorem words_cons_sep {b : α} (hb : sep b = true) (s : List α) : words sep (b :: s) = words sep s :=
  words_append_sep hb [] s

theorem words_concat_sep {b : α} (hb : sep b = true) (s : List α) : words sep (s ++ [b]) = words sep s := by
  rw [words_append_sep hb, words_nil, List.append_nil]

theorem words_of_word {w : List α} (hne : w ≠ []) (hw : ∀ b ∈ w, sep b = false) : words sep w = [w] := by
  rw [words, List.splitOnP_eq_singleton fun b hb => by simp [hw b hb]]
  simp [hne]

/-- Separators at the front, or some of them, belong to no word. -/
theorem words_dropWhile_of_imp {p : α → Bool} (h : ∀ b, p b = true → sep b = true) (s : List α) :
    words sep (s.dropWhile p) = words sep s := by
  induction s with
  | nil => rfl
  | cons b s ih =>
    cases hb : p b with
    | true => rw [List.dropWhile_cons_of_pos hb, ih, words_cons_sep (h b hb)]
    | false => rw [List.dropWhile_cons_of_neg (by simp [hb])]

theorem words_dropWhile (s : List α) : words sep (s.dropWhile sep) = words sep s :=
  words_dropWhile_of_imp (fun _ hb => hb) s

theorem not_sep_of_dropWhile {s t : List α} {b : α} (h : s.dropWhile sep = b :: t) : sep b = false := by
  have hhead := List.head_dropWhile_not sep (l := s) (by simp [h])
  simpa only [h, List.head_cons] using hhead

/-- A word, and behind it nothing or a separator. -/
theorem words_append_word {w r : List α} (hne : w ≠ []) (hw : ∀ b ∈ w, sep b = false)
    (hr : ∀ b ∈ r.head?, sep b = true) : words sep (w ++ r) = w :: words sep r := by
  cases r with
  | nil => rw [List.append_nil, words_of_word hne hw, words_nil]
  | cons b r =>
    have hb := hr b rfl
    rw [words_append_sep hb, words_of_word hne hw, words_cons_sep hb]
    rfl

/-- What stands behind the letters of a text is nothing or starts with a separator. -/
theorem sep_of_head_dropWhile {s : List α} {c : α} (hc : c ∈ (s.dropWhile fun b => !sep b).head?) :
    sep c = true := by
  have hhead := List.head?_dropWhile_not (fun b => !sep b) s
  rw [Option.mem_def.mp hc] at hhead
  simpa using hhead

theorem not_sep_of_mem_takeWhile {s : List α} {c : α} (hc : c ∈ s.takeWhile fun b => !sep b) :
    sep c = false := by
  have hletter := List.mem_takeWhile_imp hc
  simpa using hletter

/-- A text that starts with a word: the word, and the words behind it. -/
theorem words_word {b : α} (hb : sep b = false) (s : List α) :
    words sep (b :: s) = ((b :: s).takeWhile fun b => !sep b) ::
      words sep ((b :: s).dropWhile fun b => !sep b) := by
  have hsplit := (b :: s).takeWhile_append_dropWhile (p := fun b => !sep b)
  rw [← words_append_word (by simp [hb]) (fun c hc => not_sep_of_mem_takeWhile hc)
    (fun c hc => sep_of_head_dropWhile hc), hsplit]

/-! ## Words of bounded width -/

/-- The next word of a text, or as much of it as fits, and the rest of the text. -/
def scanWord (sep : α → Bool) (width : Nat) (s : List α) : Option (List α × List α) :=
  let t := s.dropWhile sep
  let w := (t.take width).takeWhile fun b => !sep b
  if w.isEmpty then none else some (w, t.drop w.length)

/-- What this is on the words: a word that is too long leaves its rest behind. -/
def cutWord (width : Nat) : List (List α) → Option (List α × List (List α))
  | [] => none
  | w :: ws => some (w.take width, if w.length ≤ width then ws else w.drop width :: ws)

theorem scanWord_words {width : Nat} (hwidth : 0 < width) (s : List α) :
    (scanWord sep width s).map (fun r => (r.1, words sep r.2)) = cutWord width (words sep s) := by
  rw [scanWord, ← words_dropWhile s]
  cases ht : s.dropWhile sep with
  | nil => simp [cutWord]
  | cons b t =>
    have hb := not_sep_of_dropWhile ht
    obtain ⟨w, hw⟩ : ∃ w, (b :: t).takeWhile (fun b => !sep b) = w := ⟨_, rfl⟩
    obtain ⟨r, hr⟩ : ∃ r, (b :: t).dropWhile (fun b => !sep b) = r := ⟨_, rfl⟩
    have hsplit : w ++ r = b :: t := hw ▸ hr ▸ List.takeWhile_append_dropWhile
    have hne : w ≠ [] := by simp [← hw, hb]
    have hletters : ∀ c ∈ w, sep c = false := fun c hc => not_sep_of_mem_takeWhile (hw ▸ hc)
    have hcut : (w.take width).isEmpty = false := by
      simp [hne, Nat.ne_of_gt hwidth]
    rw [words_word hb, hw, hr, ← List.take_takeWhile, hw, hcut, ← hsplit, cutWord]
    simp only [Bool.false_eq_true, if_false, Option.map_some, List.length_take]
    by_cases hlen : w.length ≤ width
    · rw [if_pos hlen, Nat.min_eq_right hlen, List.drop_left]
    · -- the rest of the word is the next word
      have hle : width ≤ w.length := Nat.le_of_not_le hlen
      have hrest : w.drop width ≠ [] := by simpa using Nat.lt_of_not_le hlen
      rw [if_neg hlen, Nat.min_eq_left hle, List.drop_append_of_le_length hle,
        words_append_word hrest (fun c hc => hletters c (List.mem_of_mem_drop hc))
          (fun c hc => sep_of_head_dropWhile (hr ▸ hc))]

/-- Going on after a word of bounded width is going on with the words. -/
theorem bind_scanWord {β : Type} {width : Nat} (hwidth : 0 < width) (f : List α → List (List α) → Option β)
    (s : List α) :
    ((scanWord sep width s).bind fun r => f r.1 (words sep r.2)) =
      (cutWord width (words sep s)).bind fun r => f r.1 r.2 := by
  rw [← scanWord_words hwidth, Option.bind_map]
  rfl

end Words

/-! ## Pieces -/

section Pieces

variable {α : Type} {n : Nat} {s : List α}

/-- A list, cut after every `n` letters. -/
def pieces (n : Nat) (s : List α) : List (List α) :=
  if s = [] ∨ n = 0 then [] else s.take n :: pieces n (s.drop n)
termination_by s.length
decreasing_by
  rename_i h
  have hpos := List.length_pos_iff.mpr (not_or.mp h).1
  rw [List.length_drop]
  omega

@[simp] theorem pieces_nil (n : Nat) : pieces n ([] : List α) = [] := by
  rw [pieces, if_pos (.inl rfl)]

theorem pieces_eq_cons (hn : 0 < n) (hs : s ≠ []) : pieces n s = s.take n :: pieces n (s.drop n) := by
  rw [pieces, if_neg (by simp [hs]; omega)]

theorem pieces_of_le (hs : s ≠ []) (h : s.length ≤ n) : pieces n s = [s] := by
  have hn : 0 < n := Nat.lt_of_lt_of_le (List.length_pos_iff.mpr hs) h
  rw [pieces_eq_cons hn hs, List.take_of_length_le h, List.drop_of_length_le h, pieces_nil]

/-- What only the end of the list may be is only the end of a piece. -/
theorem notMem_dropLast_of_pieces {a : α} {b : List α} (hs : a ∉ s.dropLast) (hb : b ∈ pieces n s) :
    a ∉ b.dropLast := by
  fun_induction pieces n s with
  | case1 => cases hb
  | case2 s h ih =>
    rcases List.mem_cons.mp hb with rfl | hb
    · intro hmem
      rw [List.dropLast_eq_take, List.take_take, List.length_take] at hmem
      refine hs ?_
      rw [List.dropLast_eq_take]
      exact List.take_subset_take_left _ (by omega) hmem
    · by_cases hlen : s.length ≤ n
      · rw [List.drop_of_length_le hlen, pieces_nil] at hb
        cases hb
      · refine ih (fun hmem => hs ?_) hb
        rw [List.dropLast_eq_take, List.length_drop, List.take_drop] at hmem
        rw [List.dropLast_eq_take]
        exact List.take_subset_take_left _ (by omega) (List.mem_of_mem_drop hmem)

/-- Nothing follows it there. -/
theorem eq_nil_of_notMem_dropLast {a : α} {t : List α} (h : a ∉ (s ++ a :: t).dropLast) : t = [] := by
  by_contra hne
  refine h ?_
  rw [List.dropLast_append_of_ne_nil (by simp), List.dropLast_cons_of_ne_nil hne]
  simp

end Pieces

/-! ## Lines -/

section Lines

variable {α : Type} [DecidableEq α] {nl : α}

/-- The lines of a text that have an end. -/
def endedLines (nl : α) (s : List α) : List (List α) := (s.splitOn nl).dropLast

/-- What stands behind the last end of a line. -/
def lastLine (nl : α) (s : List α) : List α := (s.splitOn nl).getLast (by simp)

theorem splitOn_of_notMem {line : List α} (h : nl ∉ line) : line.splitOn nl = [line] := by
  refine List.splitOnP_eq_singleton fun b hb => ?_
  have hne : b ≠ nl := fun heq => h (heq ▸ hb)
  simpa using hne

theorem endedLines_of_notMem {s : List α} (h : nl ∉ s) : endedLines nl s = [] ∧ lastLine nl s = s := by
  simp [endedLines, lastLine, splitOn_of_notMem h]

theorem endedLines_append {line : List α} (h : nl ∉ line) (rest : List α) :
    endedLines nl (line ++ nl :: rest) = line :: endedLines nl rest ∧
      lastLine nl (line ++ nl :: rest) = lastLine nl rest := by
  have hsplit : (line ++ nl :: rest).splitOn nl = line :: rest.splitOn nl := by
    rw [List.splitOn, List.splitOnP_append_cons line rest (by simp)]
    exact congrArg (· ++ rest.splitOn nl) (splitOn_of_notMem h)
  have hne : rest.splitOn nl ≠ [] := by simp
  simp [endedLines, lastLine, hsplit, List.dropLast_cons_of_ne_nil hne, List.getLast_cons hne]

/-- Every text has no line end, or starts with a line. -/
theorem lines_induction (nl : α) {motive : List α → Prop} (last : ∀ s, nl ∉ s → motive s)
    (line : ∀ l rest, nl ∉ l → motive rest → motive (l ++ nl :: rest)) (s : List α) : motive s := by
  induction hn : s.length using Nat.strong_induction_on generalizing s with
  | _ n ih =>
    by_cases hnl : nl ∈ s
    · obtain ⟨l, rest, rfl, hl⟩ := List.eq_append_cons_of_mem hnl
      exact line l rest hl (ih rest.length (by simp at hn; omega) rest rfl)
    · exact last s hnl

theorem notMem_of_lines (s : List α) : (∀ l ∈ endedLines nl s, nl ∉ l) ∧ nl ∉ lastLine nl s := by
  induction s using lines_induction nl with
  | last s h =>
    obtain ⟨hlines, hlast⟩ := endedLines_of_notMem h
    rw [hlines, hlast]
    exact ⟨fun l hl => (List.not_mem_nil hl).elim, h⟩
  | line l rest h ih =>
    obtain ⟨hlines, hlast⟩ := endedLines_append h rest
    rw [hlines, hlast]
    exact ⟨List.forall_mem_cons.mpr ⟨h, ih.1⟩, ih.2⟩

/-! ## Lines in a buffer -/

/-- Up to `room` letters, or up to the end of the line. -/
def fgetsLoop (nl : α) : Nat → List α → List α × List α
  | 0, s => ([], s)
  | _ + 1, [] => ([], [])
  | room + 1, b :: s =>
    if b = nl then ([b], s)
    else
      let r := fgetsLoop nl room s
      (b :: r.1, r.2)

/-- One call of `fgets` with a buffer of `size`: nothing at the end of the file. -/
def fgets (nl : α) (size : Nat) (s : List α) : Option (List α × List α) :=
  if s = [] then none else some (fgetsLoop nl (size - 1) s)

/-- Letters other than the line end are taken as far as there is room. -/
theorem fgetsLoop_append {room : Nat} {a : List α} (ha : nl ∉ a) (hroom : a.length ≤ room) (s : List α) :
    fgetsLoop nl room (a ++ s) =
      (a ++ (fgetsLoop nl (room - a.length) s).1, (fgetsLoop nl (room - a.length) s).2) := by
  induction a generalizing room with
  | nil => rfl
  | cons b a ih =>
    obtain ⟨room, rfl⟩ := Nat.exists_eq_succ_of_ne_zero (Nat.ne_of_gt (Nat.zero_lt_of_lt hroom))
    have hb : b ≠ nl := fun h => ha (h ▸ List.mem_cons_self)
    have hrest := ih (fun h => ha (List.mem_cons_of_mem _ h)) (Nat.le_of_succ_le_succ hroom)
    simp [fgetsLoop, hb, hrest]

theorem fgetsLoop_take {room : Nat} {s : List α} (h : nl ∉ s.take room) :
    fgetsLoop nl room s = (s.take room, s.drop room) := by
  have happend := fgetsLoop_append h (List.length_take_le _ _) (s.drop room)
  rw [List.take_append_drop] at happend
  rw [happend]
  by_cases hlen : room ≤ s.length
  · simp [fgetsLoop, Nat.min_eq_left hlen]
  · have hnone : s.drop room = [] := List.drop_of_length_le (by omega)
    rw [hnone]
    cases room - (s.take room).length <;> simp [fgetsLoop]

/-- The buffers that the calls fill one after the other. -/
def buffers (nl : α) (size : Nat) (s : List α) : List (List α) :=
  (endedLines nl s).flatMap (fun l => pieces (size - 1) (l ++ [nl])) ++ pieces (size - 1) (lastLine nl s)

theorem buffers_of_notMem {s : List α} (h : nl ∉ s) (size : Nat) : buffers nl size s = pieces (size - 1) s := by
  simp [buffers, endedLines_of_notMem h]

theorem buffers_append {line : List α} (h : nl ∉ line) (size : Nat) (rest : List α) :
    buffers nl size (line ++ nl :: rest) = pieces (size - 1) (line ++ [nl]) ++ buffers nl size rest := by
  simp [buffers, endedLines_append h]

/-- A line that fits the buffer is read whole. -/
theorem fgets_line {line : List α} (hline : nl ∉ line) {size : Nat} (hlen : line.length < size - 1)
    (rest : List α) : fgets nl size (line ++ nl :: rest) = some (line ++ [nl], rest) := by
  obtain ⟨k, hk⟩ := Nat.exists_eq_succ_of_ne_zero (Nat.sub_ne_zero_of_lt hlen)
  rw [fgets, if_neg (by simp), fgetsLoop_append hline hlen.le, hk]
  simp [fgetsLoop]

/-- When the buffer is full before the line ends, what is left of the line comes next. -/
theorem buffers_of_full {size : Nat} (hsize : 1 < size) {s : List α} (hs : s ≠ [])
    (hfull : nl ∉ s.take (size - 1)) :
    buffers nl size s = s.take (size - 1) :: buffers nl size (s.drop (size - 1)) := by
  have hpos : 0 < size - 1 := Nat.sub_pos_of_lt hsize
  by_cases hnl : nl ∈ s
  · obtain ⟨line, rest, rfl, hline⟩ := List.eq_append_cons_of_mem hnl
    have hlen : size - 1 ≤ line.length := by
      by_contra hlt
      obtain ⟨k, hk⟩ := Nat.exists_eq_succ_of_ne_zero (Nat.sub_ne_zero_of_lt (Nat.lt_of_not_le hlt))
      refine hfull ?_
      rw [List.take_append, List.take_of_length_le (by omega), hk]
      simp
    rw [buffers_append hline, pieces_eq_cons hpos (by simp), List.take_append_of_le_length hlen,
      List.take_append_of_le_length hlen, List.drop_append_of_le_length hlen,
      List.drop_append_of_le_length hlen, buffers_append fun h => hline (List.mem_of_mem_drop h)]
    rfl
  · rw [buffers_of_notMem hnl, pieces_eq_cons hpos hs, buffers_of_notMem fun h => hnl (List.mem_of_mem_drop h)]

/-- A call fills the first of the buffers and leaves the others. -/
theorem fgets_buffers {size : Nat} (hsize : 1 < size) {s : List α} (hs : s ≠ []) :
    ∃ b rest, fgets nl size s = some (b, rest) ∧ rest.length < s.length ∧
      buffers nl size s = b :: buffers nl size rest := by
  have hpos := List.length_pos_iff.mpr hs
  by_cases hfull : nl ∈ s.take (size - 1)
  · obtain ⟨line, t, htake, hline⟩ := List.eq_append_cons_of_mem hfull
    have hlen : line.length < size - 1 := by
      have hle := congrArg List.length htake
      simp only [List.length_take, List.length_append, List.length_cons] at hle
      omega
    have hsplit : s = line ++ nl :: (t ++ s.drop (size - 1)) := by
      rw [← List.cons_append, ← List.append_assoc, ← htake, List.take_append_drop]
    generalize t ++ s.drop (size - 1) = rest at hsplit
    subst hsplit
    refine ⟨line ++ [nl], rest, fgets_line hline hlen rest, by simp; omega, ?_⟩
    rw [buffers_append hline, pieces_of_le (by simp) (by simp; omega)]
    rfl
  · refine ⟨s.take (size - 1), s.drop (size - 1), ?_, by simp; omega, buffers_of_full hsize hs hfull⟩
    rw [fgets, if_neg hs, fgetsLoop_take hfull]

end Lines

end VoidCache
