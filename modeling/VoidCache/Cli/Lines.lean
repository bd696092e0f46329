import VoidCache.Net.Parse

/-!
# Lines from a socket

Both clients read the lines of a reply byte by byte until they have seen CR LF, up to the size of
their buffer. A stream is the list of bytes that will arrive.
-/
namespace VoidCache

/-- The loop of `read_line` and `sock_readline`, with room for `n` more bytes, after it has read
`line`. -/
def readLineLoop : Nat → List UInt8 → List UInt8 → Option (List UInt8 × List UInt8)
  | 0, _, _ => none
  | _ + 1, _, [] => none
  | n + 1, line, ch :: s =>
    let line := line ++ [ch]
    if crlf <:+ line then some (line.take (line.length - 2), s) else readLineLoop n line s

def atoll (s : List UInt8) : Int := (strtoll s).value

/-- The loop stops at the first pair, which is the one behind the text. -/
theorem readLineLoop_line {text : List UInt8} (rest : List UInt8) (line : List UInt8) (n : Nat)
    (hn : text.length + 2 ≤ n) (h : NoCrlf (line ++ text)) :
    readLineLoop n line (text ++ crlf ++ rest) = some (line ++ text, rest) := by
  induction text generalizing line n with
  | nil =>
    obtain ⟨n, rfl⟩ : ∃ k, n = k + 2 := ⟨n - 2, by simp at hn; omega⟩
    have hcr : ¬ crlf <:+ line ++ [13] := by
      intro hs
      have := hs.getLast (by decide)
      simp [crlf] at this
    have hend : crlf <:+ line ++ [13] ++ [10] := ⟨line, by simp [crlf]⟩
    show readLineLoop (n + 2) line (13 :: 10 :: rest) = _
    rw [readLineLoop, if_neg hcr, readLineLoop, if_pos hend]
    simp
  | cons ch text ih =>
    obtain ⟨n, rfl⟩ : ∃ k, n = k + 1 := ⟨n - 1, by simp at hn; omega⟩
    have hnot : ¬ crlf <:+ line ++ [ch] := fun hs =>
      h (hs.isInfix.trans ⟨[], text, by simp⟩)
    rw [List.cons_append, List.cons_append, readLineLoop, if_neg hnot,
      ih (line ++ [ch]) n (by simpa using hn) (by simpa using h)]
    simp

/-- A line that was read, its CR LF and what is left are all there was. -/
theorem readLineLoop_eq {n : Nat} {line s out rest : List UInt8}
    (h : readLineLoop n line s = some (out, rest)) : out ++ crlf ++ rest = line ++ s := by
  induction n generalizing line s with
  | zero => cases h
  | succ n ih =>
    cases s with
    | nil => cases h
    | cons ch s =>
      unfold readLineLoop at h
      dsimp only at h
      split_ifs at h with hend
      · obtain ⟨t, ht⟩ := hend
        obtain ⟨rfl, rfl⟩ := Prod.mk.inj (Option.some.inj h)
        have hline : (line ++ [ch]).take ((line ++ [ch]).length - 2) = t := by simp [← ht, crlf]
        rw [hline, ht]
        simp
      · simpa using ih h

/-- A line that was read ends at the first CR LF, for which there was room. -/
theorem readLineLoop_short {n : Nat} {line s out rest : List UInt8}
    (h : readLineLoop n line s = some (out, rest)) (hline : NoCrlf line) :
    NoCrlf out ∧ out.length + 2 ≤ line.length + n := by
  induction n generalizing line s with
  | zero => cases h
  | succ n ih =>
    cases s with
    | nil => cases h
    | cons ch s =>
      unfold readLineLoop at h
      dsimp only at h
      split_ifs at h with hend
      · obtain ⟨t, ht⟩ := hend
        obtain ⟨rfl, rfl⟩ := Prod.mk.inj (Option.some.inj h)
        have hlen : t.length + 1 = line.length := by
          simpa [crlf] using congrArg List.length ht
        have hout : (line ++ [ch]).take ((line ++ [ch]).length - 2) = t := by simp [← ht, crlf]
        have hstart : t <+: line ++ [ch] := ⟨crlf, ht⟩
        have hpre : t <+: line := List.prefix_of_prefix_length_le hstart (List.prefix_append _ _) (by omega)
        rw [hout]
        exact ⟨fun hin => hline (hin.trans hpre.isInfix), by omega⟩
      · have hnext : NoCrlf (line ++ [ch]) := by
          intro hin
          rcases List.infix_concat_iff.mp hin with hs | hi
          · exact hend hs
          · exact hline hi
        obtain ⟨hno, hlen⟩ := ih h hnext
        rw [List.length_append, List.length_singleton] at hlen
        exact ⟨hno, by omega⟩
end VoidCache
