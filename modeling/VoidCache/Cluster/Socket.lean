import VoidCache.Cli.Lines
import VoidCache.Net.Reply

/-!
# The sockets of the cluster client

The readers of `cluster.c`. The stream is the list of bytes that arrive before a read fails. A
reader says what it returns, what it leaves in the caller's buffer and what it leaves of the
stream, and does so also when it fails: its callers often go on.
-/
namespace VoidCache

/-- What `sock_readline` leaves. -/
structure LineRead where
  ok : Bool
  buf : List UInt8
  rest : List UInt8
  deriving DecidableEq, Repr

/-- `sock_readline` into `buf`. A line is stored with its CR LF, and the CR made a zero. -/
def sockReadline (maxlen : Nat) (buf s : List UInt8) : LineRead :=
  match readLineLoop (maxlen - 1) [] s with
  | some (line, rest) => ⟨true, line ++ 0 :: 10 :: buf.drop (line.length + 2), rest⟩
  | none =>
    let got := s.take (maxlen - 1)
    ⟨false, got ++ buf.drop got.length, s.drop (maxlen - 1)⟩

/-- What `sock_readn` leaves: the bytes it has stored and the rest of the stream. -/
structure BytesRead where
  ok : Bool
  got : List UInt8
  rest : List UInt8
  deriving DecidableEq, Repr

def sockReadn (n : Nat) (s : List UInt8) : BytesRead := ⟨n ≤ s.length, s.take n, s.drop n⟩

/-- `strdup` of the zero-terminated text. -/
def strdup (mallocOk : Nat → Bool) (text : List UInt8) : Option (List UInt8) :=
  if mallocOk ((cstr text).length + 1) then some (cstr text) else none

theorem eq_of_strdup {mallocOk : Nat → Bool} {text r : List UInt8} (h : strdup mallocOk text = some r) :
    r = cstr text := by
  unfold strdup at h
  split at h
  · exact (Option.some.inj h).symm
  · cases h

/-- What follows the first line of a reply, which is in `line`. -/
def replyOfLine (mallocOk : Nat → Bool) (line s : List UInt8) : Option (List UInt8) × List UInt8 :=
  let rest := line.tail
  match line.headD 0 with
  | 43 | 45 | 58 => (strdup mallocOk rest, s)
  | 36 =>
    let blen := atoll rest
    if blen < 0 then (strdup mallocOk [], s)
    else if !mallocOk (blen.toNat + 3) then (none, s)
    else
      let r := sockReadn (blen.toNat + 2) s
      (if r.ok then some (r.got.take blen.toNat) else none, r.rest)
  -- the elements of an array are not read
  | 42 => (strdup mallocOk (42 :: decimalInt (atoll rest)), s)
  | _ => (none, s)

/-- `resp_read_reply`: the reply, and what is left of the stream. -/
def respReadReply (mallocOk : Nat → Bool) (s : List UInt8) : Option (List UInt8) × List UInt8 :=
  let l := sockReadline 1024 [] s
  if l.ok then replyOfLine mallocOk l.buf l.rest else (none, l.rest)

/-! ## Lines and bulk strings -/

theorem sockReadline_line {maxlen : Nat} {line : List UInt8} (buf rest : List UInt8)
    (hlen : line.length + 2 < maxlen) (h : NoCrlf line) :
    sockReadline maxlen buf (line ++ crlf ++ rest) =
      ⟨true, line ++ 0 :: 10 :: buf.drop (line.length + 2), rest⟩ := by
  rw [sockReadline, readLineLoop_line rest [] (maxlen - 1) (by omega) h]
  rfl

theorem sockReadline_ok {maxlen : Nat} {buf s : List UInt8} (h : (sockReadline maxlen buf s).ok = true) :
    ∃ line, line ++ crlf ++ (sockReadline maxlen buf s).rest = s ∧
      (sockReadline maxlen buf s).buf = line ++ 0 :: 10 :: buf.drop (line.length + 2) := by
  unfold sockReadline at h ⊢
  cases hl : readLineLoop (maxlen - 1) [] s with
  | none => simp [hl] at h
  | some x => exact ⟨x.1, readLineLoop_eq hl, rfl⟩

/-- A line can be read if its CR LF comes while there is room. -/
theorem sockReadline_ok_iff (maxlen : Nat) (buf s : List UInt8) :
    (sockReadline maxlen buf s).ok = true ↔
      ∃ line rest, s = line ++ crlf ++ rest ∧ NoCrlf line ∧ line.length + 2 < maxlen := by
  constructor
  · intro h
    unfold sockReadline at h
    cases hl : readLineLoop (maxlen - 1) [] s with
    | none => simp [hl] at h
    | some x =>
      obtain ⟨hno, hlen⟩ := readLineLoop_short hl (noCrlf_of_plain nofun)
      refine ⟨x.1, x.2, (readLineLoop_eq hl).symm, hno, ?_⟩
      rw [List.length_nil] at hlen
      omega
  · rintro ⟨line, rest, rfl, hno, hlen⟩
    rw [sockReadline_line buf rest hlen hno]

theorem sockReadline_long {maxlen : Nat} {line : List UInt8} (buf rest : List UInt8)
    (hlen : maxlen ≤ line.length + 2) (h : NoCrlf line) :
    (sockReadline maxlen buf (line ++ crlf ++ rest)).ok = false := by
  refine Bool.eq_false_iff.mpr fun hok => ?_
  obtain ⟨line', rest', hs, hno, hlen'⟩ := (sockReadline_ok_iff _ _ _).mp hok
  rw [List.append_assoc, List.append_assoc] at hs
  have hsame : some line.length = some line'.length := by
    rw [← findCrlf_line h rest, hs, findCrlf_line hno]
  have := Option.some.inj hsame
  omega

theorem sockReadline_nil (maxlen : Nat) (buf : List UInt8) :
    sockReadline maxlen buf [] = ⟨false, buf, []⟩ := by
  unfold sockReadline
  cases maxlen - 1 <;> simp [readLineLoop]

end VoidCache
