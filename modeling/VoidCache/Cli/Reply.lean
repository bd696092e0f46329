import VoidCache.Cli.Lines
import VoidCache.Net.Reply

/-!
# The reply reader of the command line client

`print_reply` reads one reply from the connection and prints it. The model follows what it
takes from the stream: the lines, the lengths and counts in them, and the recursion into
arrays, maps and sets; what is printed is left out. A stream is the list of bytes that will
arrive. The result is what is left of it when `print_reply` returns 0, or `none` when it
returns -1.
-/
namespace VoidCache

/-! ## Lines and counted bytes -/

def readLine (maxlen : Nat) (s : List UInt8) : Option (List UInt8 × List UInt8) :=
  readLineLoop (maxlen - 1) [] s

/-- However the bytes arrive, `n` of them are taken. -/
def readExactly (n : Nat) (s : List UInt8) : Option (List UInt8) :=
  if n ≤ s.length then some (s.drop n) else none

theorem readLine_line {line : List UInt8} (rest : List UInt8) (hlen : line.length + 2 ≤ 4095)
    (h : NoCrlf line) : readLine 4096 (line ++ crlf ++ rest) = some (line, rest) :=
  readLineLoop_line rest [] 4095 hlen h

/-! ## The reader -/

/-- `n` replies in a row. -/
def repeatReply (p : List UInt8 → Option (List UInt8)) : Nat → List UInt8 → Option (List UInt8)
  | 0, s => some s
  | n + 1, s => (p s).bind (repeatReply p n)

/-- What follows the first line of a reply; `p` reads the replies inside it. -/
def replyBody (p : List UInt8 → Option (List UInt8)) (line s : List UInt8) : Option (List UInt8) :=
  let n := atoll line.tail
  match line.headD 0 with
  -- simple string, error, integer, double, boolean and null are their line
  | 43 | 45 | 58 | 44 | 35 | 95 => some s
  | 36 => if n < 0 then some s else readExactly (n.toNat + 2) s
  | 42 => if n ≤ 0 then some s else repeatReply p n.toNat s
  | 37 => repeatReply (fun s => (p s).bind p) n.toNat s
  | 126 => repeatReply p n.toNat s
  -- the result of `read_exactly` is not looked at here; a negative length is out of bounds
  | 33 => if n < 0 then none else some (s.drop (n.toNat + 2))
  | _ => none

/-- `print_reply` with a bound on the depth of its recursion. -/
def printReplyFor : Nat → List UInt8 → Option (List UInt8)
  | 0, _ => none
  | depth + 1, s =>
    match readLine 4096 s with
    | none => none
    | some (line, s) => replyBody (printReplyFor depth) line s

/-- Each level of the recursion has read a line, so the length of the stream bounds the depth. -/
def printReply (s : List UInt8) : Option (List UInt8) := printReplyFor (s.length + 1) s

/-! ## The bound does not matter -/

/-- The reader leaves a part of what it was given. -/
def Shrinks (p : List UInt8 → Option (List UInt8)) : Prop :=
  ∀ s r, p s = some r → r.length ≤ s.length

/-- The two readers agree on streams of at most `n` bytes. -/
def AgreeUpTo (n : Nat) (p q : List UInt8 → Option (List UInt8)) : Prop :=
  ∀ s, s.length ≤ n → p s = q s

section Bound

variable {p q : List UInt8 → Option (List UInt8)}

theorem Shrinks.bind (hp : Shrinks p) (hq : Shrinks q) : Shrinks fun s => (p s).bind q := by
  intro s r h
  obtain ⟨t, ht, hr⟩ := Option.bind_eq_some_iff.mp h
  exact (hq t r hr).trans (hp s t ht)

theorem Shrinks.repeat (hp : Shrinks p) (n : Nat) : Shrinks (repeatReply p n) := by
  induction n with
  | zero => exact fun s r h => (Option.some.inj h) ▸ le_refl _
  | succ n ih => exact hp.bind ih

theorem AgreeUpTo.bind {n : Nat} {p' q' : List UInt8 → Option (List UInt8)} (h : AgreeUpTo n p q)
    (h' : AgreeUpTo n p' q') (hp : Shrinks p) : AgreeUpTo n (fun s => (p s).bind p') fun s => (q s).bind q' := by
  intro s hs
  show (p s).bind p' = (q s).bind q'
  rw [← h s hs]
  cases hr : p s with
  | none => rfl
  | some r => exact h' r ((hp s r hr).trans hs)

theorem AgreeUpTo.repeat {n : Nat} (h : AgreeUpTo n p q) (hp : Shrinks p) (k : Nat) :
    AgreeUpTo n (repeatReply p k) (repeatReply q k) := by
  induction k with
  | zero => exact fun _ _ => rfl
  | succ k ih => exact h.bind ih hp

theorem readLineLoop_length {n : Nat} {line s out r : List UInt8}
    (h : readLineLoop n line s = some (out, r)) : r.length < s.length := by
  induction n generalizing line s with
  | zero => cases h
  | succ n ih =>
    cases s with
    | nil => cases h
    | cons ch s =>
      unfold readLineLoop at h
      dsimp only at h
      split_ifs at h
      · obtain ⟨-, rfl⟩ := Prod.mk.inj (Option.some.inj h)
        exact Nat.lt_succ_self _
      · exact (ih h).trans (Nat.lt_succ_self _)

theorem readExactly_length {n : Nat} : Shrinks (readExactly n) := by
  intro s r h
  unfold readExactly at h
  split_ifs at h
  rw [← Option.some.inj h, List.length_drop]
  omega

theorem Shrinks.replyBody (hp : Shrinks p) (line : List UInt8) : Shrinks (replyBody p line) := by
  intro s r h
  unfold VoidCache.replyBody at h
  have hself : some s = some r → r.length ≤ s.length := fun he => (Option.some.inj he) ▸ le_refl _
  dsimp only at h
  split at h
  case h_1 | h_2 | h_3 | h_4 | h_5 | h_6 => exact hself h
  · split_ifs at h
    · exact hself h
    · exact readExactly_length s r h
  · split_ifs at h
    · exact hself h
    · exact hp.repeat _ s r h
  · exact (hp.bind hp).repeat _ s r h
  · exact hp.repeat _ s r h
  · split_ifs at h
    rw [← Option.some.inj h, List.length_drop]
    omega
  · cases h

theorem AgreeUpTo.replyBody {s : List UInt8} (h : AgreeUpTo s.length p q) (hp : Shrinks p)
    (line : List UInt8) : replyBody p line s = replyBody q line s := by
  unfold VoidCache.replyBody
  dsimp only
  rw [h.repeat hp _ s (le_refl _), (h.bind h hp).repeat (hp.bind hp) _ s (le_refl _)]

theorem printReplyFor_shrinks (depth : Nat) : Shrinks (printReplyFor depth) := by
  induction depth with
  | zero => exact fun _ _ h => nomatch h
  | succ depth ih =>
    intro s r h
    unfold printReplyFor at h
    split at h
    · cases h
    · rename_i line s' hl
      exact (ih.replyBody line s' r h).trans (readLineLoop_length hl).le

/-- Bounds above the length of the stream give the same result. -/
theorem printReplyFor_agree {n m : Nat} {s : List UInt8} (hn : s.length < n) (hm : s.length < m) :
    printReplyFor n s = printReplyFor m s := by
  induction n generalizing m s with
  | zero => omega
  | succ n ih =>
    obtain ⟨m, rfl⟩ : ∃ k, m = k + 1 := ⟨m - 1, by omega⟩
    unfold printReplyFor
    cases hl : readLine 4096 s with
    | none => rfl
    | some x =>
      have hlt : x.2.length < s.length := readLineLoop_length hl
      refine AgreeUpTo.replyBody (fun t ht => ih ?_ ?_) (printReplyFor_shrinks n) x.1 <;> omega

end Bound

/-! ## What the server writes -/

/-- The replies that the writers of the server make: lines of at most 4095 bytes, and lengths
and counts that are those of what follows. -/
inductive Written : List UInt8 → Prop where
  | simple {s : List UInt8} (h : NoCrlf s) (hlen : (43 :: s ++ crlf).length ≤ 4095) :
      Written (43 :: s ++ crlf)
  | error {s : List UInt8} (h : NoCrlf s) (hlen : (45 :: s ++ crlf).length ≤ 4095) :
      Written (45 :: s ++ crlf)
  | integer {n : Int} (h : -2 ^ 63 ≤ n ∧ n < 2 ^ 63) : Written (respWriteInteger n)
  | boolean (v : Bool) : Written (respWriteBool v)
  | null (resp3 : Bool) : Written (respWriteNullCompat resp3)
  | bulk {data : List UInt8} (h : data.length < 2 ^ 63) : Written (respWriteBulk data)
  | array (parts : List (List UInt8)) (hcount : parts.length < 2 ^ 63) (h : ∀ p ∈ parts, Written p) :
      Written (respWriteArrayHeader parts.length ++ parts.flatten)
  | map (pairs : List (List UInt8 × List UInt8)) (hcount : pairs.length < 2 ^ 63)
      (hk : ∀ p ∈ pairs, Written p.1) (hv : ∀ p ∈ pairs, Written p.2) :
      Written (respWriteMapHeader pairs.length ++ (pairs.map fun p => p.1 ++ p.2).flatten)

/-- A simple string that `buf_printf` can format. -/
theorem written_respWriteSimple {s : List UInt8} (h : NoCrlf s) (hlen : s.length + 3 < 256) :
    Written (respWriteSimple s) := by
  rw [respWriteSimple, bufPrintf_eq (by simp [crlf]; omega)]
  exact .simple h (by simp [crlf]; omega)

theorem written_respWriteError {code msg : List UInt8} (h : NoCrlf (code ++ 32 :: msg))
    (hlen : code.length + msg.length + 4 < 256) : Written (respWriteError code msg) := by
  rw [respWriteError, bufPrintf_eq (by simp [crlf]; omega)]
  have hw := Written.error h (by simp [crlf]; omega)
  simpa using hw

/-- The reader takes exactly one reply from the front of any stream. -/
def Consumed (w : List UInt8) : Prop :=
  ∀ depth rest, w.length ≤ depth → printReplyFor depth (w ++ rest) = some rest

section Reads

variable {text : List UInt8} {c : UInt8}

theorem printReplyFor_line (depth : Nat) (rest : List UInt8) (hlen : (c :: text).length + 2 ≤ 4095)
    (h : NoCrlf (c :: text)) :
    printReplyFor (depth + 1) (c :: text ++ crlf ++ rest) =
      replyBody (printReplyFor depth) (c :: text) rest := by
  rw [printReplyFor, readLine_line rest hlen h]

/-- Replies that are one line. -/
theorem consumed_line (hlen : (c :: text ++ crlf).length ≤ 4095) (h : NoCrlf (c :: text))
    (hbody : ∀ p s, replyBody p (c :: text) s = some s) : Consumed (c :: text ++ crlf) := by
  intro depth rest hd
  obtain ⟨depth, rfl⟩ : ∃ k, depth = k + 1 := ⟨depth - 1, by simp at hd; omega⟩
  rw [printReplyFor_line depth rest (by simp [crlf] at hlen ⊢; omega) h, hbody]

theorem repeatReply_flatten {p : List UInt8 → Option (List UInt8)} (parts : List (List UInt8))
    (h : ∀ w ∈ parts, ∀ rest, p (w ++ rest) = some rest) (rest : List UInt8) :
    repeatReply p parts.length (parts.flatten ++ rest) = some rest := by
  induction parts with
  | nil => rfl
  | cons w parts ih =>
    rw [List.length_cons, repeatReply, List.flatten_cons, List.append_assoc,
      h w (List.mem_cons_self ..)]
    exact ih fun v hv => h v (List.mem_cons_of_mem w hv)

/-- A header with a count has a short line, and the reader gets the count. -/
theorem decimal_line {n : Nat} (hn : n < 2 ^ 63) (hc : c ≠ 13) :
    (c :: decimal n).length + 2 ≤ 4095 ∧ NoCrlf (c :: decimal n) ∧ atoll (decimal n) = n := by
  have hlen : (decimal n).length ≤ 19 := length_decimal_le (by decide) (by omega)
  refine ⟨by simp; omega, noCrlf_of_plain (cr_notMem_decimal hc n), ?_⟩
  rw [atoll, strtoll_decimal hn]

theorem consumed_integer {n : Int} (h : -2 ^ 63 ≤ n ∧ n < 2 ^ 63) : Consumed (respWriteInteger n) := by
  have hlen : (decimal n.natAbs).length ≤ 19 := length_decimal_le (by decide) (by omega)
  have hplain : ∀ b ∈ decimalInt n, b ≠ 13 := by
    intro b hb
    unfold decimalInt at hb
    split_ifs at hb
    · exact cr_notMem_decimal (by decide) _ b hb
    · exact (isDigit_plain (isDigit_of_mem_decimal hb)).2.2.2.1
  have hlen' : (decimalInt n).length ≤ 20 := by
    unfold decimalInt
    split_ifs
    · rw [List.length_cons]
      omega
    · omega
  refine consumed_line (by simp [crlf]; omega) ((noCrlf_of_plain hplain).cons (by decide)) ?_
  exact fun _ _ => rfl

theorem consumed_bulk {data : List UInt8} (h : data.length < 2 ^ 63) : Consumed (respWriteBulk data) := by
  intro depth rest hd
  obtain ⟨depth, rfl⟩ : ∃ k, depth = k + 1 := ⟨depth - 1, by simp [respWriteBulk] at hd; omega⟩
  obtain ⟨hlen, hno, hn⟩ := decimal_line (c := 36) h (by decide)
  have hstream : respWriteBulk data ++ rest =
      36 :: decimal data.length ++ crlf ++ (data ++ crlf ++ rest) := by simp [respWriteBulk]
  have hbody : replyBody (printReplyFor depth) (36 :: decimal data.length) (data ++ crlf ++ rest) =
      readExactly (data.length + 2) (data ++ crlf ++ rest) := by
    show (if atoll (decimal data.length) < 0 then _
      else readExactly ((atoll (decimal data.length)).toNat + 2) _) = _
    rw [hn, if_neg (by omega), Int.toNat_natCast]
  rw [hstream, printReplyFor_line depth _ hlen hno, hbody, readExactly,
    if_pos (by simp [crlf]), List.drop_left' (by simp [crlf])]

theorem length_le_of_mem_flatten {parts : List (List UInt8)} {w : List UInt8} (h : w ∈ parts) :
    w.length ≤ parts.flatten.length := (List.sublist_flatten_of_mem h).length_le

theorem consumed_array {parts : List (List UInt8)} (hcount : parts.length < 2 ^ 63)
    (h : ∀ p ∈ parts, Consumed p) : Consumed (respWriteArrayHeader parts.length ++ parts.flatten) := by
  intro depth rest hd
  obtain ⟨depth, rfl⟩ : ∃ k, depth = k + 1 :=
    ⟨depth - 1, by simp [respWriteArrayHeader] at hd; omega⟩
  obtain ⟨hlen, hno, hn⟩ := decimal_line (c := 42) hcount (by decide)
  have hbody : replyBody (printReplyFor depth) (42 :: decimal parts.length) (parts.flatten ++ rest) =
      repeatReply (printReplyFor depth) parts.length (parts.flatten ++ rest) := by
    show (if atoll (decimal parts.length) ≤ 0 then _
      else repeatReply _ (atoll (decimal parts.length)).toNat _) = _
    rw [hn]
    split_ifs with hzero
    · obtain rfl : parts = [] := List.length_eq_zero_iff.mp (by omega)
      rfl
    · rw [Int.toNat_natCast]
  rw [respWriteArrayHeader, List.append_assoc, printReplyFor_line depth _ hlen hno, hbody]
  refine repeatReply_flatten parts (fun w hw rest => h w hw depth rest ?_) rest
  have hle := length_le_of_mem_flatten hw
  simp only [respWriteArrayHeader, List.length_append, List.length_cons] at hd
  omega

theorem consumed_map {pairs : List (List UInt8 × List UInt8)} (hcount : pairs.length < 2 ^ 63)
    (hk : ∀ p ∈ pairs, Consumed p.1) (hv : ∀ p ∈ pairs, Consumed p.2) :
    Consumed (respWriteMapHeader pairs.length ++ (pairs.map fun p => p.1 ++ p.2).flatten) := by
  intro depth rest hd
  obtain ⟨depth, rfl⟩ : ∃ k, depth = k + 1 :=
    ⟨depth - 1, by simp [respWriteMapHeader] at hd; omega⟩
  obtain ⟨hlen, hno, hn⟩ := decimal_line (c := 37) hcount (by decide)
  have hbody (s : List UInt8) : replyBody (printReplyFor depth) (37 :: decimal pairs.length) s =
      repeatReply (fun s => (printReplyFor depth s).bind (printReplyFor depth)) pairs.length s := by
    show repeatReply _ (atoll (decimal pairs.length)).toNat s = _
    rw [hn, Int.toNat_natCast]
  rw [respWriteMapHeader, List.append_assoc, printReplyFor_line depth _ hlen hno, hbody]
  have hread := repeatReply_flatten (p := fun s => (printReplyFor depth s).bind (printReplyFor depth))
    (pairs.map fun p => p.1 ++ p.2) ?_ rest
  · rwa [List.length_map] at hread
  · intro w hw rest
    have hle := length_le_of_mem_flatten hw
    obtain ⟨p, hp, rfl⟩ := List.mem_map.mp hw
    simp only [respWriteMapHeader, List.length_append, List.length_cons] at hd hle
    rw [List.append_assoc, hk p hp depth _ (by omega), Option.bind_some, hv p hp depth rest (by omega)]

end Reads

theorem Written.consumed {w : List UInt8} (h : Written w) : Consumed w := by
  induction h with
  | simple h hlen => exact consumed_line hlen (h.cons (by decide)) fun _ _ => rfl
  | error h hlen => exact consumed_line hlen (h.cons (by decide)) fun _ _ => rfl
  | integer h => exact consumed_integer h
  | boolean v =>
    cases v
    · exact @consumed_line [102] 35 (by decide) (by decide) fun _ _ => rfl
    · exact @consumed_line [116] 35 (by decide) (by decide) fun _ _ => rfl
  | null resp3 =>
    cases resp3
    · exact @consumed_line [45, 49] 36 (by decide) (by decide) fun _ _ => rfl
    · exact @consumed_line [] 95 (by decide) (by decide) fun _ _ => rfl
  | bulk h => exact consumed_bulk h
  | array parts hcount _ ih => exact consumed_array hcount ih
  | map pairs hcount _ _ ihk ihv => exact consumed_map hcount ihk ihv

/-- The client takes exactly one reply of the server from the stream and leaves what follows. -/
theorem print_reply_exact {w : List UInt8} (h : Written w) (rest : List UInt8) :
    printReply (w ++ rest) = some rest :=
  h.consumed _ rest (by simp; omega)

theorem nested_reply_read :
    printReply (respWriteArrayHeader 2 ++
      [respWriteBulk (str "a\r\nb"), respWriteError (str "ERR") (str "no")].flatten ++ str "+OK\r\n") =
      some (str "+OK\r\n") := by
  refine print_reply_exact (.array [respWriteBulk (str "a\r\nb"), respWriteError (str "ERR") (str "no")]
    (by decide) fun p hp => ?_) _
  rcases List.mem_pair.mp hp with rfl | rfl
  · exact .bulk (by decide)
  · exact written_respWriteError (by decide) (by decide)

end VoidCache
