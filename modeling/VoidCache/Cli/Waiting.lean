import VoidCache.Cli.Reply
import VoidCache.Lib.Reads

/-!
# The client waits for whole replies

The client reads from a blocking socket, so `none` also stands for a read that waits. `print_reply`
takes a reply of the server as a whole: while a part of it is missing it waits, and then it leaves
what follows. The same holds for the reply to `HELLO`, which is read and dropped line by line.
-/
namespace VoidCache

section Parts

variable {line w : List UInt8} {n : Nat}

theorem readLine_reads (hlen : line.length + 2 ≤ n - 1) (h : NoCrlf line) :
    ReadsAs (readLine n) (line ++ crlf) line where
  all rest := readLineLoop_line rest [] (n - 1) hlen h
  waits s hs hne := by
    cases hread : readLine n s with
    | none => rfl
    | some x =>
      exfalso
      have hstream : x.1 ++ crlf ++ x.2 = s := readLineLoop_eq hread
      have hlt : s.length < (line ++ crlf).length :=
        lt_of_le_of_ne hs.length_le fun heq => hne (hs.eq_of_length heq)
      have hends : x.1 ++ crlf <+: line ++ crlf := List.IsPrefix.trans ⟨x.2, hstream⟩ hs
      have hcr : x.1 ++ crlf <+: line ++ [13] := by
        have hpart : line ++ [13] <+: line ++ crlf := ⟨[10], by simp [crlf]⟩
        refine List.prefix_of_prefix_length_le hends hpart ?_
        have hle := congrArg List.length hstream
        simp only [List.length_append, crlf, List.length_cons, List.length_nil] at hle hlt ⊢
        omega
      rcases List.prefix_concat_iff.mp hcr with heq | ⟨t, ht⟩
      · have hlast := congrArg List.getLast? heq
        simp [crlf] at hlast
      · exact h ⟨x.1, t, ht⟩

theorem readExactly_reads (h : w.length = n) : Reads (readExactly n) w where
  all rest := by
    rw [readExactly, if_pos (by simp [h]), List.drop_left' h]
  waits s hs hne := by
    have hlt : s.length < w.length := lt_of_le_of_ne hs.length_le fun heq => hne (hs.eq_of_length heq)
    rw [readExactly, if_neg (by omega)]

theorem repeatReply_reads {p : List UInt8 → Option (List UInt8)} {parts : List (List UInt8)}
    (h : ∀ w ∈ parts, Reads p w) : Reads (repeatReply p parts.length) parts.flatten := by
  induction parts with
  | nil => exact .nothing
  | cons w parts ih =>
    obtain ⟨hw, hparts⟩ := List.forall_mem_cons.mp h
    exact hw.bind (ih hparts)

end Parts

/-! ## Replies -/

/-- `print_reply` without a bound on its recursion. -/
theorem printReply_eq (s : List UInt8) :
    printReply s = (readLine 4096 s).bind fun x => replyBody printReply x.1 x.2 := by
  rw [printReply, printReplyFor]
  cases hread : readLine 4096 s with
  | none => rfl
  | some x =>
    have hlt : x.2.length < s.length := readLineLoop_length hread
    refine AgreeUpTo.replyBody (fun t ht => ?_) (printReplyFor_shrinks _) x.1
    exact printReplyFor_agree (by omega) (by omega)

section Replies

variable {text w data : List UInt8} {c : UInt8}

theorem printReply_reads (hlen : (c :: text).length + 2 ≤ 4095) (h : NoCrlf (c :: text))
    (hbody : Reads (replyBody printReply (c :: text)) w) : Reads printReply (c :: text ++ crlf ++ w) :=
  ((readLine_reads hlen h).bind hbody).congr printReply_eq

theorem reads_line (hlen : (c :: text ++ crlf).length ≤ 4095) (h : NoCrlf (c :: text))
    (hbody : ∀ p s, replyBody p (c :: text) s = some s) : Reads printReply (c :: text ++ crlf) := by
  have hread := printReply_reads (by simp [crlf] at hlen ⊢; omega) h (Reads.nothing.congr (hbody printReply))
  rwa [List.append_nil] at hread

theorem integer_line {n : Int} (h : -2 ^ 63 ≤ n ∧ n < 2 ^ 63) :
    (58 :: decimalInt n).length ≤ 21 ∧ NoCrlf (58 :: decimalInt n) := by
  have hlen : (decimal n.natAbs).length ≤ 19 := length_decimal_le (by decide) (by omega)
  have hplain : ∀ b ∈ decimalInt n, b ≠ 13 := by
    intro b hb
    unfold decimalInt at hb
    split_ifs at hb
    · exact cr_notMem_decimal (by decide) _ b hb
    · exact (isDigit_plain (isDigit_of_mem_decimal hb)).2.2.2.1
  refine ⟨?_, (noCrlf_of_plain hplain).cons (by decide)⟩
  unfold decimalInt
  split_ifs <;> simp only [List.length_cons] <;> omega

theorem reads_bulk (h : data.length < 2 ^ 63) : Reads printReply (respWriteBulk data) := by
  obtain ⟨hlen, hno, hn⟩ := @decimal_line 36 data.length h (by decide)
  have hbody (s : List UInt8) :
      replyBody printReply (36 :: decimal data.length) s = readExactly (data.length + 2) s := by
    show (if atoll (decimal data.length) < 0 then _
      else readExactly ((atoll (decimal data.length)).toNat + 2) _) = _
    rw [hn, if_neg (by omega), Int.toNat_natCast]
  have hdata : Reads (readExactly (data.length + 2)) (data ++ crlf) := readExactly_reads (by simp [crlf])
  have hread := printReply_reads hlen hno (hdata.congr hbody)
  simpa [respWriteBulk] using hread

theorem reads_array {parts : List (List UInt8)} (hcount : parts.length < 2 ^ 63)
    (h : ∀ w ∈ parts, Reads printReply w) :
    Reads printReply (respWriteArrayHeader parts.length ++ parts.flatten) := by
  obtain ⟨hlen, hno, hn⟩ := @decimal_line 42 parts.length hcount (by decide)
  have hbody (s : List UInt8) : replyBody printReply (42 :: decimal parts.length) s =
      repeatReply printReply parts.length s := by
    show (if atoll (decimal parts.length) ≤ 0 then _
      else repeatReply _ (atoll (decimal parts.length)).toNat _) = _
    rw [hn]
    split_ifs with hzero
    · obtain rfl : parts = [] := List.length_eq_zero_iff.mp (by omega)
      rfl
    · rw [Int.toNat_natCast]
  exact printReply_reads hlen hno ((repeatReply_reads h).congr hbody)

theorem reads_map {pairs : List (List UInt8 × List UInt8)} (hcount : pairs.length < 2 ^ 63)
    (hk : ∀ p ∈ pairs, Reads printReply p.1) (hv : ∀ p ∈ pairs, Reads printReply p.2) :
    Reads printReply (respWriteMapHeader pairs.length ++ (pairs.map fun p => p.1 ++ p.2).flatten) := by
  obtain ⟨hlen, hno, hn⟩ := @decimal_line 37 pairs.length hcount (by decide)
  have hbody (s : List UInt8) : replyBody printReply (37 :: decimal pairs.length) s =
      repeatReply (fun s => (printReply s).bind printReply) pairs.length s := by
    show repeatReply _ (atoll (decimal pairs.length)).toNat s = _
    rw [hn, Int.toNat_natCast]
  have hpairs : ∀ w ∈ pairs.map fun p => p.1 ++ p.2, Reads (fun s => (printReply s).bind printReply) w := by
    intro w hw
    obtain ⟨p, hp, rfl⟩ := List.mem_map.mp hw
    exact (hk p hp).bind (hv p hp)
  have hall := repeatReply_reads hpairs
  rw [List.length_map] at hall
  exact printReply_reads hlen hno (hall.congr hbody)

end Replies

/-- A reply of the server is read as a whole. -/
theorem Written.reads {w : List UInt8} (h : Written w) : Reads printReply w := by
  induction h with
  | simple h hlen => exact reads_line hlen (h.cons (by decide)) fun _ _ => rfl
  | error h hlen => exact reads_line hlen (h.cons (by decide)) fun _ _ => rfl
  | @integer n h =>
    obtain ⟨hlen, hno⟩ := integer_line h
    exact reads_line (by simp [crlf] at hlen ⊢; omega) hno fun _ _ => rfl
  | boolean v =>
    cases v
    · exact @reads_line [102] 35 (by decide) (by decide) fun _ _ => rfl
    · exact @reads_line [116] 35 (by decide) (by decide) fun _ _ => rfl
  | null resp3 =>
    cases resp3
    · exact @reads_line [45, 49] 36 (by decide) (by decide) fun _ _ => rfl
    · exact @reads_line [] 95 (by decide) (by decide) fun _ _ => rfl
  | bulk h => exact reads_bulk h
  | array parts hcount _ ih => exact reads_array hcount ih
  | map pairs hcount _ _ ihk ihv => exact reads_map hcount ihk ihv

/-! ## The reply to HELLO -/

/-- Behind the line of a string that is not empty come its bytes. -/
def itemBody (line s : List UInt8) : Option (List UInt8) :=
  let n := atoll line.tail
  if line.headD 0 = 36 ∧ 0 < n then readExactly (n.toNat + 2) s else some s

/-- One value of the reply. -/
def dropItem (s : List UInt8) : Option (List UInt8) :=
  (readLine 256 s).bind fun x => itemBody x.1 x.2

def helloBody (line s : List UInt8) : Option (List UInt8) :=
  if line.headD 0 = 37 then repeatReply dropItem (atoll line.tail * 2).toNat s else some s

/-- Read the reply to `HELLO` and drop it. -/
def dropHello (s : List UInt8) : Option (List UInt8) :=
  (readLine 256 s).bind fun x => helloBody x.1 x.2

theorem dropItem_bulk {data : List UInt8} (hpos : 0 < data.length) (h : data.length < 2 ^ 63) :
    Reads dropItem (respWriteBulk data) := by
  obtain ⟨-, hno, hn⟩ := @decimal_line 36 data.length h (by decide)
  have hlen : (decimal data.length).length ≤ 19 := length_decimal_le (by decide) (by omega)
  have hline : ReadsAs (readLine 256) (36 :: decimal data.length ++ crlf) (36 :: decimal data.length) :=
    readLine_reads (by simp; omega) hno
  have hdata : Reads (readExactly (data.length + 2)) (data ++ crlf) := readExactly_reads (by simp [crlf])
  have hbody (s : List UInt8) :
      itemBody (36 :: decimal data.length) s = readExactly (data.length + 2) s := by
    simp only [itemBody, List.tail_cons, hn]
    rw [if_pos ⟨rfl, by omega⟩, Int.toNat_natCast]
  have hread : Reads dropItem _ := hline.bind (hdata.congr hbody)
  simpa [respWriteBulk] using hread

theorem dropItem_integer {n : Int} (h : -2 ^ 63 ≤ n ∧ n < 2 ^ 63) :
    Reads dropItem (respWriteInteger n) := by
  obtain ⟨hlen, hno⟩ := integer_line h
  have hline : ReadsAs (readLine 256) (58 :: decimalInt n ++ crlf) (58 :: decimalInt n) :=
    readLine_reads (by omega) hno
  have hbody (s : List UInt8) : itemBody (58 :: decimalInt n) s = some s := by simp [itemBody]
  have hread : Reads dropItem _ := hline.bind (Reads.nothing.congr hbody)
  rwa [List.append_nil] at hread

/-- The reply to `HELLO 3` is read as a whole if it names the node: an empty string in it would be
taken for its line only. -/
theorem dropHello_reads {ver node : List UInt8} (hver : 0 < ver.length ∧ ver.length < 2 ^ 63)
    (hnode : 0 < node.length ∧ node.length < 2 ^ 63) : Reads dropHello (respWriteHello ver node true) := by
  have hline : ReadsAs (readLine 256) (37 :: decimal 5 ++ crlf) (37 :: decimal 5) :=
    readLine_reads (by decide) (by decide)
  let items := [respWriteBulk (str "server"), respWriteBulk (str "voidcache"),
    respWriteBulk (str "version"), respWriteBulk ver, respWriteBulk (str "proto"), respWriteInteger 3,
    respWriteBulk (str "id"), respWriteBulk node, respWriteBulk (str "mode"),
    respWriteBulk (str "standalone")]
  have hitems : ∀ w ∈ items, Reads dropItem w := by
    simp only [items, List.forall_mem_cons]
    exact ⟨dropItem_bulk (by decide) (by decide), dropItem_bulk (by decide) (by decide),
      dropItem_bulk (by decide) (by decide), dropItem_bulk hver.1 hver.2,
      dropItem_bulk (by decide) (by decide), dropItem_integer (by decide),
      dropItem_bulk (by decide) (by decide), dropItem_bulk hnode.1 hnode.2,
      dropItem_bulk (by decide) (by decide), dropItem_bulk (by decide) (by decide), by simp⟩
  have hbody (s : List UInt8) : helloBody (37 :: decimal 5) s = repeatReply dropItem items.length s := by
    have hten : (atoll (decimal 5) * 2).toNat = 10 := by decide
    simp only [helloBody, List.tail_cons, hten]
    rfl
  have hread : Reads dropHello _ := hline.bind ((repeatReply_reads hitems).congr hbody)
  simpa [respWriteHello, respWriteMapHeader, items] using hread

end VoidCache
