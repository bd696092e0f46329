import VoidCache.Cluster.Topology

/-!
# Replies that are read to the end

The readers of `cluster.c` do not follow the nesting of a reply: `resp_read_reply` reads no element
of an array, and `vc_cluster_refresh` reads the lines it expects. This module says which replies
they read to the last byte.
-/
namespace VoidCache

/-- All there is, is one line that fits into `maxlen` bytes. -/
def OneLine (maxlen : Nat) (s : List UInt8) : Prop :=
  ∃ line, s = line ++ crlf ∧ NoCrlf line ∧ line.length + 2 < maxlen

theorem OneLine.read {maxlen : Nat} {s : List UInt8} (h : OneLine maxlen s) (buf : List UInt8) :
    (sockReadline maxlen buf s).rest = [] := by
  obtain ⟨line, rfl, hno, hlen⟩ := h
  rw [← List.append_nil (line ++ crlf), sockReadline_line buf [] hlen hno]

/-! ## The reader of replies -/

/-- Replies that `resp_read_reply` consumes: none, one line, or a bulk string for which there is
memory. -/
inductive ReadToEnd (mallocOk : Nat → Bool) : List UInt8 → Prop where
  | nothing : ReadToEnd mallocOk []
  | line {text : List UInt8} (hc : text.headD 0 ≠ 36) (hno : NoCrlf text) (hlen : text.length + 2 < 1024) :
      ReadToEnd mallocOk (text ++ crlf)
  | nullBulk : ReadToEnd mallocOk (str "$-1\r\n")
  | bulk (data : List UInt8) (hlen : data.length < 2 ^ 63) (hm : mallocOk (data.length + 3) = true) :
      ReadToEnd mallocOk (respWriteBulk data)

theorem replyOfLine_rest (mallocOk : Nat → Bool) {line : List UInt8} (h : line.headD 0 ≠ 36)
    (s : List UInt8) : (replyOfLine mallocOk line s).2 = s := by
  unfold replyOfLine
  dsimp only
  split <;> simp_all

theorem ReadToEnd.read {mallocOk : Nat → Bool} {s : List UInt8} (h : ReadToEnd mallocOk s) :
    (respReadReply mallocOk s).2 = [] := by
  cases h with
  | nothing => rw [respReadReply, sockReadline_nil]; rfl
  | @line text hc hno hlen =>
    have hhead : (text ++ 0 :: 10 :: []).headD 0 ≠ 36 := by
      cases text with
      | nil => exact (by decide : (0 : UInt8) ≠ 36)
      | cons c text => exact hc
    rw [respReadReply, ← List.append_nil (text ++ crlf), sockReadline_line [] [] hlen hno]
    simpa using replyOfLine_rest mallocOk hhead []
  | nullBulk => rfl
  | bulk data hlen hm =>
    have hdec : (decimal data.length).length ≤ 19 := length_decimal_le (by decide) (by omega)
    have hlen' : atoll (decimal data.length ++ [0, 10]) = data.length := by
      rw [atoll, strtoll_decimal_append hlen (by simp; decide)]
    rw [respReadReply, respWriteBulk, List.append_assoc, sockReadline_line [] _ (by simp; omega)
      (noCrlf_of_plain (cr_notMem_decimal (by decide) _))]
    have hneg : ¬ (data.length : Int) < 0 := by omega
    simp [replyOfLine, hlen', hm, sockReadn, crlf, if_neg hneg]

/-! ## The reader of the map -/

/-- What `vc_cluster_refresh` consumes when it is to read `n` ranges after the `k` addresses that
are left of the range before: ranges of four lines with as many addresses as the fourth says, each
of them two lines, or the line of an array, a bulk string and a line. It may end early after a
range, an address, or the first line of an address. -/
inductive SlotsLayout : Nat → Nat → List UInt8 → Prop where
  | ended (n k : Nat) : SlotsLayout n k []
  | range {n k : Nat} {a b c s : List UInt8} {t : UInt8} (ha : ShortLine a) (hb : ShortLine b)
      (hc : ShortLine c) (ht : t ≠ 13) (hk : k < 2 ^ 31) (h : SlotsLayout n k s) :
      SlotsLayout (n + 1) 0 (a ++ crlf ++ (b ++ crlf ++ (c ++ crlf ++ (t :: decimal k ++ crlf ++ s))))
  | addr {n k : Nat} {host port s : List UInt8} (hstar : host.headD 0 ≠ 42) (hh : ShortLine host)
      (hp : ShortLine port) (h : SlotsLayout n k s) :
      SlotsLayout n (k + 1) (host ++ crlf ++ (port ++ crlf ++ s))
  | hostOnly (n k : Nat) {host : List UInt8} (hstar : host.headD 0 ≠ 42) (hh : ShortLine host) :
      SlotsLayout n (k + 1) (host ++ crlf)
  | nested {n k : Nat} {a host port s : List UInt8} {t : UInt8} (hstar : a.headD 0 = 42)
      (ha : ShortLine a) (ht : t ≠ 13) (hh : host.length ≤ 254) (hp : ShortLine port)
      (h : SlotsLayout n k s) :
      SlotsLayout n (k + 1)
        (a ++ crlf ++ (t :: decimal host.length ++ crlf ++ (host ++ crlf ++ (port ++ crlf ++ s))))

theorem readAddrs_nil (junk : List UInt8) (k : Nat) (first : Bool) (cl : Cluster) (owner : Int)
    (l : List UInt8) : readAddrs junk k first cl owner l [] = some (cl, owner, []) := by
  cases k with
  | zero => rfl
  | succ k => simp [readAddrs, sockReadline_nil]

theorem readRanges_nil (junk : List UInt8) (n : Nat) (cl : Cluster) :
    readRanges junk n cl [] = some (cl, []) := by
  cases n with
  | zero => rfl
  | succ n => simp [readRanges, readRange, sockReadline_nil]

/-- An address inside an array of its own. -/
theorem readAddr_nested (junk s : List UInt8) {l host port : List UInt8} {t : UInt8} (hstar : l.headD 0 = 42)
    (ht : t ≠ 13) (hh : host.length ≤ 254) (hp : ShortLine port) :
    ∃ host' port' l', readAddr junk l (t :: decimal host.length ++ crlf ++ (host ++ crlf ++ (port ++ crlf ++ s))) =
      some (host', port', l', s) := by
  have hlen (tl : List UInt8) : atoll (t :: decimal host.length ++ 0 :: tl).tail = host.length := by
    show (strtoll (decimal host.length ++ 0 :: tl)).value = host.length
    rw [strtoll_decimal_append (by omega) (by simp; decide)]
  have hmod : ((host.length : Int) % 2 ^ 64).toNat = host.length := by omega
  have hgot : (host ++ crlf ++ (port ++ crlf ++ s)).take (host.length + 2) = host ++ crlf :=
    List.take_left' (by simp [crlf])
  have hrest : (host ++ crlf ++ (port ++ crlf ++ s)).drop (host.length + 2) = port ++ crlf ++ s :=
    List.drop_left' (by simp [crlf])
  rw [readAddr, if_pos hstar, (ShortLine.decimal ht (by omega)).read]
  dsimp only
  rw [hlen, hmod, Nat.mod_eq_of_lt (by omega), sockReadn, hgot, hrest, hp.read]
  dsimp only
  rw [if_neg (by simp [crlf]; omega)]
  exact ⟨_, _, _, rfl⟩

/-- The addresses that are left, and then the ranges. -/
def ReadsThrough (junk : List UInt8) (n k : Nat) (s : List UInt8) : Prop :=
  ∀ first cl owner l, ∃ cl' owner' s', readAddrs junk k first cl owner l s = some (cl', owner', s') ∧
    ∀ cl, ∃ cl', readRanges junk n cl s' = some (cl', [])

theorem SlotsLayout.read {n k : Nat} {s : List UInt8} (h : SlotsLayout n k s) (junk : List UInt8) :
    ReadsThrough junk n k s := by
  induction h with
  | ended n k =>
    intro first cl owner l
    exact ⟨_, _, _, readAddrs_nil .., fun cl => ⟨cl, readRanges_nil junk n cl⟩⟩
  | @range n k a b c s t ha hb hc ht hk _ ih =>
    intro first cl owner l
    refine ⟨_, _, _, rfl, fun cl => ?_⟩
    obtain ⟨l, x, y, hrange⟩ := readRange_short ha hb hc ht hk junk cl s
    obtain ⟨cl₁, owner, s', haddrs, hranges⟩ := ih true cl (-1) l
    rw [haddrs, Option.map_some] at hrange
    obtain ⟨cl', hend⟩ := hranges (if 0 ≤ owner then
      cl₁.assign (atoi (b ++ 0 :: x).tail) (atoi (c ++ 0 :: y).tail) owner else cl₁)
    refine ⟨cl', ?_⟩
    rw [readRanges, hrange]
    exact hend
  | @addr n k host port s hstar hh hp _ ih =>
    intro first cl owner l
    obtain ⟨buf, haddr⟩ := readAddrs_plain junk l (port ++ crlf ++ s) cl owner first k hstar hh
    rw [haddr, hp.read]
    exact ih false _ _ _
  | @hostOnly n k host hstar hh =>
    intro first cl owner l
    obtain ⟨buf, haddr⟩ := readAddrs_plain junk l [] cl owner first k hstar hh
    rw [List.append_nil] at haddr
    rw [haddr, sockReadline_nil]
    exact ⟨_, _, _, readAddrs_nil .., fun cl => ⟨cl, readRanges_nil junk n cl⟩⟩
  | @nested n k a host port s t hstar ha ht hh hp _ ih =>
    intro first cl owner l
    have hhead : (a ++ 0 :: 10 :: l.drop (a.length + 2)).headD 0 = 42 := by
      cases a with
      | nil => exact absurd hstar (by decide)
      | cons c a => exact hstar
    obtain ⟨host', port', l', haddr⟩ := readAddr_nested junk s hhead ht hh hp
    rw [readAddrs, ha.read]
    dsimp only
    rw [if_neg (by decide), haddr]
    exact ih false _ _ _

theorem SlotsLayout.readSlots {nranges : Int} {s : List UInt8} (h : SlotsLayout nranges.toNat 0 s)
    (junk : List UInt8) (cl : Cluster) : ∃ cl', readSlots junk cl nranges s = some (cl', []) := by
  obtain ⟨_, _, _, hnone, hranges⟩ := h.read junk true cl (-1) []
  cases hnone
  exact hranges _

end VoidCache
