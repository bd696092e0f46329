import VoidCache.Hash
import VoidCache.Lib.Bytes

/-!
# The write-ahead log ring

`walAppend` builds a 64-byte header, places header, key and value in the ring, and moves
the write position. Bytes are taken as a pointer and a length delimit them. The reader of
the log, `walDecode`, starts at offset 0 and goes from header to header; it is what the
documented recovery procedure scans. The ring here is a memory without end: what a record that
overruns it does to other memory is outside the model. The last section says which appends write
past the bytes that are mapped.
-/
namespace VoidCache

def walMagic : Nat := 0xC0CA1E01
def walSet : UInt8 := 0x53
def walDel : UInt8 := 0x44
def walRingSize : Nat := 64 * 1024 * 1024
def walHdrSize : Nat := 64

structure WalHdr where
  magic : Nat
  op : UInt8
  keyLen : Nat
  valLen : Nat
  ttlSec : Nat
  crc32 : UInt32
  seq : Nat
  tsNs : Nat

/-- The packed header as it lies in memory. -/
def WalHdr.bytes (h : WalHdr) : List UInt8 :=
  leBytes 4 h.magic ++ ([h.op, 0, 0, 0] ++ (leBytes 4 h.keyLen ++ (leBytes 4 h.valLen ++
    (leBytes 4 h.ttlSec ++ (leBytes 4 h.crc32.toNat ++ (leBytes 8 h.seq ++ (leBytes 8 h.tsNs ++
      List.replicate 24 0)))))))

structure Wal where
  /-- Beyond `ringSize` these bytes are nobody's: a record that overruns the ring (`log_stays_in_ring`
  says which do) would write to memory that the model does not have. -/
  ring : Nat → UInt8
  ringSize : Nat
  writePos : Nat
  walSeq : Nat

/-- `wal_init` on a file whose first `ring_size` bytes are `file`. -/
def walInit (file : Nat → UInt8) : Wal where
  ring := file
  ringSize := walRingSize
  writePos := 0
  walSeq := 0

/-- `(total + 7u) & ~7u`. The mask is a 32-bit constant, widened with zeros. -/
def walPad (total : Nat) : Nat := (total + 7) &&& 0xFFFFFFF8

/-- Bytes a record takes in the ring. -/
def walTotal (key val : List UInt8) : Nat := walPad (walHdrSize + (key.length + val.length))

/-- Where the next record of `total` bytes goes. -/
def walPlace (w : Wal) (total : Nat) : Nat :=
  let pos := w.writePos % w.ringSize
  if w.ringSize < pos + total then 0 else pos

/-- The checksum chain over operation, key and, when there is one, value. -/
def walCrc (op : UInt8) (key val : List UInt8) : UInt32 :=
  let crc := xxh32 key (xxh32 [op] 0)
  if val.length ≠ 0 then xxh32 val crc else crc

def walHdr (w : Wal) (op : UInt8) (key val : List UInt8) (ttlSec wallNs : Nat) : WalHdr where
  magic := walMagic
  op := op
  keyLen := key.length
  valLen := val.length
  ttlSec := ttlSec
  crc32 := walCrc op key val
  seq := w.walSeq
  tsNs := wallNs

def walAppend (w : Wal) (op : UInt8) (key val : List UInt8) (ttlSec wallNs : Nat) : Wal :=
  let total := walTotal key val
  let pos := walPlace w total
  let ring := overwrite w.ring pos (walHdr w op key val ttlSec wallNs).bytes
  let ring := overwrite ring (pos + walHdrSize) key
  let ring :=
    if val.length ≠ 0 then overwrite ring (pos + walHdrSize + key.length) val else ring
  { w with ring, writePos := pos + total, walSeq := (w.walSeq + 1) % 2 ^ 64 }

/-- The arguments of one `wal_append` call. -/
structure WalReq where
  op : UInt8
  key : List UInt8
  val : List UInt8
  ttlSec : UInt32
  wallNs : Nat
  deriving DecidableEq

def Wal.append (w : Wal) (r : WalReq) : Wal :=
  walAppend w r.op r.key r.val r.ttlSec.toNat r.wallNs

/-! ## Reading the log -/

/-- A record as a reader of the ring sees it. -/
structure LogRec where
  op : UInt8
  key : List UInt8
  val : List UInt8
  ttlSec : Nat
  seq : Nat
  crc32 : Nat
  deriving DecidableEq

/-- Little-endian field of `width` bytes at offset `off`. -/
def leField (bs : List UInt8) (off width : Nat) : Nat := leNat ((bs.drop off).take width)

/-- Read one record: header, key, value, padding. -/
def walDecode1 (bs : List UInt8) : Option (LogRec × List UInt8) :=
  let kl := leField bs 8 4
  let vl := leField bs 12 4
  let total := walPad (walHdrSize + (kl + vl))
  if bs.length < walHdrSize ∨ leField bs 0 4 ≠ walMagic ∨ bs.length < total then none
  else
    some
      ({ op := load8 bs 4
         key := (bs.drop walHdrSize).take kl
         val := (bs.drop (walHdrSize + kl)).take vl
         ttlSec := leField bs 16 4
         seq := leField bs 24 8
         crc32 := leField bs 20 4 },
        bs.drop total)

/-- The records in `ring[0 .. write_pos)`. -/
def walDecode (w : Wal) : Option (List LogRec) :=
  decodeAll walDecode1 w.writePos (window w.ring 0 w.writePos)

/-! ## Headers -/

@[simp] theorem WalHdr.length_bytes (h : WalHdr) : h.bytes.length = walHdrSize := by
  simp [WalHdr.bytes, walHdrSize]

theorem WalHdr.fields (h : WalHdr) (rest : List UInt8) :
    leField (h.bytes ++ rest) 0 4 = h.magic % 2 ^ 32 ∧ load8 (h.bytes ++ rest) 4 = h.op ∧
      leField (h.bytes ++ rest) 8 4 = h.keyLen % 2 ^ 32 ∧
      leField (h.bytes ++ rest) 12 4 = h.valLen % 2 ^ 32 ∧
      leField (h.bytes ++ rest) 16 4 = h.ttlSec % 2 ^ 32 ∧
      leField (h.bytes ++ rest) 20 4 = h.crc32.toNat ∧
      leField (h.bytes ++ rest) 24 8 = h.seq % 2 ^ 64 := by
  have hcrc := h.crc32.toNat_lt
  have hcrc' : h.crc32.toNat % 4294967296 = h.crc32.toNat := Nat.mod_eq_of_lt hcrc
  refine ⟨?_, ?_, ?_, ?_, ?_, ?_, ?_⟩ <;>
    simp [WalHdr.bytes, leField, load8, List.drop_append, leNat_leBytes, drop_leBytes, hcrc']

/-- The mask rounds up to a multiple of eight as long as the total fits in 32 bits. -/
theorem walPad_eq {total : Nat} (h : total + 7 < 2 ^ 32) : walPad total = (total + 7) / 8 * 8 := by
  unfold walPad
  have hmask : (0xFFFFFFF8 : Nat) = (2 ^ 29 - 1) <<< 3 := by decide
  apply Nat.eq_of_testBit_eq
  intro i
  rw [hmask, Nat.testBit_and, Nat.testBit_shiftLeft, Nat.testBit_two_pow_sub_one,
    show (total + 7) / 8 * 8 = ((total + 7) >>> 3) <<< 3 by
      rw [Nat.shiftLeft_eq, Nat.shiftRight_eq_div_pow], Nat.testBit_shiftLeft,
    Nat.testBit_shiftRight]
  by_cases hi : 3 ≤ i
  · by_cases hlt : i - 3 < 29
    · simp [hi, hlt, Nat.add_sub_cancel' hi]
    · have hbig : (total + 7).testBit i = false :=
        Nat.testBit_lt_two_pow (h.trans_le (Nat.pow_le_pow_right (by decide) (by omega)))
      simp [hi, hlt, Nat.add_sub_cancel' hi, hbig]
  · simp [hi]

/-! ## The ring invariant -/

namespace WalReq

/-- The header of the record that got number `seq`. -/
def hdr (r : WalReq) (seq : Nat) : WalHdr where
  magic := walMagic
  op := r.op
  keyLen := r.key.length
  valLen := r.val.length
  ttlSec := r.ttlSec.toNat
  crc32 := walCrc r.op r.key r.val
  seq := seq
  tsNs := r.wallNs

/-- Header, key and value. -/
def encoded (r : WalReq) (seq : Nat) : List UInt8 := (r.hdr seq).bytes ++ (r.key ++ r.val)

/-- What a reader gets back. -/
def logRec (r : WalReq) (seq : Nat) : LogRec where
  op := r.op
  key := r.key
  val := r.val
  ttlSec := r.ttlSec.toNat
  seq := seq
  crc32 := (walCrc r.op r.key r.val).toNat

/-- Size of the record after rounding up to a multiple of eight. -/
def paddedSize (r : WalReq) : Nat := (walHdrSize + r.key.length + r.val.length + 7) / 8 * 8

/-- The padded record fits in the ring. -/
def Fits (r : WalReq) : Prop := r.paddedSize ≤ walRingSize

instance (r : WalReq) : Decidable r.Fits := inferInstanceAs (Decidable (_ ≤ _))

theorem length_encoded (r : WalReq) (seq : Nat) :
    (r.encoded seq).length = walHdrSize + r.key.length + r.val.length := by
  simp [encoded, Nat.add_assoc]

theorem Fits.total {r : WalReq} (h : r.Fits) : walTotal r.key r.val = r.paddedSize := by
  unfold Fits paddedSize walRingSize walHdrSize at h
  unfold walTotal walHdrSize
  rw [walPad_eq (by omega)]
  simp only [paddedSize, walHdrSize]
  omega

theorem length_le_paddedSize (r : WalReq) (seq : Nat) : (r.encoded seq).length ≤ r.paddedSize := by
  rw [length_encoded]
  unfold paddedSize
  omega

theorem Fits.decode {r : WalReq} (h : r.Fits) {seq : Nat} (hseq : seq < 2 ^ 64)
    {pad : List UInt8} (hpad : (r.encoded seq ++ pad).length = r.paddedSize) (rest : List UInt8) :
    walDecode1 (r.encoded seq ++ pad ++ rest) = some (r.logRec seq, rest) := by
  have hfit := h
  unfold Fits paddedSize walRingSize walHdrSize at hfit
  have hlen := r.length_encoded seq
  rw [List.length_append, hlen] at hpad
  have htotal := h.total
  unfold walTotal at htotal
  have hbytes : r.encoded seq ++ pad ++ rest =
      (r.hdr seq).bytes ++ (r.key ++ (r.val ++ (pad ++ rest))) := by
    simp [encoded]
  obtain ⟨f1, f2, f3, f4, f5, f6, f7⟩ := (r.hdr seq).fields (r.key ++ (r.val ++ (pad ++ rest)))
  rw [← hbytes] at f1 f2 f3 f4 f5 f6 f7
  rw [show (r.hdr seq).magic = walMagic from rfl, Nat.mod_eq_of_lt (by decide)] at f1
  rw [show (r.hdr seq).keyLen = r.key.length from rfl, Nat.mod_eq_of_lt (by omega)] at f3
  rw [show (r.hdr seq).valLen = r.val.length from rfl, Nat.mod_eq_of_lt (by omega)] at f4
  rw [show (r.hdr seq).ttlSec = r.ttlSec.toNat from rfl,
    Nat.mod_eq_of_lt r.ttlSec.toNat_lt] at f5
  rw [show (r.hdr seq).seq = seq from rfl, Nat.mod_eq_of_lt hseq] at f7
  unfold walDecode1
  rw [f1, f2, f3, f4, f5, f6, f7]
  dsimp only
  rw [htotal]
  have hlong : ¬ ((r.encoded seq ++ pad ++ rest).length < walHdrSize ∨ walMagic ≠ walMagic ∨
      (r.encoded seq ++ pad ++ rest).length < r.paddedSize) := by
    simp only [List.length_append, hlen]
    unfold walHdrSize at *
    omega
  rw [if_neg hlong]
  have hdrop : (r.encoded seq ++ pad ++ rest).drop r.paddedSize = rest := by
    rw [List.drop_append_of_le_length (by rw [List.length_append, hlen]; omega),
      List.drop_eq_nil_of_le (by rw [List.length_append, hlen]; omega), List.nil_append]
  have hkey : (r.encoded seq ++ pad ++ rest).drop walHdrSize = r.key ++ (r.val ++ (pad ++ rest)) := by
    rw [hbytes, List.drop_left' (by simp)]
  have hval : (r.encoded seq ++ pad ++ rest).drop (walHdrSize + r.key.length) =
      r.val ++ (pad ++ rest) := by
    rw [← List.drop_drop, hkey, List.drop_left' rfl]
  rw [hdrop, hkey, hval, List.take_left' rfl, List.take_left' rfl]
  rfl

end WalReq

/-- The log after a list of appends. -/
def walRun (w : Wal) (reqs : List WalReq) : Wal := reqs.foldl Wal.append w

/-- The bytes that records take in the ring. -/
def usedBytes (cur : List WalReq) : Nat := (cur.map WalReq.paddedSize).sum

/-- A record goes behind those that are there, or starts the ring over when there is no room. -/
def stack (cur : List WalReq) (r : WalReq) : List WalReq :=
  if walRingSize < usedBytes cur + r.paddedSize then [r] else cur ++ [r]

/-- The records appended since the ring was last started over. -/
def sinceWrap (reqs : List WalReq) : List WalReq := reqs.foldl stack []

theorem usedBytes_concat (cur : List WalReq) (r : WalReq) :
    usedBytes (cur ++ [r]) = usedBytes cur + r.paddedSize := by
  simp [usedBytes]

theorem stack_suffix (cur : List WalReq) (r : WalReq) : stack cur r <:+ cur ++ [r] := by
  unfold stack
  split_ifs
  · exact List.suffix_append cur [r]
  · exact List.suffix_rfl

theorem foldl_stack_suffix (cur reqs : List WalReq) : reqs.foldl stack cur <:+ cur ++ reqs := by
  induction reqs generalizing cur with
  | nil => simp
  | cons r rs ih =>
    obtain ⟨pre, hpre⟩ := stack_suffix cur r
    refine (ih (stack cur r)).trans ⟨pre, ?_⟩
    rw [← List.append_assoc, hpre, List.append_assoc, List.singleton_append]

theorem sinceWrap_suffix (reqs : List WalReq) : sinceWrap reqs <:+ reqs := foldl_stack_suffix [] reqs

theorem sinceWrap_getLast? (reqs : List WalReq) : (sinceWrap reqs).getLast? = reqs.getLast? := by
  induction reqs using List.reverseRecOn with
  | nil => rfl
  | append_singleton rs r =>
    rw [sinceWrap, List.foldl_append, List.foldl_cons, List.foldl_nil, stack]
    split_ifs <;> simp

/-- As long as the records together fit in what is left of the ring, it is not started over. -/
theorem foldl_stack_eq_append (cur : List WalReq) {reqs : List WalReq}
    (h : usedBytes cur + usedBytes reqs ≤ walRingSize) : reqs.foldl stack cur = cur ++ reqs := by
  induction reqs generalizing cur with
  | nil => simp
  | cons r rs ih =>
    have hcons : usedBytes (r :: rs) = r.paddedSize + usedBytes rs := by simp [usedBytes]
    have hroom : stack cur r = cur ++ [r] := if_neg (by omega)
    have hrest : usedBytes (cur ++ [r]) + usedBytes rs ≤ walRingSize := by
      rw [usedBytes_concat]
      omega
    rw [List.foldl_cons, hroom, ih _ hrest, List.append_assoc, List.singleton_append]

/-- The used part of the ring is the padded encodings of `cur`, the last of the `n` records
appended so far. -/
structure RingHolds (w : Wal) (n : Nat) (cur : List WalReq) : Prop where
  size : w.ringSize = walRingSize
  seq : w.walSeq = n % 2 ^ 64
  len : cur.length ≤ n
  used : w.writePos = usedBytes cur
  pos : w.writePos ≤ w.ringSize
  fits : ∀ r ∈ cur, r.Fits
  bytes : ∃ frames : List (WalReq × List UInt8), frames.map Prod.fst = cur ∧
    (∀ f ∈ frames, ∀ seq, (f.1.encoded seq ++ f.2).length = f.1.paddedSize) ∧
    window w.ring 0 w.writePos =
      (frames.mapIdx fun i f => f.1.encoded ((n - cur.length + i) % 2 ^ 64) ++ f.2).flatten

theorem ringHolds_init (file : Nat → UInt8) : RingHolds (walInit file) 0 [] :=
  ⟨rfl, rfl, by simp, rfl, by simp [walInit], by simp, [], by simp, by simp, by simp [walInit]⟩

/-- One append writes the encoding at the chosen place and nothing else. -/
theorem Wal.append_ring (w : Wal) (r : WalReq) :
    (w.append r).ring =
      overwrite w.ring (walPlace w (walTotal r.key r.val)) (r.encoded w.walSeq) := by
  have hval : ∀ (mem : Nat → UInt8) (pos : Nat),
      (if r.val.length ≠ 0 then overwrite mem pos r.val else mem) = overwrite mem pos r.val := by
    intro mem pos
    split_ifs with h
    · rfl
    · rw [List.length_eq_zero_iff.mp (not_not.mp h), overwrite_nil]
  have hhdr : walHdr w r.op r.key r.val r.ttlSec.toNat r.wallNs = r.hdr w.walSeq := rfl
  unfold Wal.append walAppend
  dsimp only
  rw [hval, hhdr, ← (r.hdr w.walSeq).length_bytes, overwrite_append, overwrite_append]
  rfl

theorem walPlace_add_le (w : Wal) {total : Nat} (h : total ≤ w.ringSize) :
    walPlace w total + total ≤ w.ringSize := by
  unfold walPlace
  dsimp only
  split_ifs <;> omega

/-- Where a record goes, on what is in use. -/
theorem RingHolds.place {w : Wal} {n : Nat} {cur : List WalReq} (h : RingHolds w n cur) {r : WalReq}
    (hr : r.Fits) :
    walPlace w (walTotal r.key r.val) =
      if walRingSize < usedBytes cur + r.paddedSize then 0 else usedBytes cur := by
  have hpos := h.pos
  have hpadded : 0 < r.paddedSize := by
    unfold WalReq.paddedSize walHdrSize
    omega
  rw [h.size, h.used] at hpos
  unfold walPlace
  rw [hr.total, h.size, h.used]
  rcases Nat.lt_or_eq_of_le hpos with hlt | heq
  · rw [Nat.mod_eq_of_lt hlt]
  · rw [heq, Nat.mod_self, if_pos (by omega : walRingSize < walRingSize + r.paddedSize)]
    exact ite_self 0

/-- What the used part of the ring is after an append. The padding is what lay there before. -/
theorem Wal.append_window (w : Wal) {r : WalReq} (h : r.Fits) :
    ∃ pad, (∀ seq, (r.encoded seq ++ pad).length = r.paddedSize) ∧
      window (w.append r).ring 0 (w.append r).writePos =
        window w.ring 0 (walPlace w (walTotal r.key r.val)) ++ (r.encoded w.walSeq ++ pad) := by
  have hle := r.length_le_paddedSize w.walSeq
  have hpos : (w.append r).writePos = walPlace w (walTotal r.key r.val) + r.paddedSize := by
    rw [← h.total]
    rfl
  rw [hpos, w.append_ring r]
  generalize walPlace w (walTotal r.key r.val) = pos
  refine ⟨window w.ring (pos + (r.encoded w.walSeq).length)
    (r.paddedSize - (r.encoded w.walSeq).length), fun seq => ?_, ?_⟩
  · rw [List.length_append, length_window]
    simp only [WalReq.length_encoded] at hle ⊢
    omega
  · rw [window_add, window_overwrite_of_disjoint _ _ (by omega), Nat.zero_add,
      show r.paddedSize = (r.encoded w.walSeq).length + (r.paddedSize - (r.encoded w.walSeq).length)
        by omega, window_add, window_overwrite_self, window_overwrite_of_disjoint _ _ (by omega)]
    simp

theorem RingHolds.append {w : Wal} {n : Nat} {cur : List WalReq} (h : RingHolds w n cur)
    {r : WalReq} (hr : r.Fits) : RingHolds (w.append r) (n + 1) (stack cur r) := by
  have hseq : (w.append r).walSeq = (n + 1) % 2 ^ 64 := by
    show (w.walSeq + 1) % 2 ^ 64 = (n + 1) % 2 ^ 64
    rw [h.seq, Nat.mod_add_mod]
  have hnext : (w.append r).writePos = walPlace w (walTotal r.key r.val) + r.paddedSize := by
    rw [← hr.total]
    rfl
  have hpos : (w.append r).writePos ≤ (w.append r).ringSize := by
    show walPlace w (walTotal r.key r.val) + walTotal r.key r.val ≤ w.ringSize
    refine walPlace_add_le w ?_
    rw [hr.total, h.size]
    exact hr
  have hplace := h.place hr
  obtain ⟨pad, hpad, hwin⟩ := w.append_window hr
  obtain ⟨frames, hmap, hlen, hbytes⟩ := h.bytes
  unfold stack
  split_ifs at hplace ⊢ with hfull
  · -- the record starts the ring over
    rw [hplace] at hnext hwin
    refine ⟨h.size, hseq, by simp, ?_, hpos, by simpa using hr, [(r, pad)], by simp, by simpa using hpad, ?_⟩
    · rw [hnext]
      simp [usedBytes]
    · rw [hwin, window_zero, h.seq]
      simp
  · rw [hplace] at hnext hwin
    refine ⟨h.size, hseq, by simpa using h.len, ?_, hpos, ?_, frames ++ [(r, pad)], by simp [hmap], ?_, ?_⟩
    · rw [hnext, usedBytes_concat]
    · exact List.forall_mem_append.mpr ⟨h.fits, List.forall_mem_singleton.mpr hr⟩
    · exact List.forall_mem_append.mpr ⟨hlen, List.forall_mem_singleton.mpr hpad⟩
    · have hshift : n + 1 - (cur ++ [r]).length = n - cur.length := by simp
      have hcount : frames.length = cur.length := by rw [← hmap, List.length_map]
      have hlast : n - cur.length + frames.length = n := by
        rw [hcount]
        exact Nat.sub_add_cancel h.len
      rw [hwin, ← h.used, hbytes, hshift, List.mapIdx_append, List.flatten_append, h.seq]
      simp [hlast]

theorem ringHolds_run {w : Wal} {n : Nat} {cur : List WalReq} (h : RingHolds w n cur)
    (reqs : List WalReq) (hfit : ∀ r ∈ reqs, r.Fits) :
    RingHolds (walRun w reqs) (n + reqs.length) (reqs.foldl stack cur) := by
  induction reqs generalizing w n cur with
  | nil => exact h
  | cons r rs ih =>
    have := ih (h.append (hfit r (by simp))) fun r' hr' => hfit r' (by simp [hr'])
    rw [List.length_cons, show n + (rs.length + 1) = n + 1 + rs.length by omega]
    exact this

/-- The ring after any appends to an empty log. -/
theorem ringHolds_walRun (file : Nat → UInt8) {reqs : List WalReq} (hfit : ∀ r ∈ reqs, r.Fits) :
    RingHolds (walRun (walInit file) reqs) reqs.length (sinceWrap reqs) := by
  have h := ringHolds_run (ringHolds_init file) reqs hfit
  rwa [Nat.zero_add] at h

theorem RingHolds.decode {w : Wal} {n : Nat} {cur : List WalReq} (h : RingHolds w n cur) :
    walDecode w = some (cur.mapIdx fun i r => r.logRec ((n - cur.length + i) % 2 ^ 64)) := by
  obtain ⟨frames, hmap, hlen, hbytes⟩ := h.bytes
  let fs : List (LogRec × List UInt8) := frames.mapIdx fun i f =>
    (f.1.logRec ((n - cur.length + i) % 2 ^ 64), f.1.encoded ((n - cur.length + i) % 2 ^ 64) ++ f.2)
  have hfs : fs.flatMap Prod.snd = window w.ring 0 w.writePos := by
    rw [hbytes, List.flatMap_def]
    congr 1
    simp [fs, List.mapIdx_eq_zipIdx_map]
  have hmem : ∀ f ∈ fs, ∃ g ∈ frames, ∃ seq, seq < 2 ^ 64 ∧
      f = (g.1.logRec seq, g.1.encoded seq ++ g.2) := by
    intro f hf
    obtain ⟨i, hi, rfl⟩ := List.mem_mapIdx.mp hf
    exact ⟨frames[i], List.getElem_mem hi, _, Nat.mod_lt _ (by decide), rfl⟩
  have hdec := decodeAll_frames walDecode1 fs w.writePos ?_ ?_ ?_
  · unfold walDecode
    rw [← hfs, hdec]
    congr 1
    simp [fs, ← hmap, List.mapIdx_eq_zipIdx_map, List.zipIdx_map]
  · rw [hfs, length_window]
  · intro f hf
    obtain ⟨g, hg, seq, _, rfl⟩ := hmem f hf
    intro hnil
    have := congrArg List.length hnil
    simp [WalReq.length_encoded, walHdrSize] at this
  · intro f hf rest
    obtain ⟨g, hg, seq, hseq, rfl⟩ := hmem f hf
    have hfit : g.1.Fits := h.fits g.1 (hmap ▸ List.mem_map_of_mem hg)
    exact hfit.decode hseq (hlen g hg seq) rest

/-- The reader ends with the record appended last, and no record it sees has a higher number. -/
theorem walDecode_getLast (file : Nat → UInt8) {reqs : List WalReq} {r : WalReq}
    (hfit : ∀ r ∈ reqs, r.Fits) (hlast : reqs.getLast? = some r) (hlen : reqs.length ≤ 2 ^ 64) :
    ∃ recs, walDecode (walRun (walInit file) reqs) = some recs ∧
      recs.getLast? = some (r.logRec (reqs.length - 1)) ∧ ∀ x ∈ recs, x.seq ≤ reqs.length - 1 := by
  have h := ringHolds_walRun file hfit
  have hcur := sinceWrap_getLast? reqs
  rw [hlast] at hcur
  refine ⟨_, h.decode, ?_, fun x hx => ?_⟩
  · have hlen' := h.len
    generalize sinceWrap reqs = cur at *
    have hpos : 0 < cur.length := by
      cases cur with
      | nil => simp at hcur
      | cons => simp
    have hmod : (reqs.length - cur.length + (cur.length - 1)) % 2 ^ 64 = reqs.length - 1 := by
      rw [Nat.mod_eq_of_lt (by omega)]
      omega
    rw [List.getLast?_eq_getElem?] at hcur ⊢
    rw [List.length_mapIdx, List.getElem?_mapIdx, hcur, Option.map_some, hmod]
  · obtain ⟨i, hi, rfl⟩ := List.mem_mapIdx.mp hx
    have hlen' := h.len
    show (_ : Nat) % 2 ^ 64 ≤ _
    rw [Nat.mod_eq_of_lt (by omega)]
    omega

/-- At every moment of every sequence of appends whose records fit, the used part of the
ring is exactly the padded encodings of the records since the last wrap, and reading it from
offset 0 gives back those records in order, consecutively numbered, with their checksums. -/
theorem wal_ring_holds (file : Nat → UInt8) (reqs : List WalReq) (hfit : ∀ r ∈ reqs, r.Fits) :
    (walRun (walInit file) reqs).writePos ≤ (walRun (walInit file) reqs).ringSize ∧
    sinceWrap reqs <:+ reqs ∧
    (∃ frames : List (WalReq × List UInt8),
      frames.map Prod.fst = sinceWrap reqs ∧
      (∀ f ∈ frames, ∀ seq, (f.1.encoded seq ++ f.2).length = f.1.paddedSize) ∧
      window (walRun (walInit file) reqs).ring 0 (walRun (walInit file) reqs).writePos =
        (frames.mapIdx fun i f => f.1.encoded
          ((reqs.length - (sinceWrap reqs).length + i) % 2 ^ 64) ++ f.2).flatten) ∧
    walDecode (walRun (walInit file) reqs) =
      some ((sinceWrap reqs).mapIdx fun i r =>
        r.logRec ((reqs.length - (sinceWrap reqs).length + i) % 2 ^ 64)) := by
  have h := ringHolds_walRun file hfit
  exact ⟨h.pos, sinceWrap_suffix reqs, h.bytes, h.decode⟩

/-- A set and a delete are read back from the ring. -/
theorem wal_reads_set_and_delete :
    walDecode (walRun (walInit fun _ => 0xff)
        [⟨walSet, [97], [1, 2], 5, 0⟩, ⟨walDel, [97], [], 0, 0⟩]) =
      some [⟨walSet, [97], [1, 2], 5, 0, (walCrc walSet [97] [1, 2]).toNat⟩,
        ⟨walDel, [97], [], 0, 1, (walCrc walDel [97] []).toNat⟩] :=
  (wal_ring_holds (fun _ => 0xff) [⟨walSet, [97], [1, 2], 5, 0⟩, ⟨walDel, [97], [], 0, 0⟩]
    (by decide)).2.2.2

/-! ## Where an append writes -/

/-- The copies into the ring that an append makes: where each one starts, and its bytes. -/
def Wal.copies (w : Wal) (r : WalReq) : List (Nat × List UInt8) :=
  let pos := walPlace w (walTotal r.key r.val)
  [(pos, (walHdr w r.op r.key r.val r.ttlSec.toNat r.wallNs).bytes), (pos + walHdrSize, r.key)] ++
    if r.val.length ≠ 0 then [(pos + walHdrSize + r.key.length, r.val)] else []

theorem Wal.append_copies (w : Wal) (r : WalReq) :
    (w.append r).ring = (w.copies r).foldl (fun ring c => overwrite ring c.1 c.2) w.ring := by
  unfold Wal.append walAppend Wal.copies
  dsimp only
  split_ifs <;> rfl

/-- Every byte of every copy lies in the ring, and so does the position after it. -/
def Wal.StaysIn (w : Wal) (r : WalReq) : Prop :=
  (∀ c ∈ w.copies r, ∀ i < c.2.length, c.1 + i < w.ringSize) ∧ (w.append r).writePos ≤ w.ringSize

/-- The copies stand behind each other. -/
theorem Wal.copies_lt {w : Wal} {r : WalReq} {size : Nat} :
    (∀ c ∈ w.copies r, ∀ i < c.2.length, c.1 + i < size) ↔
      walPlace w (walTotal r.key r.val) + (walHdrSize + r.key.length + r.val.length) ≤ size := by
  have hhdr : 0 < walHdrSize := by decide
  have hsplit : (∀ c ∈ w.copies r, ∀ i < c.2.length, c.1 + i < size) ↔
      (∀ i < walHdrSize, walPlace w (walTotal r.key r.val) + i < size) ∧
      (∀ i < r.key.length, walPlace w (walTotal r.key r.val) + walHdrSize + i < size) ∧
      ∀ i < r.val.length,
        walPlace w (walTotal r.key r.val) + walHdrSize + r.key.length + i < size := by
    unfold Wal.copies
    by_cases hv : r.val.length = 0
    · simp [hv]
    · simp [hv]
  rw [hsplit]
  generalize walPlace w (walTotal r.key r.val) = pos
  constructor
  · rintro ⟨h1, h2, h3⟩
    have e1 := h1 (walHdrSize - 1) (by omega)
    have e2 := h2 (r.key.length - 1)
    have e3 := h3 (r.val.length - 1)
    omega
  · intro h
    refine ⟨?_, ?_, ?_⟩ <;> intro i hi <;> omega

/-- An append stays in the ring exactly when its record is not longer than the ring. -/
theorem Wal.staysIn_iff {w : Wal} (hw : w.ringSize = walRingSize) (r : WalReq) :
    w.StaysIn r ↔ walHdrSize + r.key.length + r.val.length ≤ walRingSize := by
  unfold Wal.StaysIn
  rw [Wal.copies_lt, hw]
  constructor
  · rintro ⟨h, -⟩
    omega
  · intro h
    have hfits : r.Fits := by
      unfold WalReq.Fits WalReq.paddedSize
      unfold walRingSize at h ⊢
      omega
    have hplace := @walPlace_add_le w r.paddedSize (hw ▸ hfits)
    have hpos : (w.append r).writePos = walPlace w r.paddedSize + r.paddedSize := by
      rw [← hfits.total]
      rfl
    have hlen : walHdrSize + r.key.length + r.val.length ≤ r.paddedSize := by
      unfold WalReq.paddedSize
      omega
    rw [hpos, hfits.total]
    omega

theorem walRun_ringSize (w : Wal) (reqs : List WalReq) : (walRun w reqs).ringSize = w.ringSize := by
  induction reqs generalizing w with
  | nil => rfl
  | cons r reqs ih => exact ih (w.append r)

end VoidCache
