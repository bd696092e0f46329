import VoidCache.Lib.Sha256
import VoidCache.Net.Auth

/-!
# The password hash is SHA-256

`vc_sha256` pads the message in one buffer and runs over it block by block, with words of 32
bits. The specification is over bits; each step of the code is compared with the step of the
standard, and `vc_sha256_is_sha256` puts them together.
-/
namespace VoidCache

open Sha256 (Hash)

def ShaState.toHash (s : ShaState) : Hash :=
  ⟨s.a.toBitVec, s.b.toBitVec, s.c.toBitVec, s.d.toBitVec, s.e.toBitVec, s.f.toBitVec, s.g.toBitVec,
    s.h.toBitVec⟩

/-! ## Rounds -/

theorem sig0_toBitVec (x : UInt32) : (sig0 x).toBitVec = Sha256.smallSigma0 x.toBitVec := rfl

theorem sig1_toBitVec (x : UInt32) : (sig1 x).toBitVec = Sha256.smallSigma1 x.toBitVec := rfl

theorem init_toHash : ShaState.init.toHash = Hash.init := by
  ext1 <;> decide +kernel

theorem k256_eq : k256.map UInt32.toBitVec = (List.range 64).map Sha256.roundConstant := by
  decide +kernel

theorem shaRound_toHash (s : ShaState) (k w : UInt32) :
    (shaRound s (k, w)).toHash = Sha256.round s.toHash k.toBitVec w.toBitVec := rfl

/-! ## The message schedule -/

theorem beWord_toNat (b0 b1 b2 b3 : UInt8) :
    ((b0.toUInt32 <<< 24) ||| (b1.toUInt32 <<< 16) ||| (b2.toUInt32 <<< 8) ||| b3.toUInt32).toNat =
      ofBits (bytesBits [b0, b1, b2, b3]) := by
  have hbits : ofBits (bytesBits [b0, b1, b2, b3]) =
      ((b0.toNat * 2 ^ 8 + b1.toNat) * 2 ^ 8 + b2.toNat) * 2 ^ 8 + b3.toNat := by
    have hbyte (b : UInt8) : ofBits (byteBits b) = b.toNat :=
      (ofBits_bits 8 b.toNat).trans (Nat.mod_eq_of_lt b.toNat_lt)
    have happ (l : List UInt8) (b : UInt8) :
        ofBits (bytesBits (l ++ [b])) = ofBits (bytesBits l) * 2 ^ 8 + b.toNat := by
      rw [bytesBits_append, ofBits_append]
      simp [bytesBits, hbyte]
    have hnil : ofBits (bytesBits []) = 0 := rfl
    rw [show [b0, b1, b2, b3] = [] ++ [b0] ++ [b1] ++ [b2] ++ [b3] from rfl, happ, happ, happ, happ,
      hnil, Nat.zero_mul, Nat.zero_add]
  have hstep {n : Nat} (b : UInt8) : n <<< 8 ||| b.toNat = n * 2 ^ 8 + b.toNat := by
    rw [← Nat.shiftLeft_add_eq_or_of_lt b.toNat_lt, Nat.shiftLeft_eq]
  have hshift (b : UInt8) (n : UInt32) (i : Nat) (hn : n.toNat = i * 8) (hi : i < 4) :
      (b.toUInt32 <<< n).toNat = b.toNat <<< (i * 8) := by
    have hb := b.toNat_lt
    have hlt : b.toNat <<< (i * 8) < 2 ^ 32 := by
      rw [Nat.shiftLeft_eq]
      calc b.toNat * 2 ^ (i * 8) < 2 ^ 8 * 2 ^ (i * 8) := Nat.mul_lt_mul_of_pos_right hb (by positivity)
        _ ≤ 2 ^ 8 * 2 ^ 24 := Nat.mul_le_mul_left _ (Nat.pow_le_pow_right (by decide) (by omega))
        _ = 2 ^ 32 := by decide
    rw [UInt32.toNat_shiftLeft, hn, UInt8.toNat_toUInt32, Nat.mod_eq_of_lt (by omega : i * 8 < 32),
      Nat.mod_eq_of_lt hlt]
  rw [hbits, ← hstep, ← hstep, ← hstep, UInt32.toNat_or, UInt32.toNat_or, UInt32.toNat_or,
    hshift b0 24 3 rfl (by decide), hshift b1 16 2 rfl (by decide), hshift b2 8 1 rfl (by decide)]
  simp only [Nat.shiftLeft_or_distrib, ← Nat.shiftLeft_add]
  rfl

/-- The first sixteen words are those of the block. -/
theorem beWord_toBitVec {blk : List UInt8} (hlen : blk.length = 64) {t : Nat} (ht : t < 16) :
    (beWord blk (t * 4)).toBitVec = Sha256.word (bytesBits blk) t := by
  have hfour : (blk.drop (4 * t)).take 4 = [blk.getD (t * 4) 0, blk.getD (t * 4 + 1) 0,
      blk.getD (t * 4 + 2) 0, blk.getD (t * 4 + 3) 0] := by
    apply List.ext_getElem
    · simp
      omega
    · intro i hi hi'
      simp only [List.length_cons, List.length_nil] at hi'
      have hcases : i = 0 ∨ i = 1 ∨ i = 2 ∨ i = 3 := by omega
      rcases hcases with rfl | rfl | rfl | rfl <;> simp only [List.getElem_take, List.getElem_drop,
        List.getElem_cons_succ, List.getElem_cons_zero, Nat.mul_comm 4 t, Nat.add_zero] <;>
        exact (List.getD_eq_getElem _ _ _).symm
  have hbits : ((bytesBits blk).drop (32 * t)).take 32 = bytesBits ((blk.drop (4 * t)).take 4) := by
    rw [show 32 * t = 8 * (4 * t) by ring, drop_bytesBits, show 32 = 8 * 4 by rfl, take_bytesBits]
  apply BitVec.eq_of_toNat_eq
  rw [Sha256.word, hbits, hfour, UInt32.toNat_toBitVec, BitVec.toNat_ofNat, ← beWord_toNat, beWord]
  exact (Nat.mod_eq_of_lt (UInt32.toNat_lt _)).symm

theorem extendSchedule_toBitVec (blk : List Bool) (n : Nat) {i : Nat} {w : List UInt32} (hi : 16 ≤ i)
    (hw : w.map UInt32.toBitVec = (List.range i).map (Sha256.schedule blk)) :
    (extendSchedule n w).map UInt32.toBitVec = (List.range (i + n)).map (Sha256.schedule blk) := by
  induction n generalizing i w with
  | zero => exact hw
  | succ n ih =>
    have hlen : w.length = i := by simpa using congrArg List.length hw
    have hget {j : Nat} (hj : j < i) : (w.getD j 0).toBitVec = Sha256.schedule blk j := by
      have hmap := congrArg (·[j]?) hw
      simp only [List.getElem?_map, List.getElem?_range hj, Option.map_some] at hmap
      rw [List.getD_eq_getElem?_getD]
      obtain ⟨x, hx, hxj⟩ := Option.map_eq_some_iff.mp hmap
      rw [hx, Option.getD_some, hxj]
    rw [extendSchedule, show i + (n + 1) = i + 1 + n by ring]
    refine ih (by omega) ?_
    rw [List.map_append, hw, List.range_succ, List.map_append, hlen]
    congr 1
    rw [List.map_singleton, List.map_singleton, Sha256.schedule_of_ge hi, UInt32.toBitVec_add,
      UInt32.toBitVec_add, UInt32.toBitVec_add, sig1_toBitVec, sig0_toBitVec, hget (by omega),
      hget (by omega), hget (by omega), hget (by omega)]

/-! ## Blocks -/

theorem foldl_shaRound (kw : List (UInt32 × UInt32)) (s : ShaState) :
    (kw.foldl shaRound s).toHash = (kw.map (Prod.map UInt32.toBitVec UInt32.toBitVec)).foldl
      (fun s kw => Sha256.round s kw.1 kw.2) s.toHash := by
  induction kw generalizing s with
  | nil => rfl
  | cons x kw ih => rw [List.foldl_cons, ih, shaRound_toHash, List.map_cons, List.foldl_cons]; rfl

theorem toHash_add (h s : ShaState) :
    ShaState.toHash ⟨h.a + s.a, h.b + s.b, h.c + s.c, h.d + s.d, h.e + s.e, h.f + s.f, h.g + s.g,
      h.h + s.h⟩ = s.toHash.add h.toHash := by
  ext1 <;> exact BitVec.add_comm ..

theorem shaBlock_toHash {blk : List UInt8} (hlen : blk.length = 64) (h : ShaState) :
    (shaBlock h blk).toHash = Sha256.compress h.toHash (bytesBits blk) := by
  let w := extendSchedule 48 ((List.range 16).map fun i => beWord blk (i * 4))
  have hw : w.map UInt32.toBitVec = (List.range 64).map (Sha256.schedule (bytesBits blk)) := by
    refine extendSchedule_toBitVec (bytesBits blk) 48 le_rfl ?_
    rw [List.map_map]
    refine List.map_congr_left fun t ht => ?_
    have ht := List.mem_range.mp ht
    rw [Function.comp_apply, beWord_toBitVec hlen ht, Sha256.schedule_of_lt ht]
  have hrounds : ((k256.zip w).foldl shaRound h).toHash = (List.range 64).foldl
      (fun s t => Sha256.round s (Sha256.roundConstant t) (Sha256.schedule (bytesBits blk) t)) h.toHash := by
    rw [foldl_shaRound, ← List.zip_map, k256_eq, hw, List.zip_map', List.foldl_map]
  rw [Sha256.compress, ← hrounds]
  exact toHash_add h ((k256.zip w).foldl shaRound h)

theorem shaBlocks_succ (n : Nat) (p : List UInt8) :
    shaBlocks (n + 1) p = fun h => shaBlocks n (p.drop 64) (shaBlock h (p.take 64)) := rfl

theorem shaBlocks_toHash {n : Nat} {p : List UInt8} (hlen : p.length = 64 * n) (h : ShaState) :
    (shaBlocks n p h).toHash =
      (List.range n).foldl (fun x i => Sha256.compress x (Sha256.block (bytesBits p) i)) h.toHash := by
  induction n generalizing p h with
  | zero => rfl
  | succ n ih =>
    have hfirst : Sha256.block (bytesBits p) 0 = bytesBits (p.take 64) := by
      rw [Sha256.block, Nat.mul_zero, List.drop_zero, show 512 = 8 * 64 by rfl, take_bytesBits]
    have hnext (i : Nat) :
        Sha256.block (bytesBits p) (i + 1) = Sha256.block (bytesBits (p.drop 64)) i := by
      rw [Sha256.block, Sha256.block, ← drop_bytesBits, List.drop_drop]
      congr 2
      ring
    rw [shaBlocks_succ, ih (by rw [List.length_drop]; omega),
      shaBlock_toHash (by rw [List.length_take]; omega), List.range_succ_eq_map, List.foldl_cons,
      List.foldl_map, hfirst]
    simp only [Nat.succ_eq_add_one, hnext]

/-! ## Padding -/

theorem length_shaPadded (msg : List UInt8) :
    (shaPadded msg).length = (msg.length + 9 + 63) / 64 * 64 := by
  simp only [shaPadded, List.length_append, List.length_cons, List.length_replicate, List.length_map,
    List.length_range]
  omega

/-- The buffer holds the padded message. -/
theorem shaPadded_bits {msg : List UInt8} (hlen : msg.length < 2 ^ 61) :
    bytesBits (shaPadded msg) = Sha256.pad (bytesBits msg) := by
  have hzeros : Sha256.zeros (8 * msg.length) =
      7 + 8 * ((msg.length + 9 + 63) / 64 * 64 - msg.length - 9) :=
    Sha256.zeros_eq (by omega) (by omega)
  have hone : byteBits 0x80 = true :: List.replicate 7 false := by decide
  have hlength : msg.length * 8 % 2 ^ 64 = 8 * msg.length := by omega
  have hbits := bytesBits_bigEndian 8 (8 * msg.length)
  simp only [shaPadded, hlength]
  rw [bytesBits_append, bytesBits_append, bytesBits_cons, hone, bytesBits_replicate_zero, hbits,
    Sha256.pad, length_bytesBits, hzeros, List.replicate_add]
  simp

/-! ## The digest -/

theorem word_bytes (w : UInt32) :
    bytesBits [(w >>> 24).toUInt8, (w >>> 16).toUInt8, (w >>> 8).toUInt8, w.toUInt8] =
      bits 32 w.toBitVec.toNat := by
  have hbyte (n : UInt32) (i : Nat) (hn : n.toNat = i * 8) (hi : i < 4) :
      (w >>> n).toUInt8 = UInt8.ofNat (w.toNat >>> (i * 8)) := by
    apply UInt8.toNat_inj.mp
    simp only [UInt32.toNat_toUInt8, UInt32.toNat_shiftRight, UInt8.toNat_ofNat', hn]
    rw [Nat.mod_eq_of_lt (by omega : i * 8 < 32)]
  have hlast : w.toUInt8 = UInt8.ofNat (w.toNat >>> (0 * 8)) := by
    apply UInt8.toNat_inj.mp
    simp
  have hbits := bytesBits_bigEndian 4 w.toNat
  rw [hbyte 24 3 rfl (by decide), hbyte 16 2 rfl (by decide), hbyte 8 1 rfl (by decide), hlast]
  exact hbits

/-- For every message of fewer than `2 ^ 61` bytes the code computes its SHA-256 digest. -/
theorem vc_sha256_is_sha256 {msg : List UInt8} (hlen : msg.length < 2 ^ 61) :
    (vcSha256 msg).length = 32 ∧ bytesBits (vcSha256 msg) = Sha256.digest (bytesBits msg) := by
  have hpad := shaPadded_bits hlen
  have hmult : (shaPadded msg).length = 64 * ((shaPadded msg).length / 64) := by
    rw [length_shaPadded]
    omega
  have hhash := shaBlocks_toHash hmult .init
  have hblocks : (Sha256.pad (bytesBits msg)).length / 512 = (shaPadded msg).length / 64 := by
    rw [← hpad, length_bytesBits]
    omega
  have hwords (s : ShaState) : bytesBits (s.words.flatMap fun (w : UInt32) =>
      [(w >>> 24).toUInt8, (w >>> 16).toUInt8, (w >>> 8).toUInt8, w.toUInt8]) =
      s.toHash.words.flatMap fun x => bits 32 x.toNat := by
    have hassoc := List.flatMap_assoc (l := s.words) (f := fun (w : UInt32) =>
      [(w >>> 24).toUInt8, (w >>> 16).toUInt8, (w >>> 8).toUInt8, w.toUInt8]) (g := byteBits)
    rw [bytesBits, hassoc]
    simp only [show ∀ l, List.flatMap byteBits l = bytesBits l from fun _ => rfl, word_bytes]
    rfl
  refine ⟨rfl, ?_⟩
  rw [vcSha256, hwords, hhash, init_toHash, Sha256.digest, Sha256.hashed, hblocks, hpad]

theorem vc_sha256_abc :
    (str "abc").length < 2 ^ 61 ∧ bytesBits (vcSha256 (str "abc")) = Sha256.digest (bytesBits (str "abc")) ∧
      vcSha256 (str "abc") =
       [0xba, 0x78, 0x16, 0xbf, 0x8f, 0x01, 0xcf, 0xea, 0x41, 0x41, 0x40, 0xde, 0x5d, 0xae, 0x22, 0x23,
        0xb0, 0x03, 0x61, 0xa3, 0x96, 0x17, 0x7a, 0x9c, 0xb4, 0x10, 0xff, 0x61, 0xf2, 0x00, 0x15, 0xad] :=
  ⟨by decide +kernel, (vc_sha256_is_sha256 (by decide +kernel)).2, by decide +kernel⟩

end VoidCache
