import VoidCache.Hash
import VoidCache.Lib.Bytes
import Mathlib.Data.Nat.Prime.Basic

/-!
# Which bytes of a key wyhash64 uses

A key of more than sixteen bytes is a number of sixteen-byte segments followed by one to sixteen
more bytes. The loop takes them in turn, one segment into `a`, the next into `b`, and the last
loads look at the end of the last segment and the rest. For each byte there is a key for which the
innermost product has a zero factor, and changing the byte makes it prime to 2^64 + 1; then the hash
is zero, and not zero. Keys of up to sixteen bytes are read through four windows, which for 14
bytes and more leave some out.
-/
namespace VoidCache

/-! ## Loads of a key in parts -/

section Loads

variable {p q : List UInt8} {off : Nat}

theorem load8_append_right (p q : List UInt8) (off : Nat) :
    load8 (p ++ q) (p.length + off) = load8 q off := by
  rw [load8, load8, List.getD_append_right _ _ _ _ (Nat.le_add_right ..), Nat.add_sub_cancel_left]

theorem load8_append_left (h : off < p.length) : load8 (p ++ q) off = load8 p off :=
  List.getD_append _ _ _ _ h

theorem load64_append_right (p q : List UInt8) (off : Nat) :
    load64 (p ++ q) (p.length + off) = load64 q off := by
  simp only [load64, load32, Nat.add_assoc, load8_append_right]

theorem load64_append_left (h : off + 8 ≤ p.length) : load64 (p ++ q) off = load64 p off := by
  unfold load64 load32
  repeat rw [load8_append_left (by omega)]

/-- A load from one part of a key. -/
theorem load64_part {l r : List UInt8} (h : off + 8 ≤ l.length) :
    load64 (p ++ (l ++ r)) (p.length + off) = load64 l off := by
  rw [load64_append_right, load64_append_left h]

theorem load64_part_start {l r : List UInt8} (h : 8 ≤ l.length) :
    load64 (p ++ (l ++ r)) p.length = load64 l 0 := by
  have hstart : 0 + 8 ≤ l.length := by omega
  rw [← Nat.add_zero p.length]
  exact load64_part hstart

end Loads

/-! ## The loop in segments -/

/-- The two accumulators, and how many segments have gone into them. -/
structure WyLanes where
  turn : Nat
  a : UInt64
  b : UInt64

/-- Sixteen bytes go into `a` and `b` by turns. -/
def absorb (s : WyLanes) (seg : List UInt8) : WyLanes :=
  let z := wymix (s.a ^^^ load64 seg 0) (s.b ^^^ load64 seg 8)
  if s.turn % 2 = 0 then ⟨s.turn + 1, z, s.b⟩ else ⟨s.turn + 1, s.a, z⟩

/-- What the last loads find in the last eight bytes of the segments with what follows them. -/
def endWords (l : List UInt8) : UInt64 × UInt64 :=
  let i := l.length - 8
  (load64 l (if 8 < i then i - 8 else 0), load64 l i)

theorem wyBlocks_stop {key : List UInt8} {s : WyState} (h : s.i ≤ 32) (fuel : Nat) :
    wyBlocks key fuel s = s := by
  cases fuel with
  | zero => rfl
  | succ fuel => exact if_neg (by omega)

section Segments

variable {tail : List UInt8} {segs : List (List UInt8)} {pre : List UInt8} {s : WyLanes} {fuel : Nat}

theorem absorb_of_even (hs : s.turn % 2 = 0) (g : List UInt8) : absorb s g =
    ⟨s.turn + 1, wymix (s.a ^^^ load64 g 0) (s.b ^^^ load64 g 8), s.b⟩ := if_pos hs

theorem absorb_of_odd (hs : s.turn % 2 = 1) (g : List UInt8) : absorb s g =
    ⟨s.turn + 1, s.a, wymix (s.a ^^^ load64 g 0) (s.b ^^^ load64 g 8)⟩ := if_neg (by omega)

@[simp] theorem absorb_turn (s : WyLanes) (g : List UInt8) : (absorb s g).turn = s.turn + 1 := by
  unfold absorb
  split <;> rfl

/-- The last whole segment, if the loop leaves one. -/
theorem wyTail_half {key g : List UInt8} (hkey : key = pre ++ (g ++ tail)) (hg : g.length = 16)
    (h1 : 1 ≤ tail.length) (h16 : tail.length ≤ 16) (hs : s.turn % 2 = 0) :
    wyTail key ⟨pre.length, 16 + tail.length, s.a, s.b⟩ =
      wyTail key ⟨pre.length + 16, tail.length, (absorb s g).a, (absorb s g).b⟩ := by
  have h0 : load64 key pre.length = load64 g 0 := by
    rw [hkey]
    exact load64_part_start (by omega)
  have h8 : load64 key (pre.length + 8) = load64 g 8 := by
    rw [hkey]
    exact load64_part (by omega)
  have hlong : 16 < 16 + tail.length := by omega
  have hshort : ¬ 16 < tail.length := by omega
  simp only [wyTail, absorb_of_even hs, h0, h8, if_pos hlong, if_neg hshort, Nat.add_sub_cancel_left]

/-- A round of the loop takes two segments. -/
theorem wyBlock_segments {key g h rest : List UInt8} (hkey : key = pre ++ (g ++ (h ++ rest)))
    (hg : g.length = 16) (hh : h.length = 16) (hs : s.turn % 2 = 0) :
    wyBlock key ⟨pre.length, (g ++ (h ++ rest)).length, s.a, s.b⟩ =
      ⟨(pre ++ (g ++ h)).length, rest.length, (absorb (absorb s g) h).a, (absorb (absorb s g) h).b⟩ := by
  have h0 : load64 key pre.length = load64 g 0 := by
    rw [hkey]
    exact load64_part_start (by omega)
  have h8 : load64 key (pre.length + 8) = load64 g 8 := by
    rw [hkey]
    exact load64_part (by omega)
  have hpast : ∀ off, off + 8 ≤ 16 → load64 key (pre.length + (16 + off)) = load64 h off := by
    intro off hoff
    rw [hkey, load64_append_right, ← hg, load64_append_right, load64_append_left (by omega)]
  have h16 : load64 key (pre.length + 16) = load64 h 0 := hpast 0 (by omega)
  have h24 : load64 key (pre.length + 24) = load64 h 8 := hpast 8 (by omega)
  have hp : pre.length + 32 = (pre ++ (g ++ h)).length := by
    simp only [List.length_append]
    omega
  have hi : (g ++ (h ++ rest)).length - 32 = rest.length := by
    simp only [List.length_append]
    omega
  have hodd : (absorb s g).turn % 2 = 1 := by
    rw [absorb_turn]
    omega
  rw [absorb_of_odd hodd, absorb_of_even hs]
  simp only [wyBlock, h0, h8, h16, h24, hp, hi]

/-- The loop, the half block and the last loads, from anywhere between two blocks. -/
theorem wyTail_wyBlocks {key : List UInt8} (pre : List UInt8) (h1 : 1 ≤ tail.length) (h16 : tail.length ≤ 16)
    (hsegs : ∀ g ∈ segs, g.length = 16) (hfuel : segs.length ≤ fuel) (hs : s.turn % 2 = 0)
    (hkey : key = pre ++ (segs.flatten ++ tail)) :
    wyTail key (wyBlocks key fuel ⟨pre.length, (segs.flatten ++ tail).length, s.a, s.b⟩) =
      wyTail key ⟨key.length - tail.length, tail.length, (segs.foldl absorb s).a,
        (segs.foldl absorb s).b⟩ := by
  induction segs using List.twoStepInduction generalizing pre fuel s with
  | nil =>
    have hlen : key.length - tail.length = pre.length := by simp [hkey]
    rw [wyBlocks_stop (h16.trans (by decide)), hlen]
    rfl
  | singleton g =>
    have hg : g.length = 16 := hsegs g List.mem_cons_self
    have hflat : [g].flatten ++ tail = g ++ tail := by simp
    rw [hflat] at hkey ⊢
    have hlen : key.length - tail.length = pre.length + 16 := by simp [hkey, hg, ← Nat.add_assoc]
    have hi : (g ++ tail).length = 16 + tail.length := by simp [hg]
    rw [hi, wyBlocks_stop (by dsimp only; omega), hlen]
    exact wyTail_half hkey hg h1 h16 hs
  | cons_cons g h rest ih _ =>
    have hg : g.length = 16 := hsegs g List.mem_cons_self
    have hh : h.length = 16 := hsegs h (List.mem_cons_of_mem _ List.mem_cons_self)
    have hlen : (g :: h :: rest).length = rest.length + 2 := rfl
    obtain ⟨f, rfl⟩ : ∃ f, fuel = f + 1 := ⟨fuel - 1, by omega⟩
    have hflat : (g :: h :: rest).flatten ++ tail = g ++ (h ++ (rest.flatten ++ tail)) := by simp
    rw [hflat] at hkey ⊢
    have hlong : 32 < (g ++ (h ++ (rest.flatten ++ tail))).length := by
      simp only [List.length_append]
      omega
    have hrest : ∀ x ∈ rest, x.length = 16 := fun x hx =>
      hsegs x (List.mem_cons_of_mem _ (List.mem_cons_of_mem _ hx))
    have heven : (absorb (absorb s g) h).turn % 2 = 0 := by
      simp only [absorb_turn]
      omega
    rw [wyBlocks, if_pos hlong, wyBlock_segments hkey hg hh hs]
    exact ih _ hrest (by omega) heven (by simp [hkey])

theorem length_flatten_segs (hsegs : ∀ g ∈ segs, g.length = 16) :
    segs.flatten.length = 16 * segs.length := by
  induction segs with
  | nil => rfl
  | cons g rest ih =>
    have hg := hsegs g List.mem_cons_self
    have hrest := ih fun x hx => hsegs x (List.mem_cons_of_mem _ hx)
    rw [List.flatten_cons, List.length_append, List.length_cons, hg, hrest]
    omega

theorem wyTail_last {w8 key : List UInt8} {a b : UInt64} (hkey : key = pre ++ (w8 ++ tail))
    (h16 : tail.length ≤ 16) (hpre : 8 ≤ pre.length) (hw : w8.length = 8) :
    wyTail key ⟨key.length - tail.length, tail.length, a, b⟩ =
      (a ^^^ (endWords (w8 ++ tail)).1, b ^^^ (endWords (w8 ++ tail)).2) := by
  have hlen : key.length = pre.length + (8 + tail.length) := by simp [hkey, hw]
  have hi : (w8 ++ tail).length - 8 = tail.length := by simp [hw]
  have hx : key.length - tail.length + tail.length - 16 +
      (if 8 < tail.length then 0 else 8 - tail.length) =
      pre.length + (if 8 < tail.length then tail.length - 8 else 0) := by
    split <;> omega
  have hy : key.length - tail.length + tail.length - 8 = pre.length + tail.length := by omega
  simp only [wyTail, endWords, hi, if_neg (Nat.not_lt.mpr h16), hx, hy]
  rw [hkey, load64_append_right, load64_append_right]

/-- What a long key contributes: its segments in turn, and the last loads. -/
theorem wyFold_segments {w8 key : List UInt8} (h1 : 1 ≤ tail.length) (h16 : tail.length ≤ 16)
    (hsegs : ∀ g ∈ segs, g.length = 16) (hkey : key = segs.flatten ++ tail)
    (hend : segs.flatten = pre ++ w8) (hpre : 8 ≤ pre.length) (hw : w8.length = 8) :
    wyFold key = ((segs.foldl absorb ⟨0, 0, 0⟩).a ^^^ (endWords (w8 ++ tail)).1,
      (segs.foldl absorb ⟨0, 0, 0⟩).b ^^^ (endWords (w8 ++ tail)).2) := by
  have hflat := length_flatten_segs hsegs
  have hlen : key.length = segs.flatten.length + tail.length := by rw [hkey, List.length_append]
  have hlong : ¬ key.length ≤ 16 := by
    have : segs.flatten.length = pre.length + 8 := by rw [hend, List.length_append, hw]
    omega
  have hblocks := wyTail_wyBlocks [] (s := ⟨0, 0, 0⟩) h1 h16 hsegs
    (by omega : segs.length ≤ key.length) rfl hkey
  rw [← hkey] at hblocks
  rw [hend, List.append_assoc] at hkey
  calc wyFold key = wyTail key (wyBlocks key key.length ⟨0, key.length, 0, 0⟩) := if_neg hlong
    _ = _ := hblocks
    _ = _ := wyTail_last hkey h16 hpre hw

end Segments

/-! ## Telling two keys apart -/

/-- Some two keys of length `n` that differ at most in byte `i` have different hashes. -/
def UsesByte (seed : UInt64) (n i : Nat) : Prop :=
  ∃ k k' : List UInt8, k.length = n ∧ k'.length = n ∧ (∀ m, m ≠ i → k[m]? = k'[m]?) ∧
    wyhash64 k seed ≠ wyhash64 k' seed

def fermat6 : Nat := 2 ^ 64 + 1

def innerMix (ab : UInt64 × UInt64) : UInt64 := wymix (ab.1 ^^^ wyC1) (ab.2 ^^^ wyC2)

/-- One innermost product is zero, and the other has no factor that could make the hash zero. -/
def Tells (z z' : UInt64) : Prop := z = 0 ∧ Nat.Coprime z'.toNat fermat6

instance (z z' : UInt64) : Decidable (Tells z z') := inferInstanceAs (Decidable (_ ∧ _))

/-- The halves of a product are equal only for a multiple of 2^64 + 1. -/
theorem wymix_ne_zero {m t : UInt64} (hm : m ≠ 0) (ht : Nat.Coprime t.toNat fermat6) :
    wymix m t ≠ 0 := by
  intro h
  have hhalves := congrArg UInt64.toNat (UInt64.xor_eq_zero_iff.mp h)
  have hlt : m.toNat * t.toNat < 2 ^ 64 * 2 ^ 64 :=
    Nat.mul_lt_mul'' m.toNat_lt t.toNat_lt
  rw [UInt64.toNat_ofNat', UInt64.toNat_ofNat', Nat.mod_eq_of_lt (Nat.div_lt_of_lt_mul hlt)] at hhalves
  have hdvd : fermat6 ∣ m.toNat * t.toNat := by
    refine ⟨m.toNat * t.toNat / 2 ^ 64, ?_⟩
    have := Nat.div_add_mod (m.toNat * t.toNat) (2 ^ 64)
    unfold fermat6
    omega
  have hm0 := Nat.eq_zero_of_dvd_of_lt (ht.symm.dvd_of_dvd_mul_right hdvd)
    (m.toNat_lt.trans (Nat.lt_succ_self _))
  exact hm (UInt64.toNat_inj.mp hm0)

theorem usesByte_of_tells {seed : UInt64} {n j : Nat} {pre l : List UInt8} (post : List UInt8) {v : UInt8}
    (hlen : (pre ++ (l ++ post)).length = n) (hseed : wySeed seed ≠ UInt64.ofNat n)
    (h : Tells (innerMix (wyFold (pre ++ (l ++ post)))) (innerMix (wyFold (pre ++ (l.set j v ++ post))))) :
    UsesByte seed n (pre.length + j) := by
  have hlen' : (pre ++ (l.set j v ++ post)).length = n := by simpa using hlen
  refine ⟨_, _, hlen, hlen', fun m hm => ?_, ?_⟩
  · grind
  · have hm : wySeed seed ^^^ UInt64.ofNat n ≠ 0 := fun h0 => hseed (UInt64.xor_eq_zero_iff.mp h0)
    have hz : wyhash64 (pre ++ (l ++ post)) seed = 0 := by
      show wymix _ (innerMix (wyFold _)) = 0
      rw [h.1, wymix_zero_right]
    rw [hz]
    show 0 ≠ wymix (_ ^^^ UInt64.ofNat (pre ++ (l.set j v ++ post)).length) (innerMix (wyFold _))
    rw [hlen']
    exact (wymix_ne_zero hm h.2).symm

/-! ## Keys of more than sixteen bytes -/

def zeros (n : Nat) : List UInt8 := List.replicate n 0

def one8 : List UInt8 := [1, 0, 0, 0, 0, 0, 0, 0]

def wordBytes (w : Nat) : List UInt8 := leBytes 8 w

def flipAt (l : List UInt8) (j : Nat) : List UInt8 := l.set j (load8 l j ^^^ 1)

@[simp] theorem length_zeros (n : Nat) : (zeros n).length = n := List.length_replicate

@[simp] theorem length_one8 : one8.length = 8 := rfl

@[simp] theorem length_wordBytes (w : Nat) : (wordBytes w).length = 8 := length_leBytes 8 w

@[simp] theorem length_flipAt (l : List UInt8) (j : Nat) : (flipAt l j).length = l.length :=
  List.length_set

theorem wymix_one_left (v : UInt64) : wymix 1 v = v := by
  simp [wymix, Nat.div_eq_of_lt v.toNat_lt]

theorem wymix_one_right (v : UInt64) : wymix v 1 = v := by
  simp [wymix, Nat.div_eq_of_lt v.toNat_lt]

/-- What a segment makes of accumulators that are zero. -/
def mixed (g : List UInt8) : UInt64 := wymix (load64 g 0) (load64 g 8)

/-- One accumulator holds `v`, the other is zero. -/
def holding (odd : Bool) (t : Nat) (v : UInt64) : WyLanes := if odd then ⟨t, 0, v⟩ else ⟨t, v, 0⟩

/-- A segment that leaves the accumulators so. -/
def carrier (odd : Bool) (t : Nat) : List UInt8 :=
  if odd = decide (t % 2 = 1) then if odd then one8 ++ zeros 8 else zeros 8 ++ one8 else zeros 16

theorem absorb_zero (t : Nat) (g : List UInt8) :
    absorb ⟨t, 0, 0⟩ g = holding (decide (t % 2 = 1)) (t + 1) (mixed g) := by
  rcases Nat.mod_two_eq_zero_or_one t with h | h
  · simp [absorb, holding, mixed, h]
  · simp [absorb, holding, mixed, h]

theorem absorb_carrier (odd : Bool) (t : Nat) (v : UInt64) :
    absorb (holding odd t v) (carrier odd t) = holding odd (t + 1) v := by
  have hone : load64 (zeros 8 ++ one8) 0 = 0 ∧ load64 (zeros 8 ++ one8) 8 = 1 ∧
      load64 (one8 ++ zeros 8) 0 = 1 ∧ load64 (one8 ++ zeros 8) 8 = 0 ∧ load64 (zeros 16) 0 = 0 ∧
      load64 (zeros 16) 8 = 0 := by decide
  obtain ⟨h1, h2, h3, h4, h5, h6⟩ := hone
  rcases Nat.mod_two_eq_zero_or_one t with h | h <;> cases odd <;>
    simp [absorb, holding, carrier, h, h1, h2, h3, h4, h5, h6, wymix_zero_left, wymix_zero_right,
      wymix_one_left, wymix_one_right]

def zeroSegs (u : Nat) : List (List UInt8) := List.replicate u (zeros 16)

/-- The segments that carry an accumulator on for `r` turns. -/
def carriers (odd : Bool) (t r : Nat) : List (List UInt8) := (List.range r).map fun k => carrier odd (t + k)

theorem foldl_zeroSegs (u : Nat) : (zeroSegs u).foldl absorb ⟨0, 0, 0⟩ = ⟨u, 0, 0⟩ := by
  induction u with
  | zero => rfl
  | succ u ih =>
    have hmixed : mixed (zeros 16) = 0 := by decide
    rw [zeroSegs, List.replicate_succ', List.foldl_append]
    change absorb ((zeroSegs u).foldl absorb ⟨0, 0, 0⟩) (zeros 16) = _
    rw [ih, absorb_zero, hmixed, holding, ite_self]

theorem foldl_carriers (odd : Bool) (t r : Nat) (v : UInt64) :
    (carriers odd t r).foldl absorb (holding odd t v) = holding odd (t + r) v := by
  induction r with
  | zero => rfl
  | succ r ih =>
    rw [carriers, List.range_succ, List.map_append, List.foldl_append]
    change absorb ((carriers odd t r).foldl absorb (holding odd t v)) (carrier odd (t + r)) = _
    rw [ih, absorb_carrier, Nat.add_assoc]

/-- The segments of a key in which segment `u` is all that counts. -/
def keySegs (u : Nat) (g : List UInt8) (r : Nat) : List (List UInt8) :=
  zeroSegs u ++ g :: carriers (decide (u % 2 = 1)) (u + 1) r

theorem foldl_keySegs (u : Nat) (g : List UInt8) (r : Nat) :
    (keySegs u g r).foldl absorb ⟨0, 0, 0⟩ =
      holding (decide (u % 2 = 1)) (u + 1 + r) (mixed g) := by
  rw [keySegs, List.foldl_append, foldl_zeroSegs, List.foldl_cons, absorb_zero, foldl_carriers]

@[simp] theorem length_carrier (odd : Bool) (t : Nat) : (carrier odd t).length = 16 := by
  unfold carrier
  split
  · cases odd <;> rfl
  · rfl

theorem length_of_mem_keySegs {u r : Nat} {g x : List UInt8} (hg : g.length = 16)
    (hx : x ∈ keySegs u g r) : x.length = 16 := by
  simp only [keySegs, zeroSegs, carriers, List.mem_append, List.mem_cons, List.mem_map] at hx
  obtain hx | rfl | ⟨k, -, rfl⟩ := hx
  · rw [List.eq_of_mem_replicate hx, length_zeros]
  · exact hg
  · exact length_carrier ..

/-- What the two accumulators and the last loads give. -/
def joined (odd : Bool) (v : UInt64) (xy : UInt64 × UInt64) : UInt64 × UInt64 :=
  if odd then (xy.1, v ^^^ xy.2) else (v ^^^ xy.1, xy.2)

theorem holding_joined (odd : Bool) (t : Nat) (v : UInt64) (xy : UInt64 × UInt64) :
    ((holding odd t v).a ^^^ xy.1, (holding odd t v).b ^^^ xy.2) = joined odd v xy := by
  cases odd <;> simp [holding, joined]

theorem flatten_zeroSegs (u : Nat) : (zeroSegs u).flatten = zeros (16 * u) := by
  rw [zeroSegs, zeros, List.flatten_replicate_replicate, Nat.mul_comm]
  rfl

theorem flatten_keySegs (u : Nat) (g : List UInt8) (r : Nat) : (keySegs u g r).flatten =
    zeros (16 * u) ++ (g ++ (carriers (decide (u % 2 = 1)) (u + 1) r).flatten) := by
  rw [keySegs, List.flatten_append, flatten_zeroSegs, List.flatten_cons]

/-- Where nothing comes after the segment that counts, the last loads look into it. -/
theorem wyFold_last {u : Nat} {x8 l : List UInt8} (hx : x8.length = 8) (h9 : 9 ≤ l.length)
    (h24 : l.length ≤ 24) :
    wyFold (zeros (16 * u) ++ (x8 ++ l)) =
      joined (decide (u % 2 = 1)) (mixed (x8 ++ l.take 8)) (endWords l) := by
  have htake : (l.take 8).length = 8 := by
    rw [List.length_take]
    omega
  have hdrop : (l.drop 8).length = l.length - 8 := List.length_drop
  have hg : (x8 ++ l.take 8).length = 16 := by rw [List.length_append, hx, htake]
  have hflat : (keySegs u (x8 ++ l.take 8) 0).flatten = zeros (16 * u) ++ x8 ++ l.take 8 := by
    rw [flatten_keySegs]
    simp [carriers]
  have hkey : zeros (16 * u) ++ (x8 ++ l) = (keySegs u (x8 ++ l.take 8) 0).flatten ++ l.drop 8 := by
    rw [hflat]
    simp
  rw [wyFold_segments (by omega) (by omega) (fun g => length_of_mem_keySegs hg) hkey hflat
    (by simp; omega) htake, foldl_keySegs, holding_joined, List.take_append_drop]

/-- The last word of the segments when the tail is zero. -/
def lastWord (u r : Nat) : List UInt8 :=
  if r = 0 then one8 else (carrier (decide (u % 2 = 1)) (u + r)).drop 8

theorem lastWord_cases (u r : Nat) : lastWord u r = zeros 8 ∨ lastWord u r = one8 := by
  have hcarrier : ∀ odd turn : Bool,
      (if odd = turn then if odd then one8 ++ zeros 8 else zeros 8 ++ one8 else zeros 16).drop 8 =
        zeros 8 ∨
      (if odd = turn then if odd then one8 ++ zeros 8 else zeros 8 ++ one8 else zeros 16).drop 8 =
        one8 := by decide
  unfold lastWord
  split
  · exact .inr rfl
  · exact hcarrier _ _

/-- Where segments come after the one that counts, or it ends in a one. -/
theorem wyFold_carried {u r i : Nat} {g : List UInt8} (hg : g.length = 16)
    (hr : r = 0 → g.drop 8 = one8) (h1 : 1 ≤ i) (h16 : i ≤ 16) :
    wyFold (zeros (16 * u) ++ (g ++ ((carriers (decide (u % 2 = 1)) (u + 1) r).flatten ++ zeros i))) =
      joined (decide (u % 2 = 1)) (mixed g) (endWords (lastWord u r ++ zeros i)) := by
  have hw : (lastWord u r).length = 8 := by
    obtain h | h := lastWord_cases u r <;> rw [h] <;> rfl
  have hend : ∃ pre, (keySegs u g r).flatten = pre ++ lastWord u r := by
    cases r with
    | zero =>
      refine ⟨zeros (16 * u) ++ g.take 8, ?_⟩
      rw [flatten_keySegs, lastWord, if_pos rfl, ← hr rfl]
      simp [carriers]
    | succ r =>
      refine ⟨zeros (16 * u) ++ (g ++ ((carriers (decide (u % 2 = 1)) (u + 1) r).flatten ++
        (carrier (decide (u % 2 = 1)) (u + 1 + r)).take 8)), ?_⟩
      rw [flatten_keySegs, lastWord, if_neg (Nat.succ_ne_zero r), carriers, List.range_succ,
        List.map_append, List.flatten_append, show u + (r + 1) = u + 1 + r by omega]
      simp [carriers]
  obtain ⟨pre, hpre⟩ := hend
  have hsegs : ∀ x ∈ keySegs u g r, x.length = 16 := fun x => length_of_mem_keySegs hg
  have hlen := length_flatten_segs hsegs
  have hsome : 1 ≤ (keySegs u g r).length := by
    simp only [keySegs, List.length_append, List.length_cons]
    omega
  have hpre8 : 8 ≤ pre.length := by
    rw [hpre, List.length_append, hw] at hlen
    omega
  have hkey : zeros (16 * u) ++ (g ++ ((carriers (decide (u % 2 = 1)) (u + 1) r).flatten ++ zeros i)) =
      (keySegs u g r).flatten ++ zeros i := by
    rw [flatten_keySegs]
    simp
  rw [wyFold_segments (by simpa using h1) (by simpa using h16) hsegs hkey hpre hpre8 hw,
    foldl_keySegs, holding_joined]

/-! ## Keys that show each byte -/

/-- A segment by which byte `j` of it shows; `x` is what the last loads add to `a`. -/
def probe (odd : Bool) (x : UInt64) (j : Nat) : List UInt8 :=
  let v := wordBytes (if odd then wyC2 else wyC1 ^^^ x).toNat
  if j < 8 then v ++ one8 else one8 ++ v

theorem probe_tells : ∀ odd one : Bool, ∀ j < 16,
    Tells (innerMix (joined odd (mixed (probe odd one.toUInt64 j)) (one.toUInt64, 0)))
      (innerMix (joined odd (mixed (flipAt (probe odd one.toUInt64 j) j)) (one.toUInt64, 0))) := by
  decide +kernel

theorem endWords_zeros : ∀ w ∈ [zeros 8, one8], ∀ i < 17, 1 ≤ i →
    ∃ one : Bool, endWords (w ++ zeros i) = (one.toUInt64, 0) := by
  decide +kernel

/-- Byte `j` of the last word of the segments and what follows it, where the last loads see it. -/
def windowKey (i j : Nat) : List UInt8 :=
  if j < max i 8 then zeros (i - 8) ++ wordBytes wyC1.toNat ++ zeros (min i 8)
  else zeros i ++ wordBytes wyC2.toNat

theorem windowKey_tells : ∀ i < 17, 1 ≤ i → ∀ j < 8 + i, i - 8 ≤ j →
    Tells (innerMix (endWords (windowKey i j))) (innerMix (endWords (flipAt (windowKey i j) j))) := by
  decide +kernel

/-- The solution of `z ^ (z >> 8 * (i - 8)) = C1`. -/
def unshift (i : Nat) : Nat := (fun z => wyC1.toNat ^^^ z / 256 ^ (i - 8))^[8] 0

/-- The last word of the segments with zeros after it, for the bytes that the last loads leave. -/
def backKey (odd : Bool) (i : Nat) : List UInt8 :=
  wordBytes (if odd then wyC2.toNat else unshift i) ++ zeros i

theorem backKey_tells : ∀ odd : Bool, ∀ i < 17, ∀ j < i - 8,
    Tells
      (innerMix (joined odd (mixed (one8 ++ (backKey odd i).take 8)) (endWords (backKey odd i))))
      (innerMix (joined odd (mixed (one8 ++ (flipAt (backKey odd i) j).take 8))
        (endWords (flipAt (backKey odd i) j)))) := by
  decide +kernel

@[simp] theorem length_probe (odd : Bool) (x : UInt64) (j : Nat) : (probe odd x j).length = 16 := by
  unfold probe
  dsimp only
  split <;> rw [List.length_append, length_wordBytes, length_one8]

theorem drop_probe (odd : Bool) (x : UInt64) {j : Nat} (h : j < 8) : (probe odd x j).drop 8 = one8 := by
  rw [probe, if_pos h]
  exact List.drop_left' (length_wordBytes _)

theorem drop_flipAt_probe (odd : Bool) (x : UInt64) {j : Nat} (h : j < 8) :
    (flipAt (probe odd x j) j).drop 8 = one8 := by
  rw [flipAt, List.drop_set_of_lt h, drop_probe odd x h]

theorem length_windowKey (i j : Nat) : (windowKey i j).length = 8 + i := by
  unfold windowKey
  split <;> simp <;> omega

@[simp] theorem length_backKey (odd : Bool) (i : Nat) : (backKey odd i).length = 8 + i := by
  simp [backKey]

theorem mixed_zeros (w : List UInt8) : mixed (zeros 8 ++ w) = 0 := by
  have h : load64 (zeros 8 ++ w) 0 = 0 := load64_append_left (Nat.le_refl 8)
  rw [mixed, h, wymix_zero_left]

@[simp] theorem joined_zero (odd : Bool) (xy : UInt64 × UInt64) : joined odd 0 xy = xy := by
  cases odd <;> simp [joined]

section Long

variable {seed : UInt64} {n i : Nat}

/-- A byte that the last loads do not see. -/
theorem usesByte_carried {u r c : Nat} (hseed : wySeed seed ≠ UInt64.ofNat n)
    (hn : n = 16 * (u + 1 + r) + i) (h1 : 1 ≤ i) (h16 : i ≤ 16) (hc : c < 16) (hr : r = 0 → c < 8) :
    UsesByte seed n (16 * u + c) := by
  obtain ⟨one, hlast⟩ :=
    endWords_zeros (lastWord u r) (by simpa using lastWord_cases u r) i (by omega) h1
  have htells := probe_tells (decide (u % 2 = 1)) one c hc
  have hg := length_probe (decide (u % 2 = 1)) one.toUInt64 c
  rw [← hlast,
    ← wyFold_carried hg (fun h => drop_probe _ _ (hr h)) h1 h16,
    ← wyFold_carried (by rwa [length_flipAt]) (fun h => drop_flipAt_probe _ _ (hr h)) h1 h16] at htells
  have hflat : (carriers (decide (u % 2 = 1)) (u + 1) r).flatten.length = 16 * r := by
    rw [length_flatten_segs, carriers, List.length_map, List.length_range]
    intro g hg
    obtain ⟨k, -, rfl⟩ := List.mem_map.mp hg
    exact length_carrier ..
  have h := usesByte_of_tells _ (by simp [hflat]; omega) hseed htells
  rwa [length_zeros] at h

theorem usesByte_end {u c : Nat} {x8 l : List UInt8} (hseed : wySeed seed ≠ UInt64.ofNat n)
    (hn : n = 16 * (u + 1) + i) (h1 : 1 ≤ i) (h16 : i ≤ 16) (hx : x8.length = 8)
    (hl : l.length = 8 + i)
    (htells : Tells
      (innerMix (joined (decide (u % 2 = 1)) (mixed (x8 ++ l.take 8)) (endWords l)))
      (innerMix (joined (decide (u % 2 = 1)) (mixed (x8 ++ (flipAt l c).take 8))
        (endWords (flipAt l c))))) :
    UsesByte seed n (16 * u + 8 + c) := by
  have hl' : (flipAt l c).length = 8 + i := by rw [length_flipAt, hl]
  rw [← wyFold_last hx (by omega) (by omega), ← wyFold_last hx (by omega) (by omega)] at htells
  have hpre : (zeros (16 * u) ++ x8).length = 16 * u + 8 := by
    rw [List.length_append, length_zeros, hx]
  rw [← hpre]
  refine usesByte_of_tells [] (l := l) (v := load8 l c ^^^ 1) ?_ hseed ?_
  · simp only [List.length_append, List.length_nil, length_zeros, hx, hl]
    omega
  · rw [List.append_nil, List.append_nil, List.append_assoc, List.append_assoc]
    exact htells

/-- A byte of the last word of the segments or of what follows it. -/
theorem usesByte_last {u c : Nat} (hseed : wySeed seed ≠ UInt64.ofNat n)
    (hn : n = 16 * (u + 1) + i) (h1 : 1 ≤ i) (h16 : i ≤ 16) (hc : c < 8 + i) :
    UsesByte seed n (16 * u + 8 + c) := by
  by_cases hback : c < i - 8
  · exact usesByte_end hseed hn h1 h16 length_one8 (length_backKey _ i)
      (backKey_tells (decide (u % 2 = 1)) i (by omega) c hback)
  · refine usesByte_end hseed hn h1 h16 (length_zeros 8) (length_windowKey i c) ?_
    rw [mixed_zeros, mixed_zeros, joined_zero, joined_zero]
    exact windowKey_tells i (by omega) h1 c hc (by omega)

theorem usesByte_long {j : Nat} (hseed : wySeed seed ≠ UInt64.ofNat n) (hn : 16 < n) (hj : j < n) :
    UsesByte seed n j := by
  have hsplit : n = 16 * ((n - 1) / 16) + ((n - 1) % 16 + 1) := by omega
  by_cases hend : 16 * ((n - 1) / 16) ≤ j + 8
  · obtain ⟨u, hu⟩ : ∃ u, (n - 1) / 16 = u + 1 := ⟨(n - 1) / 16 - 1, by omega⟩
    obtain ⟨c, rfl⟩ : ∃ c, j = 16 * u + 8 + c := ⟨j - (16 * u + 8), by omega⟩
    exact usesByte_last hseed (hu ▸ hsplit) (Nat.le_add_left ..) (by omega) (by omega)
  · have hcut : j = 16 * (j / 16) + j % 16 := (Nat.div_add_mod j 16).symm
    obtain ⟨r, hr⟩ : ∃ r, (n - 1) / 16 = j / 16 + 1 + r := ⟨(n - 1) / 16 - (j / 16 + 1), by omega⟩
    rw [hcut]
    exact usesByte_carried hseed (hr ▸ hsplit) (Nat.le_add_left ..) (by omega) (by omega) (by omega)

end Long

/-! ## Keys of up to sixteen bytes -/

/-- The bytes between the windows of a key of 14 to 16 bytes. -/
def Unread (n i : Nat) : Prop :=
  (n = 14 ∧ (i = 4 ∨ i = 9)) ∨ (n = 15 ∧ (i = 4 ∨ i = 10)) ∨
    (n = 16 ∧ (i = 4 ∨ i = 5 ∨ i = 10 ∨ i = 11))

instance (n i : Nat) : Decidable (Unread n i) := inferInstanceAs (Decidable (_ ∨ _))

theorem flipAt_zeros_ne : ∀ n < 17, ∀ i < n, ¬ Unread n i →
    wyhash64 (zeros n) 0 ≠ wyhash64 (flipAt (zeros n) i) 0 := by
  decide +kernel

theorem usesByte_short {n i : Nat} (hn : n ≤ 16) (hi : i < n) (h : ¬ Unread n i) : UsesByte 0 n i := by
  refine ⟨zeros n, flipAt (zeros n) i, length_zeros n, by simp, fun m hm => ?_,
    flipAt_zeros_ne n (by omega) i hi h⟩
  exact (List.getElem?_set_ne (Ne.symm hm)).symm

/-- Loads that do not touch the one byte in which two keys differ. -/
theorem load32_congr {k k' : List UInt8} {i off : Nat} (h : ∀ m, m ≠ i → k[m]? = k'[m]?)
    (hoff : i < off ∨ off + 4 ≤ i) : load32 k off = load32 k' off := by
  have hbyte : ∀ m, m ≠ i → load8 k m = load8 k' m := by
    intro m hm
    rw [load8, load8, List.getD_eq_getElem?_getD, List.getD_eq_getElem?_getD, h m hm]
  unfold load32
  rw [hbyte off (by omega), hbyte (off + 1) (by omega), hbyte (off + 2) (by omega),
    hbyte (off + 3) (by omega)]

theorem not_usesByte_of_unread {n i : Nat} (h : Unread n i) (seed : UInt64) : ¬ UsesByte seed n i := by
  rintro ⟨k, k', hk, hk', hsame, hne⟩
  refine hne ?_
  have hfold : wyFold k = wyFold k' := by
    have hn : n ≤ 16 ∧ 4 ≤ n := by
      unfold Unread at h
      omega
    unfold Unread at h
    simp only [wyFold, hk, hk', if_pos hn.1, if_pos hn.2]
    rw [load32_congr hsame (by omega), load32_congr hsame (by omega), load32_congr hsame (by omega),
      load32_congr hsame (by omega)]
  rw [wyhash64, wyhash64, hfold, hk, hk']

/-- What the lookups of the cache, which hash with seed 0, mix with the length of the key. -/
def wySeedZero : Nat := 0x670527f286862c69

theorem wySeed_zero : wySeed 0 = UInt64.ofNat wySeedZero := by decide +kernel

theorem ofNat_eq_wySeed {n : Nat} : wySeed 0 = UInt64.ofNat n ↔ n % 2 ^ 64 = wySeedZero := by
  rw [wySeed_zero, ← UInt64.toNat_inj, UInt64.toNat_ofNat', UInt64.toNat_ofNat', eq_comm]
  rfl

/-- Every byte of a key of every length counts, but for those between the windows of keys of 14
to 16 bytes, and for the one length that cancels the seed: then every hash is zero. -/
theorem wyhash64_uses_byte_iff {n i : Nat} (hi : i < n) :
    UsesByte 0 n i ↔ ¬ Unread n i ∧ n % 2 ^ 64 ≠ wySeedZero := by
  constructor
  · intro h
    refine ⟨fun hu => not_usesByte_of_unread hu 0 h, fun hcancel => ?_⟩
    obtain ⟨k, k', hk, hk', -, hne⟩ := h
    have hzero : wySeed 0 ^^^ UInt64.ofNat n = 0 := by
      rw [ofNat_eq_wySeed.mpr hcancel, UInt64.xor_self]
    refine hne ?_
    rw [wyhash64, wyhash64, hk, hk', hzero]
    simp only [wymix_zero_left]
  · rintro ⟨hread, hlen⟩
    by_cases hn : n ≤ 16
    · exact usesByte_short hn hi hread
    · exact usesByte_long (fun h => hlen (ofNat_eq_wySeed.mp h)) (by omega) hi

theorem wyhash64_uses_byte_three : UsesByte 0 17 3 :=
  (wyhash64_uses_byte_iff (by decide)).mpr (by decide)

theorem wyhash64_ignores_byte_four : ¬ UsesByte 0 16 4 :=
  not_usesByte_of_unread (by decide) 0

end VoidCache
