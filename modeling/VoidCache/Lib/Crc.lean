import Mathlib.Data.BitVec

/-!
# Cyclic redundancy checks

The remainder of a message, most significant bit first, bit by bit. One shift of the remainder
is linear in exclusive or, so eight shifts are a table entry for its top octet and the rest
moved up. `feedWith` reads the entries from any table. If that table is off by `err`, the
remainder it computes is the right one up to a `drift`, which depends on the errors met only.
-/
namespace VoidCache.Crc

variable {w : Nat}

/-- One bit: shift, and subtract the polynomial if a one falls out. -/
def shift (poly c : BitVec w) : BitVec w := if c.msb then (c <<< 1) ^^^ poly else c <<< 1

def shifts (poly : BitVec w) : Nat → BitVec w → BitVec w
  | 0, c => c
  | n + 1, c => shift poly (shifts poly n c)

/-- An octet, as the top eight bits of a remainder. -/
def onTop (w : Nat) (b : BitVec 8) : BitVec w := b.setWidth w <<< (w - 8)

/-- The top eight bits of a remainder. -/
def top (c : BitVec w) : BitVec 8 := (c >>> (w - 8)).setWidth 8

/-- The remainder after one more octet. -/
def feed (poly c : BitVec w) (b : BitVec 8) : BitVec w := shifts poly 8 (c ^^^ onTop w b)

/-- The remainder of a message. -/
def crc (poly : BitVec w) (msg : List (BitVec 8)) : BitVec w := msg.foldl (feed poly) 0#w

/-! ## Linearity -/

theorem shift_xor (poly a b : BitVec w) : shift poly (a ^^^ b) = shift poly a ^^^ shift poly b := by
  unfold shift
  rw [BitVec.msb_xor, BitVec.shiftLeft_xor_distrib]
  cases a.msb <;> cases b.msb <;> simp only [Bool.xor_self, Bool.xor_true, Bool.xor_false,
    Bool.not_false, Bool.false_eq_true, if_true, if_false]
  · ac_rfl
  · ac_rfl
  · have hcancel : a <<< 1 ^^^ poly ^^^ (b <<< 1 ^^^ poly) = a <<< 1 ^^^ b <<< 1 ^^^ (poly ^^^ poly) := by
      ac_rfl
    rw [hcancel, BitVec.xor_self, BitVec.xor_zero]

theorem shifts_xor (poly : BitVec w) (n : Nat) (a b : BitVec w) :
    shifts poly n (a ^^^ b) = shifts poly n a ^^^ shifts poly n b := by
  induction n with
  | zero => rfl
  | succ n ih => rw [shifts, ih, shift_xor, ← shifts, ← shifts]

/-- A remainder whose top `n` bits are clear only moves up through `n` shifts. -/
theorem shifts_of_clear (poly : BitVec w) {y : BitVec w} {n : Nat}
    (hy : ∀ i, w ≤ i + n → y.getLsbD i = false) : ∀ k ≤ n, shifts poly k y = y <<< k
  | 0, _ => by simp [shifts]
  | k + 1, hk => by
    have ih := shifts_of_clear poly hy k (by omega)
    have hmsb : (y <<< k).msb = false := by
      rw [BitVec.msb_eq_getLsbD_last, BitVec.getLsbD_shiftLeft]
      by_cases hk' : w - 1 < k
      · simp [hk']
      · rw [hy (w - 1 - k) (by omega)]
        simp
    rw [shifts, ih, shift, if_neg (by simp [hmsb]), ← BitVec.shiftLeft_add]

/-! ## Tables -/

/-- The entry of the table for an octet. -/
def entry (poly : BitVec w) (i : BitVec 8) : BitVec w := shifts poly 8 (onTop w i)

/-- One octet, with the entries of a given table. -/
def feedWith (tab : BitVec 8 → BitVec w) (c : BitVec w) (b : BitVec 8) : BitVec w :=
  (c <<< 8) ^^^ tab (top c ^^^ b)

theorem getLsbD_onTop (b : BitVec 8) (i : Nat) :
    (onTop w b).getLsbD i = (decide (i < w) && decide (w - 8 ≤ i) && b.getLsbD (i - (w - 8))) := by
  rw [onTop, BitVec.getLsbD_shiftLeft, BitVec.getLsbD_setWidth]
  by_cases hi : i < w
  · by_cases hlow : w - 8 ≤ i
    · simp [hi, hlow, show i - (w - 8) < w by omega, show ¬ i < w - 8 by omega]
    · simp [hlow, show i < w - 8 by omega]
  · simp [hi]

theorem getLsbD_top (c : BitVec w) (i : Nat) :
    (top c).getLsbD i = (decide (i < 8) && c.getLsbD (w - 8 + i)) := by
  rw [top, BitVec.getLsbD_setWidth, BitVec.getLsbD_ushiftRight]

/-- Eight bits at a time: the entry for the top octet, and the rest moved up. -/
theorem feed_eq (hw : 8 ≤ w) (poly c : BitVec w) (b : BitVec 8) :
    feed poly c b = feedWith (entry poly) c b := by
  have hsplit : c ^^^ onTop w b = (c ^^^ onTop w (top c)) ^^^ onTop w (top c ^^^ b) := by
    apply BitVec.eq_of_getLsbD_eq
    intro i hi
    simp only [BitVec.getLsbD_xor, getLsbD_onTop, getLsbD_top]
    by_cases hlow : w - 8 ≤ i
    · have hback : w - 8 + (i - (w - 8)) = i := by omega
      simp [hi, hlow, hback, show i - (w - 8) < 8 by omega]
    · simp [hlow]
  -- the rest of the remainder has nothing in its top octet
  have hclear : ∀ i, w ≤ i + 8 → (c ^^^ onTop w (top c)).getLsbD i = false := by
    intro i hi
    simp only [BitVec.getLsbD_xor, getLsbD_onTop, getLsbD_top]
    by_cases hiw : i < w
    · have hback : w - 8 + (i - (w - 8)) = i := by omega
      simp [hiw, hback, show w - 8 ≤ i by omega, show i - (w - 8) < 8 by omega]
    · simp [hiw, BitVec.getLsbD_of_ge c i (by omega)]
  have hmoved : (c ^^^ onTop w (top c)) <<< 8 = c <<< 8 := by
    apply BitVec.eq_of_getLsbD_eq
    intro i hi
    rw [BitVec.getLsbD_shiftLeft, BitVec.getLsbD_shiftLeft, BitVec.getLsbD_xor, getLsbD_onTop]
    by_cases hi8 : i < 8
    · simp [hi8]
    · simp [show ¬ w - 8 ≤ i - 8 by omega]
  rw [feed, hsplit, shifts_xor, shifts_of_clear poly hclear 8 le_rfl, hmoved]
  rfl

theorem top_xor (a b : BitVec w) : top (a ^^^ b) = top a ^^^ top b := by
  simp [top, BitVec.ushiftRight_xor_distrib, BitVec.setWidth_xor]

theorem onTop_xor (a b : BitVec 8) : onTop w (a ^^^ b) = onTop w a ^^^ onTop w b := by
  simp [onTop, BitVec.shiftLeft_xor_distrib, BitVec.setWidth_xor]

theorem entry_xor (poly : BitVec w) (a b : BitVec 8) :
    entry poly (a ^^^ b) = entry poly a ^^^ entry poly b := by
  rw [entry, onTop_xor, shifts_xor, ← entry, ← entry]

/-! ## Tables with errors -/

section Errors

variable (poly : BitVec w) (err : BitVec 8 → BitVec w)

/-- How far the remainder is off after a message, if it was off by `d` at the right remainder `c`:
each error that is met is carried on through the octets that follow. -/
def drift : List (BitVec 8) → BitVec w → BitVec w → BitVec w
  | [], _, d => d
  | b :: msg, c, d => drift msg (feed poly c b) (feed poly d 0#8 ^^^ err (top (c ^^^ d) ^^^ b))

variable {poly err} {tab : BitVec 8 → BitVec w}

/-- One octet with a wrong table. -/
theorem feedWith_xor (hw : 8 ≤ w) (htab : ∀ i, tab i = entry poly i ^^^ err i) (c d : BitVec w)
    (b : BitVec 8) :
    feedWith tab (c ^^^ d) b = feed poly c b ^^^ (feed poly d 0#8 ^^^ err (top (c ^^^ d) ^^^ b)) := by
  have hindex : top (c ^^^ d) ^^^ b = top c ^^^ b ^^^ (top d ^^^ 0#8) := by
    rw [top_xor, BitVec.xor_zero]
    ac_rfl
  rw [feed_eq hw, feed_eq hw, feedWith, feedWith, feedWith, htab, BitVec.shiftLeft_xor_distrib]
  nth_rewrite 1 [hindex]
  rw [entry_xor]
  ac_rfl

/-- A whole message with a wrong table. -/
theorem foldl_feedWith (hw : 8 ≤ w) (htab : ∀ i, tab i = entry poly i ^^^ err i)
    (msg : List (BitVec 8)) (c d : BitVec w) :
    msg.foldl (feedWith tab) (c ^^^ d) = msg.foldl (feed poly) c ^^^ drift poly err msg c d := by
  induction msg generalizing c d with
  | nil => rfl
  | cons b msg ih =>
    rw [List.foldl_cons, List.foldl_cons, feedWith_xor hw htab, ih]
    rfl

theorem shifts_zero (n : Nat) : shifts poly n 0#w = 0#w := by
  have h := shifts_xor poly n 0#w 0#w
  rwa [BitVec.xor_self, BitVec.xor_self] at h

theorem feed_zero : feed poly 0#w 0#8 = 0#w := by
  have htop : onTop w 0#8 = 0#w := by simp [onTop]
  rw [feed, htop, BitVec.xor_zero, shifts_zero]

/-- Without a wrong entry there is no drift. -/
theorem drift_eq_zero {msg : List (BitVec 8)} {c : BitVec w}
    (h : ∀ p b q, msg = p ++ b :: q → err (top (p.foldl (feed poly) c) ^^^ b) = 0#w) :
    drift poly err msg c 0#w = 0#w := by
  induction msg generalizing c with
  | nil => rfl
  | cons b msg ih =>
    have hfirst : err (top c ^^^ b) = 0#w := h [] b msg rfl
    rw [drift, BitVec.xor_zero, hfirst, feed_zero, BitVec.xor_zero]
    refine ih fun p b' q hmsg => ?_
    exact h (b :: p) b' q (by rw [hmsg]; rfl)

end Errors

end VoidCache.Crc
