import VoidCache.Lib.WordOps
import VoidCache.Net.Buffer

/-!
# Growing a buffer in 64-bit arithmetic

`VcBuf` counts in natural numbers. Here `vc_buf_grow` and the writers that append are taken in
`size_t`: the difference that tests for room and the doubling both wrap, so that a buffer could be
grown too little, or for ever. As long as the bytes asked for end within 2^63 neither happens, and
the capacity is the one `grownCap` gives. A `realloc` that finds memory keeps the old bytes and
leaves anything in the new ones.
-/
namespace VoidCache

open WordProg

structure VcBuf64 where
  data : Nat → UInt8
  cap : BitVec 64
  len : BitVec 64
  rpos : BitVec 64

/-- What `realloc` has to offer: no memory, or a block that is filled with something. -/
abbrev Realloc := Option (Nat → UInt8)

/-- The first `n` bytes of a block, moved to a fresh one. -/
def moved (data fresh : Nat → UInt8) (n : Nat) (i : Nat) : UInt8 := if i < n then data i else fresh i

/-- `while (nc - b->len < need) nc *= 2`. Nothing, if it goes on after this many rounds. -/
def growWhile (len need : BitVec 64) : Nat → BitVec 64 → WordProg 64 (Option (BitVec 64))
  | 0, _ => pure none
  | rounds + 1, nc => do
    let room ← sub nc len
    if room < need then do
      let nc ← mul nc 2#64
      growWhile len need rounds nc
    else pure (some nc)

/-- The buffer with the block that `realloc` returned for `nc` bytes, and whether it did. -/
def VcBuf64.resize (b : VcBuf64) (nc : BitVec 64) : Realloc → Bool × VcBuf64
  | none => (false, b)
  | some fresh =>
    (true, { b with data := moved b.data fresh (min b.cap.toNat nc.toNat), cap := nc })

/-- `vc_buf_grow`, with whether it returned 0. -/
def vcBufGrow64 (rounds : Nat) (mem : Realloc) (b : VcBuf64) (need : BitVec 64) :
    WordProg 64 (Option (Bool × VcBuf64)) := do
  let room ← sub b.cap b.len
  if need ≤ room then pure (some (true, b))
  else do
    let nc ← mul b.cap 2#64
    let nc ← growWhile b.len need rounds nc
    pure (nc.map fun nc => b.resize nc mem)

/-- `memcpy(b->data + b->len, s, n); b->len += n`, unless there is no room. -/
def VcBuf64.put (s : List UInt8) : Option (Bool × VcBuf64) → WordProg 64 (Option (Bool × VcBuf64))
  | some (true, b) => do
    let len ← add b.len (BitVec.ofNat 64 s.length)
    pure (some (true, { b with data := overwrite b.data b.len.toNat s, len }))
  | r => pure r

/-- `APPEND`. -/
def append64 (rounds : Nat) (mem : Realloc) (b : VcBuf64) (s : List UInt8) :
    WordProg 64 (Option (Bool × VcBuf64)) := do
  let r ← vcBufGrow64 rounds mem b (BitVec.ofNat 64 s.length)
  VcBuf64.put s r

/-- `buf_printf`: the formatted text has to fit in `tmp[256]` with its terminator. -/
def bufPrintf64 (rounds : Nat) (mem : Realloc) (b : VcBuf64) (text : List UInt8) :
    WordProg 64 (Option (Bool × VcBuf64)) :=
  if 256 ≤ text.length then pure (some (false, b)) else append64 rounds mem b text

/-- The writers add to a buffer in these two ways. -/
inductive Append where
  | bytes (s : List UInt8)
  | printf (text : List UInt8)

def Append.size : Append → Nat
  | bytes s => s.length
  | printf text => text.length

def Append.run (rounds : Nat) (mem : Realloc) (b : VcBuf64) :
    Append → WordProg 64 (Option (Bool × VcBuf64))
  | bytes s => append64 rounds mem b s
  | printf text => bufPrintf64 rounds mem b text

/-- One append after the other, each with what `realloc` has to offer to it. -/
def appends (rounds : Nat) : List (Append × Realloc) → VcBuf64 → WordProg 64 (Option VcBuf64)
  | [], b => pure (some b)
  | a :: rest, b => do
    let r ← a.1.run rounds a.2 b
    match r with
    | none => pure none
    | some (_, b) => appends rounds rest b

/-! ## The doubling loop -/

section Loop

variable {len need nc : BitVec 64}

/-- A capacity that is too small is below 2^63, so its double is a word. -/
theorem noWrap_double (hlen : len.toNat ≤ nc.toNat) (hneed : len.toNat + need.toNat ≤ 2 ^ 63)
    (h : nc - len < need) : NoWrap (mul nc 2#64) ∧ nc.toNat < len.toNat + need.toNat := by
  have hroom := toNat_sub (noWrap_sub.mpr hlen)
  rw [BitVec.lt_def, hroom] at h
  refine ⟨noWrap_mul.mpr ?_, by omega⟩
  rw [show (2#64).toNat = 2 from rfl]
  omega

theorem growLoop_of_room {len need nc fuel : Nat} (h : len + need ≤ nc) :
    growLoop len need fuel nc = nc := by
  cases fuel with
  | zero => rfl
  | succ fuel => exact if_neg (by omega)

/-- As many rounds as doublings are needed end the loop with room for `need` bytes, and what it
computes is what `growLoop` does. -/
theorem growWhile_spec {rounds : Nat} (hnc : 0 < nc.toNat)
    (hlen : len.toNat ≤ nc.toNat) (hneed : len.toNat + need.toNat ≤ 2 ^ 63)
    (hrounds : len.toNat + need.toNat ≤ nc.toNat * 2 ^ rounds) :
    NoWrap (growWhile len need (rounds + 1) nc) ∧
      ∃ nc', value (growWhile len need (rounds + 1) nc) = some nc' ∧ nc.toNat ≤ nc'.toNat ∧
        len.toNat + need.toNat ≤ nc'.toNat ∧
        ∀ fuel, len.toNat + need.toNat ≤ nc.toNat + fuel →
          growLoop len.toNat need.toNat fuel nc.toNat = nc'.toNat := by
  have hroom := toNat_sub (noWrap_sub.mpr hlen)
  induction rounds generalizing nc with
  | zero =>
    have henough : ¬ nc - len < need := by
      rw [BitVec.lt_def, hroom]
      omega
    exact ⟨by simp [growWhile, henough, hlen], nc, by simp [growWhile, henough], Nat.le_refl _,
      by omega, fun fuel _ => growLoop_of_room (by omega)⟩
  | succ rounds ih =>
    by_cases h : nc - len < need
    · obtain ⟨hexact, hlt⟩ := noWrap_double hlen hneed h
      have hdouble : (nc * 2#64).toNat = nc.toNat * 2 := toNat_mul hexact
      have hlen' : len.toNat ≤ (nc * 2#64).toNat := by omega
      have hrounds' : len.toNat + need.toNat ≤ (nc * 2#64).toNat * 2 ^ rounds := by
        rw [hdouble, Nat.mul_assoc, ← Nat.pow_succ']
        exact hrounds
      obtain ⟨hno, nc', hval, hle, hroom', hloop⟩ :=
        ih (by omega) hlen' hrounds' (toNat_sub (noWrap_sub.mpr hlen'))
      have hexact' : nc.toNat * 2 < 2 ^ 64 := noWrap_mul.mp hexact
      refine ⟨?_, nc', ?_, by omega, hroom', fun fuel hfuel => ?_⟩
      · rw [growWhile]
        simpa [h, hlen, hno] using hexact'
      · rw [growWhile]
        simp [h, hval]
      · cases fuel with
        | zero => omega
        | succ fuel =>
          rw [growLoop, if_pos (by omega), ← hdouble]
          exact hloop fuel (by omega)
    · have henough : len.toNat + need.toNat ≤ nc.toNat := by
        rw [BitVec.lt_def, hroom] at h
        omega
      refine ⟨?_, nc, ?_, ?_⟩
      · simp [growWhile, h, hlen]
      · simp [growWhile, h]
      · exact ⟨Nat.le_refl _, henough, fun fuel _ => growLoop_of_room henough⟩

end Loop

/-! ## One buffer, and any number of appends -/

namespace VcBuf64

/-- What `vc_buf_new` starts with and the writers keep. -/
structure Valid (b : VcBuf64) : Prop where
  cap_pos : 1 ≤ b.cap.toNat
  len_le : b.len.toNat ≤ b.cap.toNat

/-- `c` is `b` with at least as much room, at the same place and with the same bytes. -/
structure GrownTo (b c : VcBuf64) : Prop where
  cap_le : b.cap.toNat ≤ c.cap.toNat
  len_eq : c.len = b.len
  rpos_eq : c.rpos = b.rpos
  bytes_eq : ∀ i < b.len.toNat, c.data i = b.data i

theorem GrownTo.refl (b : VcBuf64) : GrownTo b b := ⟨Nat.le_refl _, rfl, rfl, fun _ _ => rfl⟩

theorem GrownTo.valid {b c : VcBuf64} (h : GrownTo b c) (hb : b.Valid) : c.Valid :=
  ⟨hb.cap_pos.trans h.cap_le, by rw [h.len_eq]; exact hb.len_le.trans h.cap_le⟩

/-- `c` is `b` with `s` written behind its bytes. -/
structure AppendedTo (b : VcBuf64) (s : List UInt8) (c : VcBuf64) : Prop where
  valid : c.Valid
  rpos_eq : c.rpos = b.rpos
  len_eq : c.len.toNat = b.len.toNat + s.length
  bytes_eq : window c.data 0 c.len.toNat = window b.data 0 b.len.toNat ++ s

theorem GrownTo.appendedTo {b c : VcBuf64} (h : GrownTo b c) (hb : b.Valid) : AppendedTo b [] c where
  valid := h.valid hb
  rpos_eq := h.rpos_eq
  len_eq := congrArg BitVec.toNat h.len_eq
  bytes_eq := by
    rw [h.len_eq, List.append_nil]
    exact window_congr fun i _ hi => h.bytes_eq i (by omega)

theorem AppendedTo.trans {b c d : VcBuf64} {s t : List UInt8} (h : AppendedTo b s c)
    (h' : AppendedTo c t d) : AppendedTo b (s ++ t) d where
  valid := h'.valid
  rpos_eq := h'.rpos_eq.trans h.rpos_eq
  len_eq := by rw [h'.len_eq, h.len_eq, List.length_append, Nat.add_assoc]
  bytes_eq := by rw [h'.bytes_eq, h.bytes_eq, List.append_assoc]

/-- The buffer as the model in natural numbers has it. -/
def toBuf (b : VcBuf64) (hb : b.Valid) (hr : b.rpos.toNat ≤ b.len.toNat) : VcBuf where
  data := b.data
  cap := b.cap.toNat
  len := b.len.toNat
  rpos := b.rpos.toNat
  cap_pos := hb.cap_pos
  len_le := hb.len_le
  rpos_le := hr

end VcBuf64

open VcBuf64

section Grow

variable {b : VcBuf64} {need : BitVec 64} {rounds : Nat} {mem : Realloc}

theorem resize_grownTo (hb : b.Valid) {nc : BitVec 64} (hnc : b.cap.toNat ≤ nc.toNat) :
    GrownTo b (b.resize nc mem).2 := by
  cases mem with
  | none => exact .refl b
  | some fresh =>
    refine ⟨hnc, rfl, rfl, fun i hi => ?_⟩
    have := hb.len_le
    exact if_pos (by omega)

/-- `vc_buf_grow` ends after at most 64 rounds, with no operation that wraps. It fails only for
want of memory, and otherwise the capacity is the one of the model in natural numbers. -/
theorem vcBufGrow64_spec (hb : b.Valid) (hneed : b.len.toNat + need.toNat ≤ 2 ^ 63)
    (hrounds : 64 ≤ rounds) (mem : Realloc) :
    NoWrap (vcBufGrow64 rounds mem b need) ∧
      ∃ ok c, value (vcBufGrow64 rounds mem b need) = some (ok, c) ∧ GrownTo b c ∧
        (mem ≠ none → ok = true) ∧
        (ok = true → b.len.toNat + need.toNat ≤ c.cap.toNat ∧
          ∀ hr, c.cap.toNat = grownCap (b.toBuf hb hr) need.toNat) := by
  have hcap := hb.cap_pos
  have hlen := hb.len_le
  have hroom := toNat_sub (noWrap_sub.mpr hlen)
  by_cases h : need ≤ b.cap - b.len
  · refine ⟨?_, true, b, ?_, .refl b, fun _ => rfl, fun _ => ?_⟩
    · simpa [vcBufGrow64, h] using hlen
    · simp [vcBufGrow64, h]
    · rw [BitVec.le_def, hroom] at h
      exact ⟨by omega, fun hr => (if_pos h).symm⟩
  · obtain ⟨hexact, hlt⟩ := noWrap_double hlen hneed (BitVec.not_le.mp h)
    have hdouble : (b.cap * 2#64).toNat = b.cap.toNat * 2 := toNat_mul hexact
    obtain ⟨k, rfl⟩ : ∃ k, rounds = k + 1 := ⟨rounds - 1, by omega⟩
    have hdoublings : b.len.toNat + need.toNat ≤ (b.cap * 2#64).toNat * 2 ^ k :=
      calc b.len.toNat + need.toNat ≤ 2 ^ 63 := hneed
        _ ≤ 2 ^ k := Nat.pow_le_pow_right (by decide) (by omega)
        _ ≤ (b.cap * 2#64).toNat * 2 ^ k := Nat.le_mul_of_pos_left _ (by omega)
    obtain ⟨hno, nc, hval, hle, henough, hloop⟩ :=
      growWhile_spec (by omega) (by omega) hneed hdoublings
    have hexact' : b.cap.toNat * 2 < 2 ^ 64 := noWrap_mul.mp hexact
    refine ⟨?_, (b.resize nc mem).1, (b.resize nc mem).2, ?_, resize_grownTo hb (by omega), ?_, ?_⟩
    · simpa [vcBufGrow64, h, hno, hlen] using hexact'
    · simp [vcBufGrow64, h, hval]
    · intro hmem
      cases mem with
      | none => exact absurd rfl hmem
      | some fresh => rfl
    · intro hok
      cases mem with
      | none => exact absurd hok Bool.false_ne_true
      | some fresh =>
        rw [BitVec.le_def, hroom] at h
        refine ⟨henough, fun hr => ?_⟩
        rw [show grownCap (b.toBuf hb hr) need.toNat = growLoop _ _ _ (b.cap.toNat * 2) from if_neg h,
          ← hdouble]
        exact (hloop _ (Nat.le_add_left ..)).symm

end Grow

section Appends

variable {b : VcBuf64} {rounds : Nat}

theorem toNat_ofNat_length {s : List UInt8} (h : b.len.toNat + s.length ≤ 2 ^ 63) :
    (BitVec.ofNat 64 s.length).toNat = s.length := by
  rw [BitVec.toNat_ofNat, Nat.mod_eq_of_lt (by omega)]

/-- With room behind its bytes, a buffer takes `s`. -/
theorem put_spec (hb : b.Valid) {s : List UInt8} (hs : b.len.toNat + s.length ≤ 2 ^ 63)
    (hroom : b.len.toNat + s.length ≤ b.cap.toNat) :
    NoWrap (VcBuf64.put s (some (true, b))) ∧
      ∃ c, value (VcBuf64.put s (some (true, b))) = some (true, c) ∧ AppendedTo b s c := by
  have hsize := toNat_ofNat_length hs
  have hexact : NoWrap (add b.len (BitVec.ofNat 64 s.length)) := by
    rw [noWrap_add, hsize]
    omega
  have hlen := toNat_add hexact
  rw [hsize] at hlen
  refine ⟨⟨noWrap_add.mp hexact, trivial⟩, _, rfl, ⟨hb.cap_pos, ?_⟩, rfl, hlen, ?_⟩
  · exact hlen.trans_le hroom
  · show window (overwrite b.data b.len.toNat s) 0 (b.len + BitVec.ofNat 64 s.length).toNat = _
    rw [hlen, window_add, Nat.zero_add, window_overwrite_self,
      window_overwrite_of_disjoint _ _ (.inl (by omega))]

/-- An append leaves the bytes that are there, and one that succeeds has added its own. -/
theorem append64_spec (hb : b.Valid) {s : List UInt8} (hs : b.len.toNat + s.length ≤ 2 ^ 63)
    (hrounds : 64 ≤ rounds) (mem : Realloc) :
    NoWrap (append64 rounds mem b s) ∧
      ∃ ok c, value (append64 rounds mem b s) = some (ok, c) ∧ (mem ≠ none → ok = true) ∧
        AppendedTo b (if ok then s else []) c := by
  have hsize := toNat_ofNat_length hs
  have hneed : b.len.toNat + (BitVec.ofNat 64 s.length).toNat ≤ 2 ^ 63 := by omega
  obtain ⟨hno, ok, g, hval, hgrown, hmem, hok⟩ := vcBufGrow64_spec hb hneed hrounds mem
  have hput : value (append64 rounds mem b s) = value (VcBuf64.put s (some (ok, g))) := by
    rw [append64, value_bind, hval]
  have hall : NoWrap (append64 rounds mem b s) ↔ NoWrap (VcBuf64.put s (some (ok, g))) := by
    rw [append64, noWrap_bind, hval]
    exact and_iff_right hno
  rw [hput, hall]
  cases ok with
  | false => exact ⟨trivial, false, g, rfl, hmem, hgrown.appendedTo hb⟩
  | true =>
    have hlen : g.len.toNat = b.len.toNat := congrArg BitVec.toNat hgrown.len_eq
    have hroom := (hok rfl).1
    obtain ⟨hnoput, c, hc, hadded⟩ := put_spec (hgrown.valid hb) (hlen ▸ hs) (by omega)
    exact ⟨hnoput, true, c, hc, hmem, (hgrown.appendedTo hb).trans hadded⟩

/-- What the append adds when it succeeds. -/
def Append.text : Append → List UInt8
  | bytes s => s
  | printf text => if 256 ≤ text.length then [] else text

theorem append_run_spec (hb : b.Valid) {a : Append} (ha : b.len.toNat + a.size ≤ 2 ^ 63)
    (hrounds : 64 ≤ rounds) (mem : Realloc) :
    NoWrap (a.run rounds mem b) ∧
      ∃ ok c t, value (a.run rounds mem b) = some (ok, c) ∧ AppendedTo b t c ∧
        t.length ≤ a.size ∧ (mem ≠ none → t = a.text) := by
  cases a with
  | bytes s =>
    obtain ⟨hno, ok, c, hval, hmem, hadded⟩ := append64_spec hb ha hrounds mem
    refine ⟨hno, ok, c, _, hval, hadded, ?_, fun h => if_pos (hmem h)⟩
    cases ok with
    | true => exact Nat.le_refl _
    | false => exact Nat.zero_le _
  | printf text =>
    rw [Append.run, bufPrintf64]
    by_cases h : 256 ≤ text.length
    · rw [if_pos h]
      exact ⟨trivial, false, b, [], rfl, (GrownTo.refl b).appendedTo hb, Nat.zero_le _,
        fun _ => (if_pos h).symm⟩
    · obtain ⟨hno, ok, c, hval, hmem, hadded⟩ := append64_spec hb ha hrounds mem
      rw [if_neg h]
      refine ⟨hno, ok, c, _, hval, hadded, ?_, fun hm => ?_⟩
      · cases ok with
        | true => exact Nat.le_refl _
        | false => exact Nat.zero_le _
      · rw [if_pos (hmem hm)]
        exact (if_neg h).symm

/-- All bytes that the appends may add. -/
def totalSize (acts : List (Append × Realloc)) : Nat := (acts.map (·.1.size)).sum

theorem appends_spec (hb : b.Valid) {acts : List (Append × Realloc)}
    (hfit : b.len.toNat + totalSize acts ≤ 2 ^ 63) (hrounds : 64 ≤ rounds) :
    NoWrap (appends rounds acts b) ∧
      ∃ c t, value (appends rounds acts b) = some c ∧ AppendedTo b t c ∧
        ((∀ a ∈ acts, a.2 ≠ none) → t = acts.flatMap (·.1.text)) := by
  induction acts generalizing b with
  | nil => exact ⟨trivial, b, [], rfl, (GrownTo.refl b).appendedTo hb, fun _ => rfl⟩
  | cons a acts ih =>
    have htotal : totalSize (a :: acts) = a.1.size + totalSize acts := List.sum_cons ..
    obtain ⟨hno, ok, c, t, hval, hadded, hsize, htext⟩ :=
      append_run_spec hb (a := a.1) (by omega) hrounds a.2
    have hlen := hadded.len_eq
    obtain ⟨hno', d, t', hval', hadded', htext'⟩ := ih hadded.valid (by omega)
    refine ⟨?_, d, t ++ t', ?_, hadded.trans hadded', fun hall => ?_⟩
    · rw [appends, noWrap_bind, hval]
      exact ⟨hno, hno'⟩
    · rw [appends, value_bind, hval]
      exact hval'
    · rw [List.flatMap_cons, htext (hall a List.mem_cons_self),
        htext' fun x hx => hall x (List.mem_cons_of_mem _ hx)]

end Appends

/-- Within 2^63 bytes `vc_buf_grow` ends, without wrapping, with all the room that was asked for
and the bytes where they were; so appending keeps `len` within `cap`, however often. -/
theorem buf_grow_suffices (b : VcBuf64) (hcap : 1 ≤ b.cap.toNat)
    (hlen : b.len.toNat ≤ b.cap.toNat) {rounds : Nat} (hrounds : 64 ≤ rounds) :
    (∀ need fresh, b.len.toNat + need.toNat ≤ 2 ^ 63 →
      NoWrap (vcBufGrow64 rounds (some fresh) b need) ∧
        ∃ c, value (vcBufGrow64 rounds (some fresh) b need) = some (true, c) ∧
          b.len.toNat + need.toNat ≤ c.cap.toNat ∧ b.cap.toNat ≤ c.cap.toNat ∧
          c.len = b.len ∧ c.rpos = b.rpos ∧ ∀ i < b.len.toNat, c.data i = b.data i) ∧
      ∀ acts, b.len.toNat + totalSize acts ≤ 2 ^ 63 →
        NoWrap (appends rounds acts b) ∧
          ∃ c, value (appends rounds acts b) = some c ∧ c.len.toNat ≤ c.cap.toNat := by
  have hb : b.Valid := ⟨hcap, hlen⟩
  refine ⟨fun need fresh hneed => ?_, fun acts hfit => ?_⟩
  · obtain ⟨hno, ok, c, hval, hgrown, hmem, hok⟩ := vcBufGrow64_spec hb hneed hrounds (some fresh)
    obtain rfl := hmem (Option.some_ne_none fresh)
    exact ⟨hno, c, hval, (hok rfl).1, hgrown.cap_le, hgrown.len_eq, hgrown.rpos_eq, hgrown.bytes_eq⟩
  · obtain ⟨hno, c, t, hval, hadded, -⟩ := appends_spec hb hfit hrounds
    exact ⟨hno, c, hval, hadded.valid.len_le⟩

theorem buf_grow_suffices_sixteen :
    ∃ c, value (vcBufGrow64 64 (some fun _ => 255) ⟨fun _ => 0, 16, 10, 0⟩ 100) = some (true, c) ∧
      110 ≤ c.cap.toNat ∧ c.len = 10 := by
  obtain ⟨-, c, hval, hroom, -, hlen, -⟩ :=
    (buf_grow_suffices ⟨fun _ => 0, 16, 10, 0⟩ (by decide) (by decide) (Nat.le_refl 64)).1 100
      (fun _ => 255) (by decide)
  exact ⟨c, hval, hroom, hlen⟩

end VoidCache
