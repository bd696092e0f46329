import VoidCache.Lib.Bytes
import VoidCache.Lib.Machine
import Mathlib.Tactic.Linarith

/-!
# Connection buffers and flushing

`VcBuf` is `vc_buf_t`: bytes up to `len`, of which those before `rpos` have been sent. Replies
are appended at `len`, `connFlush` sends from `rpos` on and resets the buffer once all is out.
The socket is whatever it wants to be: each `conn_write` takes any part of what it is offered,
would block, or fails. Growing a buffer is taken to succeed.
-/
namespace VoidCache

/-! ## Buffers -/

structure VcBuf where
  data : Nat → UInt8
  cap : Nat
  len : Nat
  rpos : Nat
  cap_pos : 0 < cap
  len_le : len ≤ cap
  rpos_le : rpos ≤ len

def vcRbufInit : Nat := 16384
def vcWbufInit : Nat := 16384

theorem vcRbufInit_pos : 0 < vcRbufInit := by decide

theorem vcWbufInit_pos : 0 < vcWbufInit := by decide

def vcBufNew (cap : Nat) (h : 0 < cap) : VcBuf where
  data := fun _ => 0
  cap := cap
  len := 0
  rpos := 0
  cap_pos := h
  len_le := Nat.zero_le _
  rpos_le := Nat.le_refl _

/-- `while (nc - len < need) nc *= 2`. -/
def growLoop (len need : Nat) : Nat → Nat → Nat
  | 0, nc => nc
  | fuel + 1, nc => if nc - len < need then growLoop len need fuel (nc * 2) else nc

theorem le_growLoop (len need fuel nc : Nat) : nc ≤ growLoop len need fuel nc := by
  induction fuel generalizing nc with
  | zero => exact Nat.le_refl _
  | succ fuel ih =>
    unfold growLoop
    split
    · exact Nat.le_trans (by omega) (ih (nc * 2))
    · exact Nat.le_refl _

/-- The loop ends with room for `need` more bytes. -/
theorem growLoop_room {len need fuel nc : Nat} (hnc : 0 < nc) (hlen : len ≤ nc)
    (hfuel : len + need ≤ nc + fuel) :
    len + need ≤ growLoop len need fuel nc := by
  induction fuel generalizing nc with
  | zero => exact hfuel
  | succ fuel ih =>
    unfold growLoop
    split
    · exact ih (by omega) (by omega) (by omega)
    · omega

def grownCap (b : VcBuf) (need : Nat) : Nat :=
  if need ≤ b.cap - b.len then b.cap else growLoop b.len need (b.len + need) (b.cap * 2)

theorem cap_le_grownCap (b : VcBuf) (need : Nat) : b.cap ≤ grownCap b need := by
  unfold grownCap
  split
  · exact Nat.le_refl _
  · exact Nat.le_trans (by omega) (le_growLoop ..)

theorem grownCap_room (b : VcBuf) (need : Nat) : b.len + need ≤ grownCap b need := by
  have := b.cap_pos
  have := b.len_le
  unfold grownCap
  split
  · omega
  · exact growLoop_room (by omega) (by omega) (by omega)

/-- `vc_buf_grow`: `realloc` keeps the bytes that were there. -/
def vcBufGrow (b : VcBuf) (need : Nat) : VcBuf where
  data := b.data
  cap := grownCap b need
  len := b.len
  rpos := b.rpos
  cap_pos := Nat.lt_of_lt_of_le b.cap_pos (cap_le_grownCap b need)
  len_le := Nat.le_trans b.len_le (cap_le_grownCap b need)
  rpos_le := b.rpos_le

def vcBufReset (b : VcBuf) : VcBuf where
  data := b.data
  cap := b.cap
  len := 0
  rpos := 0
  cap_pos := b.cap_pos
  len_le := Nat.zero_le _
  rpos_le := Nat.le_refl _

/-- `APPEND`: make room, copy to `data + len`, move `len`. A read into the buffer does the
same with the bytes that came in. -/
def VcBuf.append (b : VcBuf) (s : List UInt8) : VcBuf where
  data := overwrite (vcBufGrow b s.length).data b.len s
  cap := (vcBufGrow b s.length).cap
  len := b.len + s.length
  rpos := b.rpos
  cap_pos := (vcBufGrow b s.length).cap_pos
  len_le := grownCap_room b s.length
  rpos_le := Nat.le_trans b.rpos_le (Nat.le_add_right ..)

/-- `vc_buf_consume`: drop `n` bytes from the front. -/
def vcBufConsume (b : VcBuf) (n : Nat) : VcBuf :=
  if b.len ≤ n then vcBufReset b
  else
    { data := overwrite b.data 0 (window b.data n (b.len - n))
      cap := b.cap
      len := b.len - n
      rpos := b.rpos - n
      cap_pos := b.cap_pos
      len_le := Nat.le_trans (Nat.sub_le ..) b.len_le
      rpos_le := Nat.sub_le_sub_right b.rpos_le n }

/-- All bytes of the buffer. -/
def VcBuf.contents (b : VcBuf) : List UInt8 := window b.data 0 b.len

/-- The bytes still to be sent. -/
def VcBuf.pending (b : VcBuf) : List UInt8 := window b.data b.rpos (b.len - b.rpos)

@[simp] theorem contents_vcBufNew (cap : Nat) (h : 0 < cap) : (vcBufNew cap h).contents = [] := rfl

@[simp] theorem pending_vcBufNew (cap : Nat) (h : 0 < cap) : (vcBufNew cap h).pending = [] := rfl

@[simp] theorem pending_vcBufReset (b : VcBuf) : (vcBufReset b).pending = [] := rfl

@[simp] theorem length_contents (b : VcBuf) : b.contents.length = b.len := by
  simp [VcBuf.contents]

@[simp] theorem contents_vcBufGrow (b : VcBuf) (need : Nat) :
    (vcBufGrow b need).contents = b.contents := rfl

/-- Appending leaves what is there and adds the new bytes, wherever reading starts. -/
theorem window_append (b : VcBuf) (s : List UInt8) {lo : Nat} (h : lo ≤ b.len) :
    window (b.append s).data lo (b.len + s.length - lo) =
      window b.data lo (b.len - lo) ++ s := by
  have hsplit : b.len + s.length - lo = (b.len - lo) + s.length := by omega
  have hend : lo + (b.len - lo) = b.len := by omega
  rw [hsplit, window_add, hend]
  show window (overwrite b.data b.len s) _ _ ++ window (overwrite b.data b.len s) _ _ = _
  rw [window_overwrite_self, window_overwrite_of_disjoint _ _ (.inl (by omega))]

@[simp] theorem contents_append (b : VcBuf) (s : List UInt8) :
    (b.append s).contents = b.contents ++ s :=
  window_append b s (Nat.zero_le _)

@[simp] theorem pending_append (b : VcBuf) (s : List UInt8) :
    (b.append s).pending = b.pending ++ s :=
  window_append b s b.rpos_le

@[simp] theorem contents_vcBufConsume (b : VcBuf) (n : Nat) :
    (vcBufConsume b n).contents = b.contents.drop n := by
  unfold vcBufConsume
  split
  · rename_i h
    rw [List.drop_eq_nil_of_le (by simpa using h)]
    rfl
  · rename_i h
    have hsplit : b.len = n + (b.len - n) := by omega
    have hmove := window_overwrite_self b.data 0 (window b.data n (b.len - n))
    rw [length_window] at hmove
    show window (overwrite b.data 0 _) 0 (b.len - n) = (window b.data 0 b.len).drop n
    rw [hmove, hsplit, window_add, List.drop_left' (length_window ..), Nat.zero_add, ← hsplit]

/-! ## Flushing -/

/-- What `conn_write` makes of the bytes it is offered. -/
inductive WriteResult (offered : Nat) where
  | wrote (n : Fin (offered + 1))
  | wouldBlock
  | failed

/-- A socket answers the writes of one flush, in order. -/
abbrev Socket := Nat → (offered : Nat) → WriteResult offered

/-- `conn_flush` returns 0, -1 or 1. -/
inductive FlushResult where
  | done
  | error
  | wouldBlock
  deriving DecidableEq, Repr

/-- `b->rpos += n` after a write that took `n` bytes. -/
def VcBuf.advance (b : VcBuf) (n : Fin (b.len - b.rpos + 1)) : VcBuf where
  data := b.data
  cap := b.cap
  len := b.len
  rpos := b.rpos + n
  cap_pos := b.cap_pos
  len_le := b.len_le
  rpos_le := by
    have := n.isLt
    have := b.rpos_le
    omega

/-- The write loop, with the bytes the socket has taken. Each round that goes on sends a byte,
so as many rounds as there are bytes to send are enough. -/
def flushLoop (sock : Socket) : Nat → Nat → VcBuf → List UInt8 → VcBuf × FlushResult × List UInt8
  | 0, _, b, sent => (vcBufReset b, .done, sent)
  | fuel + 1, i, b, sent =>
    if b.rpos < b.len then
      match sock i (b.len - b.rpos) with
      | .wrote n =>
        if n.val = 0 then (b, .error, sent)
        else flushLoop sock fuel (i + 1) (b.advance n) (sent ++ window b.data b.rpos n)
      | .wouldBlock => (b, .wouldBlock, sent)
      | .failed => (b, .error, sent)
    else (vcBufReset b, .done, sent)

/-- `conn_flush`: the buffer after it, what it returns, and the bytes the socket took. -/
def connFlush (sock : Socket) (b : VcBuf) : VcBuf × FlushResult × List UInt8 :=
  flushLoop sock (b.len - b.rpos) 0 b []

theorem pending_advance (b : VcBuf) (n : Fin (b.len - b.rpos + 1)) :
    window b.data b.rpos n ++ (b.advance n).pending = b.pending := by
  have hsplit : b.len - b.rpos = n + (b.len - (b.rpos + n)) := by
    have := n.isLt
    omega
  show _ ++ window b.data (b.rpos + n) (b.len - (b.rpos + n)) = window b.data b.rpos (b.len - b.rpos)
  rw [← window_add, ← hsplit]

/-- However the socket behaves, what it took and what is left make up what there was. -/
theorem flushLoop_keeps {sock : Socket} {fuel i : Nat} {b : VcBuf} {sent : List UInt8}
    (hfuel : b.len - b.rpos ≤ fuel) :
    let out := flushLoop sock fuel i b sent
    out.2.2 ++ out.1.pending = sent ++ b.pending ∧ (out.2.1 = .done → out.1.pending = []) := by
  induction fuel generalizing i b sent with
  | zero =>
    have hnone : b.pending = [] := by rw [VcBuf.pending, Nat.le_zero.mp hfuel, window_zero]
    simp [flushLoop, hnone]
  | succ fuel ih =>
    unfold flushLoop
    split
    · cases sock i (b.len - b.rpos) with
      | wrote n =>
        by_cases hn : n.val = 0
        · simp [hn]
        · have hlt := n.isLt
          have hleft : (b.advance n).len - (b.advance n).rpos ≤ fuel := by
            show b.len - (b.rpos + n) ≤ fuel
            omega
          obtain ⟨h1, h2⟩ := @ih (i + 1) _ (sent ++ window b.data b.rpos n) hleft
          simp only [if_neg hn]
          exact ⟨by rw [h1, List.append_assoc, pending_advance], h2⟩
      | wouldBlock => simp
      | failed => simp
    · have hnone : b.pending = [] := by
        rw [VcBuf.pending, Nat.sub_eq_zero_of_le (by omega), window_zero]
      simp [hnone]

theorem connFlush_keeps (sock : Socket) (b : VcBuf) :
    let out := connFlush sock b
    out.2.2 ++ out.1.pending = b.pending ∧ (out.2.1 = .done → out.1.pending = []) :=
  flushLoop_keeps (Nat.le_refl _)

/-! ## The output stream of a connection -/

/-- What happens to the output buffer of a connection: a reply is appended to it, or it is
flushed, after a batch of commands or because the socket can take more. -/
inductive OutAct where
  | append (s : List UInt8)
  | flush (sock : Socket)

/-- The output buffer, and all that the socket has taken so far. -/
structure OutState where
  wbuf : VcBuf
  sent : List UInt8

/-- One action, and what a flush returned. -/
def outStep (s : OutState) : OutAct → OutState × Option FlushResult
  | .append r => (⟨s.wbuf.append r, s.sent⟩, none)
  | .flush sock =>
    let out := connFlush sock s.wbuf
    (⟨out.1, s.sent ++ out.2.2⟩, some out.2.1)

def OutState.start : OutState := ⟨vcBufNew vcWbufInit (by decide), []⟩

/-- All that was appended, in order. -/
def appended (acts : List OutAct) : List UInt8 :=
  acts.flatMap fun
    | .append r => r
    | .flush _ => []

theorem outStep_keeps (s : OutState) (a : OutAct) :
    (outStep s a).1.sent ++ (outStep s a).1.wbuf.pending =
      s.sent ++ s.wbuf.pending ++ appended [a] := by
  cases a with
  | append r => simp [outStep, appended]
  | flush sock =>
    have h := (connFlush_keeps sock s.wbuf).1
    simp only [outStep, appended, List.append_assoc, h, List.flatMap_cons, List.flatMap_nil,
      List.append_nil]

theorem run_outStep (s : OutState) (acts : List OutAct) :
    (Machine.run outStep s acts).sent ++ (Machine.run outStep s acts).wbuf.pending =
      s.sent ++ s.wbuf.pending ++ appended acts := by
  induction acts generalizing s with
  | nil => simp [Machine.run, appended]
  | cons a acts ih =>
    rw [Machine.run, ih, outStep_keeps, List.append_assoc]
    simp [appended]

/-- What the socket has taken is always a prefix of what was appended, and all of it whenever
`conn_flush` returns 0. -/
theorem output_stream_integrity (acts : List OutAct) :
    (Machine.run outStep .start acts).sent <+: appended acts ∧
      ∀ sock, (outStep (Machine.run outStep .start acts) (.flush sock)).2 = some .done →
        (outStep (Machine.run outStep .start acts) (.flush sock)).1.sent = appended acts := by
  have hrun := run_outStep .start acts
  rw [show OutState.start.sent ++ OutState.start.wbuf.pending = [] from rfl, List.nil_append] at hrun
  refine ⟨⟨_, hrun⟩, fun sock hdone => ?_⟩
  have hstep := outStep_keeps (Machine.run outStep .start acts) (.flush sock)
  have hempty := (connFlush_keeps sock (Machine.run outStep .start acts).wbuf).2
    (Option.some.inj hdone)
  rw [hrun, show (outStep _ (.flush sock)).1.wbuf.pending = [] from hempty] at hstep
  simpa [appended] using hstep

end VoidCache
