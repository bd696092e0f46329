import VoidCache.Lib.Contract
import VoidCache.Net.ConnPool

/-!
# What a worker holds

A worker has the connections that it took from the pool, and with them their descriptors and
buffers. `poolContract` says which calls it may make with what it holds, and which answers it can
count on: nobody else changes what belongs to it, and no sweep finds a connection to close.
`workerThread_honours` is about one worker on its own.
-/
namespace VoidCache.ConnPool

/-! ## What a worker holds -/

/-- What its worker knows to be in a connection. -/
structure KnownConn where
  fd : Option Int
  buf : Side → Option (Option Nat)

def KnownConn.unknown : KnownConn := ⟨none, fun _ => none⟩

structure KnownConn.Fits (k : KnownConn) (c : PoolConn) : Prop where
  fd : ∀ fd, k.fd = some fd → c.fd = fd
  buf : ∀ side b, k.buf side = some b → c.buf side = b

theorem KnownConn.unknown_fits (c : PoolConn) : KnownConn.unknown.Fits c := by
  constructor <;> simp [KnownConn.unknown]

/-- Where a worker has a descriptor: in a variable, or in a connection. -/
inductive FdPlace where
  | hand
  | conn (i : Nat)
  deriving DecidableEq

inductive BufPlace where
  | hand
  | conn (side : Side) (i : Nat)
  deriving DecidableEq

structure Holds (ι : Type) where
  me : ι
  locked : Bool
  /-- A connection that it has found free while it had the lock. -/
  saw : Option Nat
  conn : Nat → Option KnownConn
  fds : Nat → Option FdPlace
  bufs : Nat → Option BufPlace

section Holds

variable {ι : Type}

namespace Holds

/-- The connection is set up, with a descriptor and buffers of its own. -/
def Ready (h : Holds ι) (i : Nat) : Prop :=
  ∃ k, h.conn i = some k ∧ (∃ fd : Nat, k.fd = some (fd : Int) ∧ h.fds fd = some (.conn i)) ∧
    ∀ side, ∃ b, k.buf side = some (some b) ∧ h.bufs b = some (.conn side i)

/-- Between two events: all connections are set up, and there are no other descriptors or buffers. -/
structure Settled (h : Holds ι) : Prop where
  locked : h.locked = false
  ready : ∀ i, (h.conn i).isSome → h.Ready i
  fds : ∀ fd p, h.fds fd = some p → ∃ i k, p = .conn i ∧ h.conn i = some k ∧ k.fd = some (fd : Int)
  bufs : ∀ b p, h.bufs b = some p →
    ∃ side i k, p = .conn side i ∧ h.conn i = some k ∧ k.buf side = some (some b)

def Allows (h : Holds ι) : PoolReq ι → Prop
  | .lock w => w = h.me ∧ h.locked = false
  | .unlock w => w = h.me ∧ h.locked = true
  -- a connection is given back empty
  | .storeState i st =>
    if st = .free then (h.conn i).isSome ∧ (∀ fd, h.fds fd ≠ some (.conn i)) ∧
      ∀ side b, h.bufs b ≠ some (.conn side i)
    else (h.conn i).isSome ∨ h.saw = some i
  | .storeFd i fd => (h.conn i).isSome ∧ ∀ f : Nat, fd = f → h.fds f = some .hand
  | .loadBuf _ i => (h.conn i).isSome
  | .storeBuf _ i b => (h.conn i).isSome ∧ ∀ p, b = some p → h.bufs p = some .hand
  | .storeActive i _ => (h.conn i).isSome
  | .bufFree b => ∃ p, b = some p ∧ h.bufs p ≠ none
  | .close fd => ∃ f : Nat, fd = f ∧ h.fds f ≠ none
  | .epollAdd w fd i => w = h.me ∧ ∃ f : Nat, fd = f ∧ h.fds f = some (.conn i)
  | .epollDel w _ => w = h.me
  | .epollWait w => w = h.me ∧ h.Settled
  | .serve i => h.Ready i
  | _ => True

@[simps]
def setLocked (h : Holds ι) (b : Bool) : Holds ι := { h with locked := b, saw := none }

@[simps]
def see (h : Holds ι) (i : Nat) : Holds ι := { h with saw := some i }

@[simps]
def putConn (h : Holds ι) (i : Nat) (k : Option KnownConn) : Holds ι :=
  { h with saw := none, conn := Function.update h.conn i k }

@[simps]
def putFd (h : Holds ι) (fd : Nat) (p : Option FdPlace) : Holds ι :=
  { h with fds := Function.update h.fds fd p }

@[simps]
def putBuf (h : Holds ι) (b : Nat) (p : Option BufPlace) : Holds ι :=
  { h with bufs := Function.update h.bufs b p }

/-- It has loaded the state of a connection. One of its own is not free. -/
def loadedState (h : Holds ι) (i : Nat) (st : ConnState) : Option (Holds ι) :=
  if st = .free then
    if (h.conn i).isSome then none else some (if h.locked then h.see i else h)
  else some h

def storedState (h : Holds ι) (i : Nat) (st : ConnState) : Holds ι :=
  h.putConn i (if st = .free then none else some ((h.conn i).getD .unknown))

def loadedFd (h : Holds ι) (i : Nat) (fd : Int) : Option (Holds ι) :=
  if (h.conn i).all fun k => k.fd.all (· = fd) then some h else none

def storedFd (h : Holds ι) (i : Nat) (fd : Int) : Holds ι :=
  let h := h.putConn i ((h.conn i).map fun k => { k with fd := some fd })
  if 0 ≤ fd then h.putFd fd.toNat (some (.conn i)) else h

def loadedBuf (h : Holds ι) (side : Side) (i : Nat) (b : Option Nat) : Option (Holds ι) :=
  if (h.conn i).all fun k => (k.buf side).all (· = b) then some h else none

def storedBuf (h : Holds ι) (side : Side) (i : Nat) (b : Option Nat) : Holds ι :=
  let h := h.putConn i ((h.conn i).map fun k => { k with buf := Function.update k.buf side (some b) })
  b.elim h fun p => h.putBuf p (some (.conn side i))

def gotBuf (h : Holds ι) (p : Nat) : Option (Holds ι) :=
  if (h.bufs p).isSome then none else some (h.putBuf p (some .hand))

def gotFd (h : Holds ι) (fd : Nat) : Option (Holds ι) :=
  if (h.fds fd).isSome then none else some (h.putFd fd (some .hand))

def gotEvents (h : Holds ι) (events : List PoolEvent) : Option (Holds ι) :=
  if (eventConns events).Nodup ∧ ∀ i ∈ eventConns events, (h.conn i).isSome then some h else none

/-- It counts on finding no connection idle for too long. -/
def foundIdle (h : Holds ι) (late : Bool) : Option (Holds ι) := if late then none else some h

/-- What it holds after a call; an answer that does not agree with what it knows breaks the
contract. -/
def after (h : Holds ι) : (a : PoolReq ι) → a.Resp → Option (Holds ι)
  | .lock _, _ => some (h.setLocked true)
  | .unlock _, _ => some (h.setLocked false)
  | .loadState i, st => h.loadedState i st
  | .storeState i st, _ => some (h.storedState i st)
  | .loadFd i, fd => h.loadedFd i fd
  | .storeFd i fd, _ => some (h.storedFd i fd)
  | .loadBuf side i, b => h.loadedBuf side i b
  | .storeBuf side i b, _ => some (h.storedBuf side i b)
  | .idleAt .., late => h.foundIdle late
  | .bufNew, p => h.gotBuf p
  | .bufFree b, _ => some (b.elim h fun p => h.putBuf p none)
  | .accept, fd => Option.elim fd (some h) h.gotFd
  | .close fd, _ => some (h.putFd fd.toNat none)
  | .epollWait _, events => h.gotEvents events
  | _, _ => some h

end Holds

def poolContract : Contract (@PoolReq.Resp ι) (Holds ι) := ⟨Holds.Allows, Holds.after⟩

/-! ## The programs honour the contract -/

section Honours

open Calls

variable {h h' : Holds ι} {w : ι} {i : Nat}

theorem Holds.loadedState_eq_some {st : ConnState} (hh : h.loadedState i st = some h') :
    st = .free ∧ h.conn i = none ∧ h' = (if h.locked then h.see i else h) ∨ st ≠ .free ∧ h' = h := by
  unfold Holds.loadedState at hh
  by_cases hst : st = .free
  · rw [if_pos hst] at hh
    by_cases hown : (h.conn i).isSome = true
    · rw [if_pos hown] at hh
      cases hh
    · rw [if_neg hown] at hh
      exact .inl ⟨hst, by simpa using hown, (Option.some.inj hh).symm⟩
  · rw [if_neg hst] at hh
    exact .inr ⟨hst, (Option.some.inj hh).symm⟩

theorem Holds.gotBuf_eq_some {p : Nat} (hh : h.gotBuf p = some h') :
    h.bufs p = none ∧ h' = h.putBuf p (some .hand) := by
  unfold Holds.gotBuf at hh
  split_ifs at hh with hp
  exact ⟨by simpa using hp, (Option.some.inj hh).symm⟩

theorem Holds.gotFd_eq_some {fd : Nat} (hh : h.gotFd fd = some h') :
    h.fds fd = none ∧ h' = h.putFd fd (some .hand) := by
  unfold Holds.gotFd at hh
  split_ifs at hh with hp
  exact ⟨by simpa using hp, (Option.some.inj hh).symm⟩

theorem Holds.loadedFd_eq_some {fd : Int} (hh : h.loadedFd i fd = some h') :
    h' = h ∧ ∀ k known, h.conn i = some k → k.fd = some known → fd = known := by
  unfold Holds.loadedFd at hh
  split_ifs at hh with hfd
  refine ⟨(Option.some.inj hh).symm, fun k known hk hknown => ?_⟩
  simpa [hk, hknown, eq_comm] using hfd

theorem Holds.loadedBuf_eq_some {side : Side} {b : Option Nat} (hh : h.loadedBuf side i b = some h') :
    h' = h ∧ ∀ k known, h.conn i = some k → k.buf side = some known → b = known := by
  unfold Holds.loadedBuf at hh
  split_ifs at hh with hbuf
  refine ⟨(Option.some.inj hh).symm, fun k known hk hknown => ?_⟩
  simpa [hk, hknown, eq_comm] using hbuf

theorem Holds.gotEvents_eq_some {events : List PoolEvent} (hh : h.gotEvents events = some h') :
    h' = h ∧ (eventConns events).Nodup ∧ ∀ i ∈ eventConns events, (h.conn i).isSome := by
  unfold Holds.gotEvents at hh
  split_ifs at hh with hevents
  exact ⟨(Option.some.inj hh).symm, hevents⟩

/-- A new buffer is put into a connection. -/
def Holds.fill (h : Holds ι) (side : Side) (i b : Nat) : Holds ι :=
  let known := (h.conn i).map fun k => { k with buf := Function.update k.buf side (some (some b)) }
  (h.putConn i known).putBuf b (some (.conn side i))

theorem newBuf_honours {R : Type} {Q : R → Holds ι → Prop} {f : PoolProg ι R} {side : Side}
    (hown : (h.conn i).isSome) (hf : ∀ b, h.bufs b = none → f.Honours poolContract Q (h.fill side i b)) :
    Honours poolContract Q (do
      let b ← PoolCall.bufNew
      PoolCall.storeBuf side i (some b)
      f) h := by
  refine .ask_bind trivial fun (b : Nat) h₁ hb => ?_
  obtain ⟨hnew, rfl⟩ := Holds.gotBuf_eq_some hb
  refine .ask_bind ⟨hown, by simp⟩ ?_
  rintro - _ ⟨⟩
  have hfill : (h.putBuf b (some .hand)).storedBuf side i (some b) = h.fill side i b := by
    simp [Holds.storedBuf, Holds.fill, Holds.putBuf, Holds.putConn]
  rw [hfill]
  exact hf b hnew

/-- A connection that was free, with two new buffers. -/
def Holds.claimed (h : Holds ι) (i rbuf wbuf : Nat) : Holds ι :=
  (((h.putConn i (some .unknown)).fill .read i rbuf).fill .write i wbuf).setLocked false

/-- What `conn_alloc` leaves a worker with. -/
inductive Holds.Allocated (h : Holds ι) : Option Nat → Holds ι → Prop where
  | full : Allocated h none (h.setLocked false)
  | conn {i rbuf wbuf : Nat} (hconn : h.conn i = none) (hrbuf : h.bufs rbuf = none)
      (hwbuf : h.bufs wbuf = none) (hne : wbuf ≠ rbuf) : Allocated h (some i) (h.claimed i rbuf wbuf)

theorem allocScan_honours (hme : w = h.me) (hlocked : h.locked = true) (is : List Nat) :
    (allocScan w is).Honours poolContract h.Allocated h := by
  induction is with
  | nil =>
    refine .ask_bind ⟨hme, hlocked⟩ ?_
    rintro - _ ⟨⟩
    exact .pure .full
  | cons i is ih =>
    refine .ask_bind trivial fun (st : ConnState) h₁ hload => ?_
    rcases Holds.loadedState_eq_some hload with ⟨rfl, hconn, rfl⟩ | ⟨hst, rfl⟩
    · rw [if_pos hlocked, if_pos rfl]
      refine .ask_bind (.inr rfl) ?_
      rintro - _ ⟨⟩
      have hstart : (h.see i).storedState i .connected = h.putConn i (some .unknown) := by
        simp [Holds.storedState, Holds.see, Holds.putConn, hconn]
      rw [hstart]
      refine newBuf_honours (by simp) fun rbuf hrbuf => ?_
      refine newBuf_honours (by simp [Holds.fill]) fun wbuf hwbuf => ?_
      refine .ask_bind trivial fun (t : Int) h₄ ht => ?_
      obtain rfl := Option.some.inj ht
      refine .ask_bind (show Option.isSome _ = true by simp [Holds.fill]) ?_
      rintro - _ ⟨⟩
      refine .ask_bind ⟨hme, hlocked⟩ ?_
      rintro - _ ⟨⟩
      have hne : wbuf ≠ rbuf := by
        rintro rfl
        simp [Holds.fill] at hwbuf
      refine .pure (.conn hconn hrbuf ?_ hne)
      simpa [Holds.fill, hne] using hwbuf
    · rw [if_neg hst]
      exact ih

theorem connAlloc_honours (hme : w = h.me) (hlocked : h.locked = false) (n : Nat) :
    (connAlloc n w).Honours poolContract (h.setLocked true).Allocated h := by
  refine .ask_bind ⟨hme, hlocked⟩ ?_
  rintro - _ ⟨⟩
  exact allocScan_honours (h := h.setLocked true) hme rfl _

/-- The worker is between two events. -/
structure Holds.Rests (w : ι) (h : Holds ι) : Prop where
  me : w = h.me
  settled : h.Settled

/-- A worker that has just been started. -/
def Holds.nothing (w : ι) : Holds ι := ⟨w, false, none, fun _ => none, fun _ => none, fun _ => none⟩

theorem Holds.nothing_rests (w : ι) : (Holds.nothing w).Rests w :=
  ⟨rfl, rfl, by simp [Holds.nothing], by simp [Holds.nothing], by simp [Holds.nothing]⟩

theorem Holds.Rests.congr (hr : h.Rests w) (hme : h'.me = h.me) (hlocked : h'.locked = false)
    (hconn : h'.conn = h.conn) (hfds : h'.fds = h.fds) (hbufs : h'.bufs = h.bufs) : h'.Rests w := by
  obtain ⟨hw, -, hready, hfd, hbuf⟩ := hr
  refine ⟨hw.trans hme.symm, hlocked, ?_, ?_, ?_⟩
  · simpa [Holds.Ready, hconn, hfds, hbufs] using hready
  · simpa [hconn, hfds] using hfd
  · simpa [hconn, hbufs] using hbuf

/-- A connection is added, with a descriptor and buffers that are new. -/
theorem Holds.Rests.add (hr : h.Rests w) {fd : Nat} (buf : Side → Nat) (hconn : h.conn i = none)
    (hfd : h.fds fd = none) (hbuf : ∀ side, h.bufs (buf side) = none) (hne : buf .write ≠ buf .read)
    (hme : h'.me = h.me) (hlocked : h'.locked = false)
    (hconn' : h'.conn = Function.update h.conn i (some ⟨some fd, fun side => some (some (buf side))⟩))
    (hfds' : h'.fds = Function.update h.fds fd (some (.conn i)))
    (hbufs' : h'.bufs = Function.update (Function.update h.bufs (buf .read) (some (.conn .read i)))
      (buf .write) (some (.conn .write i))) : h'.Rests w := by
  obtain ⟨hw, -, hready, hfds, hbufs⟩ := hr
  have hplace (side : Side) : h'.bufs (buf side) = some (.conn side i) := by
    rw [hbufs']
    cases side
    · rw [Function.update_of_ne (Ne.symm hne), Function.update_self]
    · rw [Function.update_self]
  have hold (b : Nat) (hb : ∀ side, b ≠ buf side) : h'.bufs b = h.bufs b := by
    rw [hbufs', Function.update_of_ne (hb .write), Function.update_of_ne (hb .read)]
  have hother (j : Nat) (hj : j ≠ i) : h'.conn j = h.conn j := by rw [hconn', Function.update_of_ne hj]
  have hthis : h'.conn i = some ⟨some fd, fun side => some (some (buf side))⟩ := by
    rw [hconn', Function.update_self]
  refine ⟨hw.trans hme.symm, hlocked, ?_, ?_, ?_⟩
  · intro j hj
    by_cases hji : j = i
    · subst hji
      exact ⟨_, hthis, ⟨fd, rfl, by rw [hfds', Function.update_self]⟩, fun side => ⟨_, rfl, hplace side⟩⟩
    · rw [hother j hji] at hj
      obtain ⟨k, hk, ⟨f, hkf, hf⟩, hb⟩ := hready j hj
      refine ⟨k, (hother j hji).trans hk, ⟨f, hkf, ?_⟩, fun side => ?_⟩
      · rw [hfds', Function.update_of_ne, hf]
        rintro rfl
        simp [hfd] at hf
      · obtain ⟨b, hkb, hb⟩ := hb side
        refine ⟨b, hkb, ?_⟩
        rw [hold, hb]
        rintro side' rfl
        simp [hbuf] at hb
  · intro f p hf
    by_cases hfeq : f = fd
    · subst hfeq
      rw [hfds', Function.update_self] at hf
      exact ⟨i, _, (Option.some.inj hf).symm, hthis, rfl⟩
    · rw [hfds', Function.update_of_ne hfeq] at hf
      obtain ⟨j, k, hp, hk, hkf⟩ := hfds f p hf
      refine ⟨j, k, hp, ?_, hkf⟩
      rw [hother, hk]
      rintro rfl
      simp [hconn] at hk
  · intro b p hb
    by_cases hbeq : ∃ side, b = buf side
    · obtain ⟨side, rfl⟩ := hbeq
      rw [hplace] at hb
      exact ⟨side, i, _, (Option.some.inj hb).symm, hthis, rfl⟩
    · rw [hold b fun side heq => hbeq ⟨side, heq⟩] at hb
      obtain ⟨side, j, k, hp, hk, hkb⟩ := hbufs b p hb
      refine ⟨side, j, k, hp, ?_, hkb⟩
      rw [hother, hk]
      rintro rfl
      simp [hconn] at hk

theorem Holds.Settled.fd_eq (hs : h.Settled) {k : KnownConn} {f fd : Nat} (hk : h.conn i = some k)
    (hkfd : k.fd = some (fd : Int)) (hf : h.fds f = some (.conn i)) : f = fd := by
  obtain ⟨_, k', heq, hk', hkf⟩ := hs.fds f _ hf
  cases heq
  rw [hk] at hk'
  cases hk'
  rw [hkfd] at hkf
  exact_mod_cast (Option.some.inj hkf).symm

theorem Holds.Settled.buf_eq (hs : h.Settled) {k : KnownConn} {side : Side} {b b' : Nat}
    (hk : h.conn i = some k) (hkb : k.buf side = some (some b')) (hb : h.bufs b = some (.conn side i)) :
    b = b' := by
  obtain ⟨_, _, k', heq, hk', hkb'⟩ := hs.bufs b _ hb
  cases heq
  rw [hk] at hk'
  cases hk'
  rw [hkb] at hkb'
  exact (Option.some.inj (Option.some.inj hkb')).symm

/-- A connection is given back, with its descriptor and its buffers. -/
theorem Holds.Rests.drop (hr : h.Rests w) {k : KnownConn} {fd : Nat} {buf : Side → Nat}
    (hk : h.conn i = some k) (hfd : h.fds fd = some (.conn i))
    (hbuf : ∀ side, k.buf side = some (some (buf side)) ∧ h.bufs (buf side) = some (.conn side i))
    (hkfd : k.fd = some (fd : Int)) (hme : h'.me = h.me) (hlocked : h'.locked = false)
    (hconn' : h'.conn = Function.update h.conn i none) (hfds' : h'.fds = Function.update h.fds fd none)
    (hbufs' : h'.bufs = Function.update (Function.update h.bufs (buf .read) none) (buf .write) none) :
    h'.Rests w := by
  obtain ⟨hw, hsettled⟩ := hr
  have hgone (side : Side) : h'.bufs (buf side) = none := by
    rw [hbufs']
    cases side
    · by_cases heq : buf .read = buf .write <;> simp [heq]
    · rw [Function.update_self]
  have hold (b : Nat) (hb : ∀ side, b ≠ buf side) : h'.bufs b = h.bufs b := by
    rw [hbufs', Function.update_of_ne (hb .write), Function.update_of_ne (hb .read)]
  have hother (j : Nat) (hj : j ≠ i) : h'.conn j = h.conn j := by rw [hconn', Function.update_of_ne hj]
  refine ⟨hw.trans hme.symm, hlocked, ?_, ?_, ?_⟩
  · intro j hj
    have hji : j ≠ i := by
      rintro rfl
      simp [hconn'] at hj
    rw [hother j hji] at hj
    obtain ⟨kj, hkj, ⟨f, hkf, hf⟩, hb⟩ := hsettled.ready j hj
    refine ⟨kj, (hother j hji).trans hkj, ⟨f, hkf, ?_⟩, fun side => ?_⟩
    · rw [hfds', Function.update_of_ne, hf]
      rintro rfl
      rw [hfd] at hf
      cases hf
      exact hji rfl
    · obtain ⟨b, hkb, hb⟩ := hb side
      refine ⟨b, hkb, ?_⟩
      rw [hold, hb]
      rintro side' rfl
      rw [(hbuf side').2] at hb
      cases hb
      exact hji rfl
  · intro f p hf
    have hne : f ≠ fd := by
      rintro rfl
      simp [hfds'] at hf
    rw [hfds', Function.update_of_ne hne] at hf
    obtain ⟨j, kj, rfl, hkj, hkf⟩ := hsettled.fds f p hf
    refine ⟨j, kj, rfl, ?_, hkf⟩
    rw [hother, hkj]
    rintro rfl
    exact hne (hsettled.fd_eq hk hkfd hf)
  · intro b p hb
    have hne : ∀ side, b ≠ buf side := by
      rintro side rfl
      simp [hgone] at hb
    rw [hold b hne] at hb
    obtain ⟨side, j, kj, rfl, hkj, hkb⟩ := hsettled.bufs b p hb
    refine ⟨side, j, kj, rfl, ?_, hkb⟩
    rw [hother, hkj]
    rintro rfl
    exact hne side (hsettled.buf_eq hk (hbuf side).1 hb)

/-- What is still there after a program: all connections, or all but the given one. -/
def Holds.Keeps (h h' : Holds ι) (but : Option Nat) : Prop :=
  ∀ j, some j ≠ but → (h.conn j).isSome → (h'.conn j).isSome

/-- The descriptor is put into the connection that `conn_alloc` has returned. -/
theorem Holds.Rests.accepted (hr : h.Rests w) {cfd rbuf wbuf : Nat} (hnew : h.fds cfd = none)
    (hconn : h.conn i = none) (hrbuf : h.bufs rbuf = none) (hwbuf : h.bufs wbuf = none)
    (hne : wbuf ≠ rbuf)
    (hh' : h' = (((h.putFd cfd (some .hand)).setLocked true).claimed i rbuf wbuf).storedFd i cfd) :
    h'.Rests w ∧ h.Keeps h' none ∧ (h'.conn i).isSome ∧ h'.fds cfd = some (.conn i) := by
  let buf : Side → Nat := Side.rec rbuf wbuf
  have hsides : Function.update (Function.update KnownConn.unknown.buf .read (some (some rbuf))) .write
      (some (some wbuf)) = fun side => some (some (buf side)) := by
    funext side
    cases side <;> rfl
  have hconn' : h'.conn =
      Function.update h.conn i (some ⟨some cfd, fun side => some (some (buf side))⟩) := by
    subst hh'
    simp [Holds.storedFd, Holds.claimed, Holds.fill, Holds.putConn, Holds.putFd, Holds.putBuf,
      Holds.setLocked, hsides]
  have hfds' : h'.fds = Function.update h.fds cfd (some (.conn i)) := by
    subst hh'
    simp [Holds.storedFd, Holds.claimed, Holds.fill, Holds.putConn, Holds.putFd, Holds.putBuf,
      Holds.setLocked]
  refine ⟨?_, fun j _ hj => ?_, by simp [hconn'], by simp [hfds']⟩
  · refine hr.add buf hconn hnew (by rintro (_ | _) <;> assumption) hne ?_ ?_ hconn' hfds' ?_
    all_goals subst hh'
    all_goals simp [Holds.storedFd, Holds.claimed, Holds.fill, Holds.putConn, Holds.putFd, Holds.putBuf,
      Holds.setLocked, buf]
  · by_cases hji : j = i
    · simp [hconn', hji]
    · simpa [hconn', hji] using hj

/-- The end of accepting: the connection is watched from now on. -/
theorem watch_honours (hr : h.Rests w) {cfd : Nat} (hown : (h.conn i).isSome)
    (hfd : h.fds cfd = some (.conn i)) (tls : Bool) :
    Honours poolContract (fun _ h' => h'.Rests w ∧ h'.conn = h.conn) (do
      if tls then PoolCall.storeState i .tlsHand
      PoolCall.epollAdd w cfd i) h := by
  cases tls with
  | false =>
    refine .ask ⟨hr.me, cfd, rfl, hfd⟩ ?_
    rintro - _ ⟨⟩
    exact ⟨hr, rfl⟩
  | true =>
    obtain ⟨k, hk⟩ := Option.isSome_iff_exists.mp hown
    refine .ask_bind (.inl hown) ?_
    rintro - _ ⟨⟩
    refine .ask ⟨hr.me, cfd, rfl, hfd⟩ ?_
    rintro - _ ⟨⟩
    have hsame : (h.storedState i .tlsHand).conn = h.conn := by
      simp [Holds.storedState, Holds.putConn, hk]
    exact ⟨hr.congr rfl hr.settled.locked hsame rfl rfl, hsame⟩

theorem acceptOne_honours (hr : h.Rests w) {cfd : Nat} (hnew : h.fds cfd = none) (n : Nat) (tls : Bool) :
    (acceptOne n tls w cfd).Honours poolContract (fun _ h' => h'.Rests w ∧ h.Keeps h' none)
      (h.putFd cfd (some .hand)) := by
  have halloc := connAlloc_honours (h := h.putFd cfd (some .hand)) hr.me hr.settled.locked n
  refine .bind halloc fun r h₁ halloc => ?_
  cases halloc with
  | full =>
    refine .ask ⟨cfd, rfl, by simp⟩ ?_
    rintro - _ ⟨⟩
    refine ⟨hr.congr rfl rfl rfl ?_ rfl, fun _ _ hj => hj⟩
    simp [Holds.putFd, Holds.setLocked, ← hnew]
  | conn hconn hrbuf hwbuf hne =>
    refine .ask_bind ⟨by simp [Holds.claimed, Holds.fill], by simp [Holds.claimed, Holds.fill]⟩
      fun _ h₂ hstored => ?_
    obtain ⟨hrests, hkeeps, hown, hfd⟩ :=
      hr.accepted hnew hconn hrbuf hwbuf hne (Option.some.inj hstored).symm
    exact (watch_honours hrests hown hfd tls).weaken fun _ h₃ hwatch =>
      ⟨hwatch.1, fun j hj hown => hwatch.2 ▸ hkeeps j hj hown⟩

theorem releaseBuf_honours {k : KnownConn} {side : Side} {b : Nat} (hk : h.conn i = some k)
    (hkb : k.buf side = some (some b)) (hb : h.bufs b ≠ none) :
    (releaseBuf side i).Honours poolContract (fun _ h' => h' = (h.putBuf b none).putConn i
      (some { k with buf := Function.update k.buf side (some none) })) h := by
  have hown : (h.conn i).isSome := by simp [hk]
  refine .ask_bind hown fun (v : Option Nat) h₁ hload => ?_
  obtain ⟨rfl, hknown⟩ := Holds.loadedBuf_eq_some hload
  obtain rfl := hknown k _ hk hkb
  refine .ask_bind ⟨b, rfl, hb⟩ ?_
  rintro - _ ⟨⟩
  refine .ask ⟨hown, by simp⟩ ?_
  rintro - _ ⟨⟩
  simp [Holds.storedBuf, hk]

/-- The end of `conn_close`: the descriptor is closed already. -/
theorem giveBack_honours {k : KnownConn} {buf : Side → Nat} (hk : h.conn i = some k)
    (hbuf : ∀ side, k.buf side = some (some (buf side)) ∧ h.bufs (buf side) = some (.conn side i))
    (hfds : ∀ f, h.fds f ≠ some (.conn i))
    (hbufs : ∀ side b, h.bufs b = some (.conn side i) → b = buf side) :
    Honours poolContract
      (fun _ h' => h' = ((h.putBuf (buf .read) none).putBuf (buf .write) none).putConn i none) (do
        releaseBuf .read i
        releaseBuf .write i
        PoolCall.storeState i .free) h := by
  have hne : buf .write ≠ buf .read := by
    intro heq
    have hboth := (hbuf .write).2
    rw [heq, (hbuf .read).2] at hboth
    simp at hboth
  refine .bind (releaseBuf_honours hk (hbuf .read).1 (by simp [(hbuf .read).2])) ?_
  rintro - _ rfl
  refine .bind (releaseBuf_honours (k := { k with buf := Function.update k.buf .read (some none) })
    (b := buf .write) (Function.update_self ..) (by simp [(hbuf .write).1])
    (by simp [hne, (hbuf .write).2])) ?_
  rintro - _ rfl
  refine .ask ⟨by simp, hfds, fun side b hb => ?_⟩ ?_
  · have hgone (side' : Side) : b ≠ buf side' := by
      rintro rfl
      cases side' <;> simp [Ne.symm hne] at hb
    exact hgone side (hbufs side b (by simpa [hgone] using hb))
  · rintro - _ ⟨⟩
    simp [Holds.storedState, Holds.putConn, Holds.putBuf]

theorem connClose_honours (hr : h.Rests w) (hown : (h.conn i).isSome) :
    (connClose w i).Honours poolContract (fun _ h' => h'.Rests w ∧ h.Keeps h' (some i)) h := by
  obtain ⟨k, hk, ⟨fd, hkfd, hfd⟩, hbufs⟩ := hr.settled.ready i hown
  choose buf hbuf using hbufs
  refine .ask_bind trivial fun (st : ConnState) h₁ hload => ?_
  rcases Holds.loadedState_eq_some hload with ⟨-, hnone, -⟩ | ⟨hst, rfl⟩
  · simp [hk] at hnone
  rw [if_neg hst]
  refine .ask_bind trivial fun (v : Int) h₂ hload => ?_
  obtain ⟨rfl, -⟩ := Holds.loadedFd_eq_some hload
  refine .ask_bind hr.me ?_
  rintro - _ ⟨⟩
  -- the second load of the descriptor is the one that is closed
  refine .ask_bind trivial fun (v : Int) h₃ hload => ?_
  obtain ⟨rfl, hknown⟩ := Holds.loadedFd_eq_some hload
  obtain rfl := hknown k _ hk hkfd
  refine .ask_bind ⟨fd, rfl, by simp [hfd]⟩ ?_
  rintro - _ ⟨⟩
  refine .ask_bind ⟨hown, by omega⟩ ?_
  rintro - _ ⟨⟩
  have hstored : (h₃.putFd (fd : Int).toNat none).storedFd i (-1) =
      (h₃.putFd fd none).putConn i (some { k with fd := some (-1) }) := by
    simp [Holds.storedFd, hk]
  rw [hstored]
  have hknown' : ((h₃.putFd fd none).putConn i (some { k with fd := some (-1) })).conn i =
      some { k with fd := some (-1) } := Function.update_self ..
  refine (giveBack_honours hknown' hbuf (fun f hf => ?_)
    fun side b hb => hr.settled.buf_eq hk (hbuf side).1 hb).weaken ?_
  · have hne : f ≠ fd := by
      rintro rfl
      simp at hf
    exact hne (hr.settled.fd_eq hk hkfd (by simpa [hne] using hf))
  · rintro - _ rfl
    refine ⟨hr.drop hk hfd hbuf hkfd rfl hr.settled.locked ?_ rfl rfl, fun j hj hown => ?_⟩
    · simp [Holds.putConn, Holds.putBuf, Holds.putFd]
    · have hji : j ≠ i := fun heq => hj (heq ▸ rfl)
      simpa [hji] using hown

theorem Holds.Keeps.trans {h₁ h₂ : Holds ι} {but : Option Nat} (hk : h.Keeps h₁ but)
    (hk' : h₁.Keeps h₂ none) : h.Keeps h₂ but :=
  fun j hj hown => hk' j (by simp) (hk j hj hown)

theorem acceptLoop_honours (hr : h.Rests w) (n : Nat) (tls : Bool) (fuel : Nat) :
    (acceptLoop n tls w fuel).Honours poolContract (fun _ h' => h'.Rests w ∧ h.Keeps h' none) h := by
  induction fuel generalizing h with
  | zero => exact .pure ⟨hr, fun _ _ hown => hown⟩
  | succ fuel ih =>
    refine .ask_bind trivial fun (v : Option Nat) h₁ hv => ?_
    cases v with
    | none =>
      obtain rfl := Option.some.inj hv
      exact .pure ⟨hr, fun _ _ hown => hown⟩
    | some cfd =>
      obtain ⟨hnew, rfl⟩ := Holds.gotFd_eq_some hv
      refine .bind (acceptOne_honours hr hnew n tls) fun _ h₂ hone => ?_
      exact (ih hone.1).weaken fun _ h₃ hrest => ⟨hrest.1, hone.2.trans hrest.2⟩

theorem handleConn_honours (hr : h.Rests w) (hown : (h.conn i).isSome) (hangsUp : Bool) :
    (handleConn w i hangsUp).Honours poolContract (fun _ h' => h'.Rests w ∧ h.Keeps h' (some i)) h := by
  refine .ask_bind trivial fun (st : ConnState) h₁ hload => ?_
  rcases Holds.loadedState_eq_some hload with ⟨-, hnone, -⟩ | ⟨hst, rfl⟩
  · simp [hnone] at hown
  rw [if_neg hst]
  cases hangsUp with
  | true => exact connClose_honours hr hown
  | false =>
    refine .ask_bind (hr.settled.ready i hown) fun (closes : Bool) h₂ hserve => ?_
    obtain rfl := Option.some.inj hserve
    cases closes with
    | true => exact connClose_honours hr hown
    | false => exact .pure ⟨hr, fun _ _ hown => hown⟩

theorem handleEvents_honours (hr : h.Rests w) (n : Nat) (tls : Bool) (fuel : Nat)
    {events : List PoolEvent} (hnodup : (eventConns events).Nodup)
    (hown : ∀ i ∈ eventConns events, (h.conn i).isSome) :
    (handleEvents n tls w fuel events).Honours poolContract (fun _ h' => h'.Rests w) h := by
  induction events generalizing h with
  | nil => exact .pure hr
  | cons e events ih =>
    cases e with
    | listen =>
      refine .bind (acceptLoop_honours hr n tls fuel) fun _ h₁ hloop => ?_
      exact ih hloop.1 hnodup fun i hi => hloop.2 i (by simp) (hown i hi)
    | conn i hangsUp =>
      obtain ⟨hnotin, hnodup⟩ := List.nodup_cons.mp (show (i :: eventConns events).Nodup from hnodup)
      have hall : ∀ j ∈ i :: eventConns events, (h.conn j).isSome := hown
      refine .bind (handleConn_honours hr (hall i (by simp)) hangsUp) fun _ h₁ hconn => ?_
      refine ih hconn.1 hnodup fun j hj => hconn.2 j ?_ (hall j (by simp [hj]))
      rintro ⟨⟩
      exact hnotin hj

theorem sweepLoop_honours (hr : h.Rests w) (now : Int) (js : List Nat) :
    (sweepLoop w now js).Honours poolContract (fun _ h' => h'.Rests w) h := by
  induction js generalizing h with
  | nil => exact .pure hr
  | cons j js ih =>
    refine .ask_bind trivial fun (st : ConnState) h₁ hload => ?_
    rcases Holds.loadedState_eq_some hload with ⟨rfl, -, rfl⟩ | ⟨hst, rfl⟩
    · rw [if_pos rfl, if_neg (by simp [hr.settled.locked])]
      exact ih hr
    rw [if_neg hst]
    refine .ask_bind trivial fun (fd : Int) h₂ hload => ?_
    obtain ⟨rfl, -⟩ := Holds.loadedFd_eq_some hload
    by_cases hneg : fd < 0
    · rw [if_pos hneg]
      exact ih hr
    rw [if_neg hneg]
    refine .ask_bind trivial fun (late : Bool) h₃ hidle => ?_
    cases late with
    | true => cases hidle
    | false =>
      obtain rfl := Option.some.inj hidle
      exact ih hr

theorem workerThread_honours (hr : h.Rests w) (n : Nat) (tls : Bool) (fuel turns sweepCount : Nat) :
    (workerThread n tls w fuel turns sweepCount).Honours poolContract (fun _ h' => h'.Rests w) h := by
  induction turns generalizing h sweepCount with
  | zero => exact .pure hr
  | succ turns ih =>
    refine .ask_bind ⟨hr.me, hr.settled⟩ fun (events : List PoolEvent) h₁ hevents => ?_
    obtain ⟨rfl, hnodup, hown⟩ := Holds.gotEvents_eq_some hevents
    refine .bind (handleEvents_honours hr n tls fuel hnodup hown) fun _ h₂ hr => ?_
    by_cases hsweep : 10 ≤ sweepCount + 1
    · rw [if_pos hsweep]
      refine .ask_bind trivial fun (now : Int) h₃ hnow => ?_
      obtain rfl := Option.some.inj hnow
      exact .bind (sweepLoop_honours hr now _) fun _ h₄ hr => ih hr 0
    · rw [if_neg hsweep]
      exact ih hr _

end Honours

end Holds

end VoidCache.ConnPool
