import VoidCache.Lib.Serial
import VoidCache.Net.Conn

/-!
# The pool of connections

The worker threads share one array of connections. A connection is taken from it under a lock, but
it is given back without one: the last store of `conn_close` sets its state to free. Here the
workers are programs that run at the same time, and each of their loads and stores and each call of
the system is one step.

Here `vc_buf_new` and `epoll_ctl` do not fail, an event always tells the listening socket from a
connection, and what the handlers do to a connection is one step, up to the `conn_close` they may
end with.
-/
namespace VoidCache.ConnPool

/-! ## Memory, the system and their calls -/

inductive Side where
  | read | write
  deriving DecidableEq

/-- What `conn_alloc`, `conn_close` and the sweep use of a connection. -/
structure PoolConn where
  state : ConnState
  fd : Int
  /-- `rbuf` and `wbuf`. -/
  buf : Side → Option Nat
  lastActive : Int

inductive PoolEvent where
  | listen
  | conn (i : Nat) (hangsUp : Bool)
  deriving DecidableEq

/-- What the system has for the next call, and what comes of an event. -/
structure PoolEnv where
  accepts : Option Nat
  address : Nat
  events : List PoolEvent
  time : Int
  /-- Whether handling the event ends with closing the connection, and the state it leaves. -/
  closes : Bool
  state : ConnState
  state_ne : state ≠ .free

structure PoolWorld (ι : Type) where
  conns : Nat → PoolConn
  lock : Option ι
  /-- The descriptors that `accept` has returned and that are open. -/
  fds : Finset Nat
  bufs : Finset Nat
  /-- For each worker, the descriptors in its `epoll` set with the connections they stand for. -/
  watched : ι → List (Nat × Nat)
  env : Nat → PoolEnv
  calls : Nat

inductive PoolReq (ι : Type) where
  | lock (w : ι)
  | unlock (w : ι)
  | loadState (i : Nat)
  | storeState (i : Nat) (st : ConnState)
  | loadFd (i : Nat)
  | storeFd (i : Nat) (fd : Int)
  | loadBuf (side : Side) (i : Nat)
  | storeBuf (side : Side) (i : Nat) (b : Option Nat)
  /-- `now - c->last_active > timeout_ns`. -/
  | idleAt (now : Int) (i : Nat)
  | storeActive (i : Nat) (t : Int)
  | bufNew
  | bufFree (b : Option Nat)
  | accept
  | close (fd : Int)
  | epollAdd (w : ι) (fd : Int) (i : Nat)
  | epollDel (w : ι) (fd : Int)
  | epollWait (w : ι)
  | monoNs
  /-- `tls_do_handshake`, `conn_flush` and `process_conn` up to the `conn_close` they may end with. -/
  | serve (i : Nat)
  deriving DecidableEq

def PoolReq.Resp {ι : Type} : PoolReq ι → Type
  | .loadState _ => ConnState
  | .loadFd _ => Int
  | .loadBuf .. => Option Nat
  | .idleAt .. => Bool
  | .bufNew => Nat
  | .accept => Option Nat
  | .epollWait _ => List PoolEvent
  | .monoNs => Int
  | .serve _ => Bool
  | _ => Unit

/-- `VC_CONN_TIMEOUT_S`, in nanoseconds. -/
def connTimeoutNs : Int := 300 * 1000000000

section Programs

variable {ι : Type} [DecidableEq ι]

namespace PoolWorld

/-- What the system has for this call. -/
def now (σ : PoolWorld ι) : PoolEnv := σ.env σ.calls

def setConn (σ : PoolWorld ι) (i : Nat) (f : PoolConn → PoolConn) : PoolWorld ι :=
  { σ with conns := Function.update σ.conns i (f (σ.conns i)) }

def tick (σ : PoolWorld ι) : PoolWorld ι := { σ with calls := σ.calls + 1 }

end PoolWorld

def poolExec (σ : PoolWorld ι) : (a : PoolReq ι) → PoolWorld ι × a.Resp
  | .lock w => ({ σ with lock := some w }, ())
  | .unlock _ => ({ σ with lock := none }, ())
  | .loadState i => (σ, (σ.conns i).state)
  | .storeState i st => (σ.setConn i fun c => { c with state := st }, ())
  | .loadFd i => (σ, (σ.conns i).fd)
  | .storeFd i fd => (σ.setConn i fun c => { c with fd := fd }, ())
  | .loadBuf side i => (σ, (σ.conns i).buf side)
  | .storeBuf side i b => (σ.setConn i fun c => { c with buf := Function.update c.buf side b }, ())
  | .idleAt now i => (σ, decide (connTimeoutNs < now - (σ.conns i).lastActive))
  | .storeActive i t => (σ.setConn i fun c => { c with lastActive := t }, ())
  | .bufNew => ({ σ.tick with bufs := insert σ.now.address σ.bufs }, σ.now.address)
  | .bufFree b => ({ σ with bufs := b.elim σ.bufs σ.bufs.erase }, ())
  | .accept => ({ σ.tick with fds := σ.now.accepts.elim σ.fds fun fd => insert fd σ.fds }, σ.now.accepts)
  -- a descriptor that is closed is in no `epoll` set any more
  | .close fd =>
    ({ σ with
        fds := σ.fds.erase fd.toNat
        watched := fun w => (σ.watched w).filter fun p => p.1 ≠ fd.toNat }, ())
  | .epollAdd w fd i =>
    ({ σ with watched := Function.update σ.watched w ((fd.toNat, i) :: σ.watched w) }, ())
  | .epollDel w fd =>
    ({ σ with watched := Function.update σ.watched w ((σ.watched w).filter fun p => p.1 ≠ fd.toNat) }, ())
  | .epollWait _ => (σ.tick, σ.now.events)
  | .monoNs => (σ.tick, σ.now.time)
  | .serve i =>
    (σ.tick.setConn i fun c => { c with state := σ.now.state, lastActive := σ.now.time }, σ.now.closes)

/-- The connections that events are about. -/
def eventConns (events : List PoolEvent) : List Nat :=
  events.filterMap fun
    | .listen => none
    | .conn i _ => some i

/-- What the workers can rely on: `pthread_mutex_lock` waits, new descriptors and new buffers are
not in use, `epoll_wait` reports each watched descriptor at most once and no other one. -/
def PoolWorld.Kernel (σ : PoolWorld ι) : PoolReq ι → Prop
  | .lock _ => σ.lock = none
  | .accept => ∀ fd ∈ σ.now.accepts, fd ∉ σ.fds
  | .bufNew => σ.now.address ∉ σ.bufs
  | .epollWait w => (eventConns σ.now.events).Nodup ∧
      ∀ i ∈ eventConns σ.now.events, i ∈ (σ.watched w).map Prod.snd
  | _ => True

instance (σ : PoolWorld ι) (a : PoolReq ι) : Decidable (σ.Kernel a) := by
  cases a <;> dsimp only [PoolWorld.Kernel] <;> infer_instance

/-- A sweep that looks at a connection does not find it idle for too long. -/
def PoolWorld.Active (σ : PoolWorld ι) : PoolReq ι → Prop
  | .idleAt now i => now - (σ.conns i).lastActive ≤ connTimeoutNs
  | _ => True

instance (σ : PoolWorld ι) (a : PoolReq ι) : Decidable (σ.Active a) := by
  cases a <;> dsimp only [PoolWorld.Active] <;> infer_instance

/-! ## The programs of a worker -/

abbrev PoolProg (ι R : Type) := Calls (@PoolReq.Resp ι) R

namespace PoolCall

def lock (w : ι) : PoolProg ι Unit := Calls.ask (PoolReq.lock w)
def unlock (w : ι) : PoolProg ι Unit := Calls.ask (PoolReq.unlock w)
def loadState (i : Nat) : PoolProg ι ConnState := Calls.ask (PoolReq.loadState i)
def storeState (i : Nat) (st : ConnState) : PoolProg ι Unit := Calls.ask (PoolReq.storeState i st)
def loadFd (i : Nat) : PoolProg ι Int := Calls.ask (PoolReq.loadFd i)
def storeFd (i : Nat) (fd : Int) : PoolProg ι Unit := Calls.ask (PoolReq.storeFd i fd)
def loadBuf (side : Side) (i : Nat) : PoolProg ι (Option Nat) := Calls.ask (PoolReq.loadBuf side i)
def storeBuf (side : Side) (i : Nat) (b : Option Nat) : PoolProg ι Unit :=
  Calls.ask (PoolReq.storeBuf side i b)
def idleAt (now : Int) (i : Nat) : PoolProg ι Bool := Calls.ask (PoolReq.idleAt now i)
def storeActive (i : Nat) (t : Int) : PoolProg ι Unit := Calls.ask (PoolReq.storeActive i t)
def bufNew : PoolProg ι Nat := Calls.ask PoolReq.bufNew
def bufFree (b : Option Nat) : PoolProg ι Unit := Calls.ask (PoolReq.bufFree b)
def accept : PoolProg ι (Option Nat) := Calls.ask PoolReq.accept
def close (fd : Int) : PoolProg ι Unit := Calls.ask (PoolReq.close fd)
def epollAdd (w : ι) (fd : Int) (i : Nat) : PoolProg ι Unit := Calls.ask (PoolReq.epollAdd w fd i)
def epollDel (w : ι) (fd : Int) : PoolProg ι Unit := Calls.ask (PoolReq.epollDel w fd)
def epollWait (w : ι) : PoolProg ι (List PoolEvent) := Calls.ask (PoolReq.epollWait w)
def monoNs : PoolProg ι Int := Calls.ask PoolReq.monoNs
def serve (i : Nat) : PoolProg ι Bool := Calls.ask (PoolReq.serve i)

end PoolCall

open PoolCall

/-- The loop of `conn_alloc` over the array. -/
def allocScan (w : ι) : List Nat → PoolProg ι (Option Nat)
  | [] => do
    unlock w
    pure none
  | i :: is => do
    let st ← loadState i
    if st = .free then
      storeState i .connected
      let rbuf ← bufNew
      storeBuf .read i (some rbuf)
      let wbuf ← bufNew
      storeBuf .write i (some wbuf)
      let t ← monoNs
      storeActive i t
      unlock w
      pure (some i)
    else allocScan w is

def connAlloc (maxConns : Nat) (w : ι) : PoolProg ι (Option Nat) := do
  lock w
  allocScan w (List.range maxConns)

/-- Freeing one of the buffers in `conn_close`. -/
def releaseBuf (side : Side) (i : Nat) : PoolProg ι Unit := do
  let b ← loadBuf side i
  bufFree b
  storeBuf side i none

def connClose (w : ι) (i : Nat) : PoolProg ι Unit := do
  let st ← loadState i
  if st = .free then pure ()
  else
    let fd ← loadFd i
    epollDel w fd
    let fd ← loadFd i
    close fd
    storeFd i (-1)
    releaseBuf .read i
    releaseBuf .write i
    storeState i .free

/-- A descriptor that `accept4` has returned. -/
def acceptOne (maxConns : Nat) (tls : Bool) (w : ι) (cfd : Nat) : PoolProg ι Unit := do
  match ← connAlloc maxConns w with
  | none => close cfd
  | some i =>
    storeFd i cfd
    if tls then storeState i .tlsHand
    epollAdd w cfd i

/-- The loop over `accept4`; what it leaves is reported again. -/
def acceptLoop (maxConns : Nat) (tls : Bool) (w : ι) : Nat → PoolProg ι Unit
  | 0 => pure ()
  | fuel + 1 => do
    match ← accept with
    | none => pure ()
    | some cfd =>
      acceptOne maxConns tls w cfd
      acceptLoop maxConns tls w fuel

def handleConn (w : ι) (i : Nat) (hangsUp : Bool) : PoolProg ι Unit := do
  let st ← loadState i
  if st = .free then pure ()
  else if hangsUp then connClose w i
  else
    let closes ← PoolCall.serve i
    if closes then connClose w i else pure ()

/-- The loop over the events of one `epoll_wait`. -/
def handleEvents (maxConns : Nat) (tls : Bool) (w : ι) (fuel : Nat) : List PoolEvent → PoolProg ι Unit
  | [] => pure ()
  | .listen :: events => do
    acceptLoop maxConns tls w fuel
    handleEvents maxConns tls w fuel events
  | .conn i hangsUp :: events => do
    handleConn w i hangsUp
    handleEvents maxConns tls w fuel events

/-- The sweep over idle connections. -/
def sweepLoop (w : ι) (now : Int) : List Nat → PoolProg ι Unit
  | [] => pure ()
  | j :: js => do
    let st ← loadState j
    if st = .free then sweepLoop w now js
    else
      let fd ← loadFd j
      if fd < 0 then sweepLoop w now js
      else
        let late ← idleAt now j
        if late then
          connClose w j
          sweepLoop w now js
        else sweepLoop w now js

/-- `worker_thread`, for that many turns of its loop; every tenth turn ends with a sweep. -/
def workerThread (maxConns : Nat) (tls : Bool) (w : ι) (fuel : Nat) : Nat → Nat → PoolProg ι Unit
  | 0, _ => pure ()
  | turns + 1, sweepCount => do
    let events ← epollWait w
    handleEvents maxConns tls w fuel events
    if 10 ≤ sweepCount + 1 then
      let now ← monoNs
      sweepLoop w now (List.range maxConns)
      workerThread maxConns tls w fuel turns 0
    else workerThread maxConns tls w fuel turns (sweepCount + 1)

end Programs

end VoidCache.ConnPool
