import VoidCache.Lib.EdgeTriggered
import VoidCache.Net.Worker

/-!
# The event loop, system call by system call

`worker_thread` hears of a connection through edge-triggered epoll only. Here its handling of one
connection is cut at its system calls: the wait, each `read` of `process_conn`, each `write` of
`conn_flush`, and each `epoll_ctl` that arms the connection again. The peer acts between any two of
them. On a connection without TLS, what is left when the worker sleeps and epoll has nothing to
report is nothing, or output for which the peer has left no room (`no_lost_wakeup`). With TLS the
worker goes back to sleep after `SSL_accept`, and what came together with the end of the handshake
is left (`handshake_leaves_input`).
-/
namespace VoidCache

/-- Where the worker is with a connection. -/
inductive LoopPhase where
  | idle
  /-- `conn_flush` after `EPOLLOUT`, and whether the event had `EPOLLIN` too. -/
  | resuming (readable : Bool)
  /-- `EPOLL_CTL_MOD` to input only. -/
  | readOnly (readable : Bool)
  | reading
  /-- `conn_flush` at the end of `process_conn`. -/
  | flushing
  /-- `EPOLL_CTL_MOD` to input and output. -/
  | readWrite
  /-- `conn_flush` before `conn_close`. -/
  | parting (cause : Cause)
  deriving DecidableEq

structure EventLoop where
  sock : Sock UInt8
  sess : Session
  phase : LoopPhase

/-- What is up to the system in one step of the worker: the length of a transfer, errors, what a
wait reports beyond the edges, what `SSL_accept` says and how many bytes it takes from the socket;
and what the other connections made of the server and the cache while this one was idle. -/
structure Choice where
  cut : Nat
  fails : Bool
  extra : Edges
  accept : Handshake
  taken : Nat
  srv : Srv
  host : Host
  beyond : Nat → Nat → Nat → UInt8

inductive LoopAct where
  | peer (a : PeerAct UInt8)
  | work (c : Choice)

@[simp] theorem Session.ended_close (s : Session) (cause : Cause) : (s.close cause).ended = some cause := rfl

/-- A write has taken `k` bytes. -/
def Session.sends (s : Session) (k : Nat) : Session :=
  let n : Fin (s.wbuf.len - s.wbuf.rpos + 1) := Fin.ofNat _ k
  { s with wbuf := s.wbuf.advance n, sent := s.sent ++ window s.wbuf.data s.wbuf.rpos n }

/-- One round of the loop of `conn_flush`: it goes on, or it returns. -/
def flushRound (c : Choice) (sock : Sock UInt8) (s : Session) :
    Sock UInt8 × Session × Option FlushResult :=
  if s.wbuf.rpos < s.wbuf.len then
    if c.fails then (sock, s, some .error)
    else
      match sock.write c.cut (s.wbuf.len - s.wbuf.rpos) with
      | (.again, sock) => (sock, s, some .wouldBlock)
      | (.wrote k, sock) => (sock, s.sends k, none)
  else (sock, { s with wbuf := vcBufReset s.wbuf }, some .done)

/-- The rest of `process_conn` once the reads have returned everything. -/
def afterReads (c : Choice) (s : Session) : Session × LoopPhase :=
  match parseLoop c.beyond s.rbuf.len s with
  | (s, .crash) => ({ s with ended := some .crash }, .idle)
  | (s, .protocolError) => (s, .parting .protocolError)
  | (s, .quit) => (s, .parting .quit)
  | (s, .waiting) => (s, if s.wbuf.len = 0 then .idle else .flushing)

/-- One round of the read loop of `process_conn`. -/
def readRound (c : Choice) (sock : Sock UInt8) (s : Session) : EventLoop :=
  let s := { s with rbuf := vcBufGrow s.rbuf 4096 }
  if c.fails then ⟨sock, s.close .readError, .idle⟩
  else
    match sock.read c.cut (s.rbuf.cap - s.rbuf.len) with
    | (.data bytes, sock) => ⟨sock, { s with rbuf := s.rbuf.append bytes }, .reading⟩
    | (.eof, sock) => ⟨sock, s.close .eof, .idle⟩
    | (.again, sock) =>
      let (s, phase) := afterReads c s
      ⟨sock, s, phase⟩

/-- The worker takes up the event that a wait has reported. -/
def wake (c : Choice) (s : Session) (edges : Edges) (sock : Sock UInt8) : EventLoop :=
  let s := { s with srv := c.srv, host := c.host }
  if edges.hangUp then ⟨sock, s.close .eof, .idle⟩
  else if s.conn.state = .tlsHand then
    ⟨{ sock with inbox := sock.inbox.drop c.taken }, tlsDoHandshake s c.accept, .idle⟩
  else
    ⟨sock, s,
      if edges.writable then .resuming edges.readable
      else if edges.readable then .reading else .idle⟩

/-- Once the handshake is over, or without one. -/
theorem wake_of_shaken (c : Choice) {s : Session} (h : s.Shaken) (edges : Edges) (sock : Sock UInt8) :
    wake c s edges sock =
      if edges.hangUp then ⟨sock, Session.close { s with srv := c.srv, host := c.host } .eof, .idle⟩
      else ⟨sock, { s with srv := c.srv, host := c.host },
        if edges.writable then .resuming edges.readable
        else if edges.readable then .reading else .idle⟩ := by
  rw [wake]
  dsimp only
  rw [if_neg h]

theorem wake_sock (c : Choice) {s : Session} (h : s.Shaken) (edges : Edges) (sock : Sock UInt8) :
    (wake c s edges sock).sock = sock := by
  rw [wake_of_shaken c h]
  split <;> rfl

/-- The worker's next step. -/
def EventLoop.work (l : EventLoop) (c : Choice) : EventLoop :=
  match l.phase with
  | .idle =>
    if l.sess.ended ≠ none then l
    else wake c l.sess (l.sock.wait c.extra).1 (l.sock.wait c.extra).2
  | .resuming readable =>
    match flushRound c l.sock l.sess with
    | (sock, s, none) => ⟨sock, s, .resuming readable⟩
    | (sock, s, some .error) => ⟨sock, s.close .writeError, .idle⟩
    | (sock, s, some .done) => ⟨sock, s, .readOnly readable⟩
    | (sock, s, some .wouldBlock) => ⟨sock, s, if readable then .reading else .idle⟩
  | .readOnly readable => ⟨l.sock.rearm false, l.sess, if readable then .reading else .idle⟩
  | .reading => readRound c l.sock l.sess
  | .flushing =>
    match flushRound c l.sock l.sess with
    | (sock, s, none) => ⟨sock, s, .flushing⟩
    | (sock, s, some .error) => ⟨sock, s.close .writeError, .idle⟩
    | (sock, s, some .done) => ⟨sock, s, .idle⟩
    | (sock, s, some .wouldBlock) => ⟨sock, s, .readWrite⟩
  | .readWrite => ⟨l.sock.rearm true, l.sess, .idle⟩
  | .parting cause =>
    match flushRound c l.sock l.sess with
    | (sock, s, none) => ⟨sock, s, .parting cause⟩
    | (sock, s, some _) => ⟨sock, s.close cause, .idle⟩

def loopStep (l : EventLoop) : LoopAct → EventLoop × Unit
  | .peer a => ({ l with sock := l.sock.peer a }, ())
  | .work c => (l.work c, ())

/-- A connection that was just accepted; the peer may have sent something already. -/
def EventLoop.accepted (s : Session) (early : List UInt8) (room : Nat) : EventLoop :=
  ⟨.added early room, s, .idle⟩

/-! ## The rounds -/

section Rounds

variable {c : Choice} {sock : Sock UInt8} {s : Session}

/-- The ways a round of `conn_flush` can go. -/
inductive FlushRound (c : Choice) (sock : Sock UInt8) (s : Session) :
    Sock UInt8 × Session × Option FlushResult → Prop where
  | goesOn {k : Nat} {sock' : Sock UInt8} (hpos : s.wbuf.rpos < s.wbuf.len)
      (hwrite : sock.write c.cut (s.wbuf.len - s.wbuf.rpos) = (.wrote k, sock')) :
      FlushRound c sock s (sock', s.sends k, none)
  | error (hpos : s.wbuf.rpos < s.wbuf.len) : FlushRound c sock s (sock, s, some .error)
  | wouldBlock {sock' : Sock UInt8} (hpos : s.wbuf.rpos < s.wbuf.len)
      (hwrite : sock.write c.cut (s.wbuf.len - s.wbuf.rpos) = (.again, sock')) :
      FlushRound c sock s (sock', s, some .wouldBlock)
  | done (hend : ¬ s.wbuf.rpos < s.wbuf.len) :
      FlushRound c sock s (sock, { s with wbuf := vcBufReset s.wbuf }, some .done)

theorem flushRound_cases (c : Choice) (sock : Sock UInt8) (s : Session) :
    FlushRound c sock s (flushRound c sock s) := by
  unfold flushRound
  split_ifs with hpos hfails
  · exact .error hpos
  · cases hw : sock.write c.cut (s.wbuf.len - s.wbuf.rpos) with
    | mk answer sock' =>
      cases answer with
      | again => exact .wouldBlock hpos hw
      | wrote k => exact .goesOn hpos hw
  · exact .done hpos

/-- A flush leaves the input side of the socket alone, and stops short of the end only when there
is no room. -/
theorem FlushRound.socket {out : Sock UInt8 × Session × Option FlushResult}
    (h : FlushRound c sock s out) :
    out.1.inbox = sock.inbox ∧ out.1.arrived = sock.arrived ∧ out.1.edges = sock.edges ∧
      (out.2.2 = some .wouldBlock → out.1.room = 0) := by
  cases h with
  | goesOn hpos hwrite =>
    obtain ⟨-, -, hsock⟩ := Sock.write_wrote hwrite (by omega)
    rw [hsock]
    exact ⟨rfl, rfl, rfl, (by simp)⟩
  | error => exact ⟨rfl, rfl, rfl, (by simp)⟩
  | wouldBlock hpos hwrite =>
    obtain ⟨rfl, hroom⟩ := Sock.write_again hwrite
    exact ⟨rfl, rfl, rfl, fun _ => hroom⟩
  | done => exact ⟨rfl, rfl, rfl, (by simp)⟩

/-- `process_conn` reads into a buffer that has room. -/
theorem readRoom_pos (b : VcBuf) : 0 < (vcBufGrow b 4096).cap - (vcBufGrow b 4096).len := by
  have hroom := grownCap_room b 4096
  have hcap : (vcBufGrow b 4096).cap = grownCap b 4096 := rfl
  have hlen : (vcBufGrow b 4096).len = b.len := rfl
  omega

end Rounds

/-! ## Nothing is overlooked -/

namespace EventLoop

/-- What the worker may rely on, or still has to do, where it is. -/
def Attentive (l : EventLoop) : Prop :=
  match l.phase with
  | .idle => l.sock.Alert ∧ (l.sess.wbuf.pending ≠ [] → l.sock.Awaits)
  | .resuming readable => (readable = false → l.sock.Alert) ∧ l.sock.wantsOut = true
  | .readOnly readable => (readable = false → l.sock.Alert) ∧ l.sess.wbuf.pending = []
  | .reading => True
  | .flushing => l.sock.Alert
  | .readWrite => l.sock.Alert ∧ (l.sock.blocked = true ∨ 0 < l.sock.room)
  | .parting _ => True

/-- What has arrived is in three parts: `before` has been parsed up to `rest`, `new` was read into
the buffer behind that, and the socket holds the remainder. -/
structure Buffers (l : EventLoop) (before new rest : List UInt8) : Prop where
  arrived : before ++ new ++ l.sock.inbox = l.sock.arrived
  parsed : commandsOf before = (l.sess.log, .waiting rest)
  kept : l.sess.rbuf.contents = rest ++ new
  state : l.sess.conn.state ≠ .closing
  shaken : l.sess.Shaken
  fresh : l.phase ≠ .reading → new = []

def Buffered (l : EventLoop) : Prop := ∃ before new rest, l.Buffers before new rest

inductive Watches (l : EventLoop) : Prop where
  | gone (hidle : l.phase = .idle) (hended : l.sess.ended ≠ none)
  | parting (cause : Cause) (hphase : l.phase = .parting cause)
  | live (hended : l.sess.ended = none) (hsound : l.sock.Sound) (hattentive : l.Attentive)
      (hbuffered : l.Buffered)

variable {l l' : EventLoop}

theorem Buffered.congr (h : l.Buffered) (hphase : l.phase ≠ .reading ∨ l'.phase = .reading)
    (hinbox : l'.sock.inbox = l.sock.inbox) (harrived : l'.sock.arrived = l.sock.arrived)
    (hlog : l'.sess.log = l.sess.log) (hrbuf : l'.sess.rbuf.contents = l.sess.rbuf.contents)
    (hstate : l'.sess.conn.state = l.sess.conn.state) : l'.Buffered := by
  obtain ⟨before, new, rest, harr, hparsed, hkept, hopen, hshaken, hfresh⟩ := h
  unfold Session.Shaken at hshaken
  refine ⟨before, new, rest, ?_, ?_, ?_, ?_, ?_, ?_⟩ <;> grind [Session.Shaken]

theorem Buffered.peer (h : l.Buffered) (a : PeerAct UInt8) :
    Buffered { l with sock := l.sock.peer a } := by
  obtain ⟨before, new, rest, harr, hparsed, hkept, hopen, hshaken, hfresh⟩ := h
  obtain ⟨items, hinbox, harrived⟩ := l.sock.peer_inbox a
  refine ⟨before, new, rest, ?_, hparsed, hkept, hopen, hshaken, hfresh⟩
  rw [hinbox, harrived, ← harr, List.append_assoc _ l.sock.inbox]

theorem Buffered.shaken (h : l.Buffered) : l.sess.Shaken := by
  obtain ⟨_, _, _, hbuffers⟩ := h
  exact hbuffers.shaken

theorem Attentive.peer (h : l.Attentive) (a : PeerAct UInt8) :
    Attentive { l with sock := l.sock.peer a } := by
  obtain ⟨sock, s, phase⟩ := l
  cases phase with
  | idle => exact ⟨h.1.peer a, fun hp => (h.2 hp).peer a⟩
  | resuming readable => exact ⟨fun hr => (h.1 hr).peer a, (sock.peer_wantsOut a).trans h.2⟩
  | readOnly readable => exact ⟨fun hr => (h.1 hr).peer a, h.2⟩
  | reading => trivial
  | flushing => exact Sock.Alert.peer h a
  | readWrite => exact ⟨h.1.peer a, Sock.peer_blocked_or_room a h.2⟩
  | parting cause => trivial

theorem Watches.peer (h : l.Watches) (a : PeerAct UInt8) :
    Watches { l with sock := l.sock.peer a } := by
  cases h with
  | gone hidle hended => exact .gone hidle hended
  | parting cause hphase => exact .parting cause hphase
  | live hended hsound hattentive hbuffered =>
    exact .live hended (hsound.peer a) (hattentive.peer a) (hbuffered.peer a)

/-- On a connection that is open the handshake is over. -/
theorem Watches.shaken (h : l.Watches) (hidle : l.phase = .idle) (hopen : l.sess.ended = none) :
    l.sess.Shaken := by
  cases h with
  | gone _ hended => exact absurd hopen hended
  | parting _ hphase => cases hidle.symm.trans hphase
  | live _ _ _ hbuffered => exact hbuffered.shaken

section Worker

variable {sock : Sock UInt8} {s : Session} (c : Choice)

/-- The wait: an edge that it takes is an edge that is acted on. -/
theorem Watches.idle (h : Watches ⟨sock, s, .idle⟩) : Watches (work ⟨sock, s, .idle⟩ c) := by
  cases h with
  | gone _ hended =>
    rw [work, if_pos hended]
    exact .gone rfl hended
  | parting _ hphase => cases hphase
  | live hended hsound hattentive hbuffered =>
    obtain ⟨halert, hawaits⟩ := hattentive
    rw [work, if_neg (not_not.mpr hended), wake_of_shaken c hbuffered.shaken]
    by_cases hup : sock.edges.hangUp = true
    · rw [if_pos (show (sock.wait c.extra).1.hangUp = true from hup)]
      exact .gone rfl (by simp)
    · have hopen : sock.finished = false := by
        cases hf : sock.finished with
        | false => rfl
        | true => exact absurd (hsound.ending hf) hup
      rw [if_neg (show ¬ (sock.wait c.extra).1.hangUp = true from hup)]
      have hsound' : Sock.Sound { sock with edges := .none } :=
        ⟨hsound.full, (by simp [Edges.none]), fun hf => absurd hf (by simp [hopen])⟩
      refine .live hended hsound' ?_ (hbuffered.congr (.inl (by simp)) rfl rfl rfl rfl rfl)
      unfold Attentive Sock.Alert Sock.Awaits at *
      split_ifs with hw hr
      · simp only [Sock.wait, Bool.or_eq_true, Bool.and_eq_true] at hw ⊢
        grind [hsound.asked]
      · trivial
      · simp only [Sock.wait, Bool.or_eq_true, Bool.and_eq_true] at hw hr ⊢
        grind

/-- A write that is turned away leaves the connection waiting for room, if it asks for it. -/
theorem awaits_of_write_again {cut n : Nat} {sock' : Sock UInt8}
    (hwrite : sock.write cut n = (.again, sock')) (hwants : sock.wantsOut = true) : sock'.Awaits := by
  obtain ⟨rfl, -⟩ := Sock.write_again hwrite
  exact ⟨hwants, .inr rfl⟩

theorem Watches.resuming {readable : Bool} (h : Watches ⟨sock, s, .resuming readable⟩) :
    Watches (work ⟨sock, s, .resuming readable⟩ c) := by
  cases h with
  | gone hidle => cases hidle
  | parting _ hphase => cases hphase
  | live hended hsound hattentive hbuffered =>
    obtain ⟨halert, hwants⟩ := hattentive
    rw [work]
    have hround := flushRound_cases c sock s
    generalize flushRound c sock s = out at hround ⊢
    cases hround with
    | goesOn hpos hwrite =>
      obtain ⟨-, -, hsock⟩ := Sock.write_wrote hwrite (by omega)
      refine .live hended (hsound.write hwrite) ⟨fun hr => (halert hr).write hwrite, ?_⟩
        (hbuffered.congr (.inl (by simp)) ?_ ?_ rfl rfl rfl)
      all_goals rw [hsock]
      exact hwants
    | error hpos => exact .gone rfl (by simp)
    | wouldBlock hpos hwrite =>
      have hawaits := awaits_of_write_again hwrite hwants
      obtain ⟨rfl, -⟩ := Sock.write_again hwrite
      refine .live hended (hsound.write hwrite) ?_ (hbuffered.congr (.inl (by simp)) rfl rfl rfl rfl rfl)
      cases readable with
      | true => trivial
      | false => exact ⟨(halert rfl).write hwrite, fun _ => hawaits⟩
    | done hend =>
      exact .live hended hsound ⟨halert, rfl⟩ (hbuffered.congr (.inl (by simp)) rfl rfl rfl rfl rfl)

theorem Watches.readOnly {readable : Bool} (h : Watches ⟨sock, s, .readOnly readable⟩) :
    Watches (work ⟨sock, s, .readOnly readable⟩ c) := by
  cases h with
  | gone hidle => cases hidle
  | parting _ hphase => cases hphase
  | live hended hsound hattentive hbuffered =>
    have hnone : s.wbuf.pending = [] := hattentive.2
    refine .live hended (hsound.rearm false) ?_ (hbuffered.congr (.inl (by simp)) rfl rfl rfl rfl rfl)
    cases readable with
    | true => trivial
    | false => exact ⟨sock.rearm_alert _, fun hp => absurd hnone hp⟩

theorem Watches.flushing (h : Watches ⟨sock, s, .flushing⟩) :
    Watches (work ⟨sock, s, .flushing⟩ c) := by
  cases h with
  | gone hidle => cases hidle
  | parting _ hphase => cases hphase
  | live hended hsound hattentive hbuffered =>
    have halert : sock.Alert := hattentive
    rw [work]
    have hround := flushRound_cases c sock s
    generalize flushRound c sock s = out at hround ⊢
    cases hround with
    | goesOn hpos hwrite =>
      obtain ⟨-, -, hsock⟩ := Sock.write_wrote hwrite (by omega)
      refine .live hended (hsound.write hwrite) (halert.write hwrite)
        (hbuffered.congr (.inl (by simp)) ?_ ?_ rfl rfl rfl)
      all_goals rw [hsock]
    | error hpos => exact .gone rfl (by simp)
    | wouldBlock hpos hwrite =>
      obtain ⟨rfl, -⟩ := Sock.write_again hwrite
      exact .live hended (hsound.write hwrite) ⟨halert.write hwrite, .inl rfl⟩
        (hbuffered.congr (.inl (by simp)) rfl rfl rfl rfl rfl)
    | done hend =>
      exact .live hended hsound ⟨halert, fun hp => absurd rfl hp⟩
        (hbuffered.congr (.inl (by simp)) rfl rfl rfl rfl rfl)

theorem Watches.readWrite (h : Watches ⟨sock, s, .readWrite⟩) :
    Watches (work ⟨sock, s, .readWrite⟩ c) := by
  cases h with
  | gone hidle => cases hidle
  | parting _ hphase => cases hphase
  | live hended hsound hattentive hbuffered =>
    exact .live hended (hsound.rearm true)
      ⟨sock.rearm_alert _, fun _ => Sock.rearm_awaits hattentive.2⟩
      (hbuffered.congr (.inl (by simp)) rfl rfl rfl rfl rfl)

theorem watches_parting (cause : Cause) : Watches (work ⟨sock, s, .parting cause⟩ c) := by
  rw [work]
  have hround := flushRound_cases c sock s
  generalize flushRound c sock s = out at hround ⊢
  cases hround with
  | goesOn hpos hwrite => exact .parting cause rfl
  | error hpos => exact .gone rfl (by simp)
  | wouldBlock hpos hwrite => exact .gone rfl (by simp)
  | done hend => exact .gone rfl (by simp)

/-- The last read has returned everything, and the commands in the buffer are dispatched. -/
theorem Watches.afterReads (hended : s.ended = none) (hsound : sock.Sound) (hinbox : sock.inbox = [])
    (hbuffered : Buffered ⟨sock, s, .reading⟩) :
    Watches ⟨sock, (afterReads c s).1, (afterReads c s).2⟩ := by
  obtain ⟨before, new, rest, harrived, hparsed, hkept, hstate, hshaken, -⟩ := hbuffered
  have hkeeps := (parseLoop_keeps c.beyond s.rbuf.len hshaken).1
  have hloop := parseLoop_tracks c.beyond s.rbuf.len hended hstate
  have hfeed : commandsOf (before ++ new) =
      (s.log ++ (drain respParseCommand VcCmd.isQuit s.rbuf.contents).1,
        (drain respParseCommand VcCmd.isQuit s.rbuf.contents).2) := by
    have happend : feed respParseCommand VcCmd.isQuit (commandsOf before) new = commandsOf (before ++ new) :=
      drain_append used_pos respParseCommand_incremental before new
    rw [← happend, hparsed, hkept]
    rfl
  rw [drainFor_of_le used_pos (by simp)] at hloop
  unfold VoidCache.afterReads
  generalize parseLoop c.beyond s.rbuf.len s = res at hloop hkeeps ⊢
  generalize drain respParseCommand VcCmd.isQuit s.rbuf.contents = out at hloop hfeed
  obtain ⟨s1, loopEnd⟩ := res
  obtain ⟨cmds, e⟩ := out
  have halert : sock.Alert := fun hne => absurd hinbox hne
  cases hloop with
  | waiting hended1 hstate1 hlog1 =>
    have hbuffered1 (phase : LoopPhase) : Buffered ⟨sock, s1, phase⟩ := by
      refine ⟨before ++ new, [], s1.rbuf.contents, ?_, ?_, ?_, hstate1, hkeeps, fun _ => rfl⟩
      · simpa using harrived
      · rw [hfeed, ← hlog1]
      · simp
    dsimp only
    split
    · rename_i hlen
      have hnone : s1.wbuf.pending = [] := by simp [VcBuf.pending, hlen, window]
      exact .live hended1 hsound ⟨halert, fun hp => absurd hnone hp⟩ (hbuffered1 _)
    · exact .live hended1 hsound halert (hbuffered1 _)
  | failed hlog1 => exact .parting _ rfl
  | stopped hlog1 => exact .parting _ rfl
  | crash e hlog1 => exact .gone rfl (by simp)

theorem Watches.reading (h : Watches ⟨sock, s, .reading⟩) : Watches (work ⟨sock, s, .reading⟩ c) := by
  cases h with
  | gone hidle => cases hidle
  | parting _ hphase => cases hphase
  | live hended hsound hattentive hbuffered =>
    rw [work, readRound]
    dsimp only
    split_ifs
    · exact .gone rfl (by simp)
    · cases hread : sock.read c.cut ((vcBufGrow s.rbuf 4096).cap - (vcBufGrow s.rbuf 4096).len) with
      | mk received sock' =>
        cases received with
        | eof => exact .gone rfl (by simp)
        | again =>
          obtain ⟨rfl, hinbox⟩ := Sock.read_again hread
          exact afterReads c hended hsound hinbox
            (hbuffered.congr (.inr rfl) rfl rfl rfl rfl rfl)
        | data bytes =>
          obtain ⟨hinbox, hsock, -, -⟩ := Sock.read_data hread
          obtain ⟨before, new, rest, harrived, hparsed, hkept, hstate, hshaken, -⟩ := hbuffered
          refine .live hended (hsound.read hread) trivial
            ⟨before, new ++ bytes, rest, ?_, hparsed, ?_, hstate, hshaken, fun h => absurd rfl h⟩
          · rw [hsock, ← harrived, hinbox]
            simp
          · rw [contents_append, contents_vcBufGrow, hkept, List.append_assoc]

theorem Watches.work (h : l.Watches) : (l.work c).Watches := by
  obtain ⟨sock, s, phase⟩ := l
  cases phase with
  | idle => exact h.idle c
  | resuming readable => exact h.resuming c
  | readOnly readable => exact h.readOnly c
  | reading => exact h.reading c
  | flushing => exact h.flushing c
  | readWrite => exact h.readWrite c
  | parting cause => exact watches_parting c cause

end Worker

theorem Watches.step (h : l.Watches) (a : LoopAct) : (loopStep l a).1.Watches := by
  cases a with
  | peer a => exact h.peer a
  | work c => exact h.work c

theorem watches_accepted {s : Session} (hnew : s.IsNew) (hout : s.wbuf.pending = []) (hplain : s.Shaken)
    (early : List UInt8) (room : Nat) : (accepted s early room).Watches := by
  refine .live hnew.ended (Sock.added_sound ..) ⟨Sock.added_alert early room, fun hp => absurd hout hp⟩ ?_
  refine ⟨[], [], [], rfl, ?_, hnew.rbuf, hnew.state, hplain, fun _ => rfl⟩
  rw [accepted, hnew.log]
  rfl

theorem run_watches {l : EventLoop} (h : l.Watches) (acts : List LoopAct) :
    (Machine.run loopStep l acts).Watches :=
  Machine.run_inv (P := fun _ _ => True) (fun _ a hl _ => hl.step a) h
    (Machine.along_of_forall fun _ _ _ => trivial)

/-- Asleep and with nothing to report, the worker has not overlooked anything. -/
theorem Watches.at_rest (h : l.Watches) (hidle : l.phase = .idle) (hedges : l.sock.edges = .none)
    (hopen : l.sess.ended = none) :
    l.sock.inbox = [] ∧ l.sock.finished = false ∧
      commandsOf l.sock.arrived = (l.sess.log, .waiting l.sess.rbuf.contents) ∧
      (l.sess.wbuf.pending ≠ [] → l.sock.room = 0 ∧
        ∀ n, 0 < n → (l.sock.peer (.take n)).edges.writable = true) := by
  cases h with
  | gone _ hended => exact absurd hopen hended
  | parting _ hphase => cases hidle.symm.trans hphase
  | live _ hsound hattentive hbuffered =>
    rw [Attentive, hidle] at hattentive
    obtain ⟨halert, hawaits⟩ := hattentive
    have hinbox : l.sock.inbox = [] := by
      by_contra hne
      have := halert hne
      simp [hedges, Edges.none] at this
    have hfinished : l.sock.finished = false := by
      cases hf : l.sock.finished with
      | false => rfl
      | true => simpa [hedges, Edges.none] using hsound.ending hf
    obtain ⟨before, new, rest, harrived, hparsed, hkept, -, -, hfresh⟩ := hbuffered
    obtain rfl : new = [] := hfresh (by simp [hidle])
    refine ⟨hinbox, hfinished, ?_, fun hpending => ?_⟩
    · rw [← harrived, hkept, hinbox]
      simpa using hparsed
    · obtain ⟨hwants, hedge⟩ := hawaits hpending
      have hblocked : l.sock.blocked = true := by
        simpa [hedges, Edges.none] using hedge
      refine ⟨hsound.full hblocked, fun n hn => ?_⟩
      simp [Sock.peer, hn.ne', hblocked, hwants]

end EventLoop

/-- However the peer's sends and reads fall between the system calls of the worker, on a connection
without TLS no wake-up is lost. When the worker is done with a connection that is open and epoll has
nothing to report about it, all that has arrived was read and its commands were dispatched, and what
is left to be sent waits for room that will be reported. -/
theorem no_lost_wakeup {s : Session} (hnew : s.IsNew) (hout : s.wbuf.pending = [])
    (hplain : s.conn.state ≠ .tlsHand) (early : List UInt8) (room : Nat) (acts : List LoopAct)
    (l : EventLoop) (hrun : Machine.run loopStep (.accepted s early room) acts = l)
    (hidle : l.phase = .idle) (hedges : l.sock.edges = .none) (hopen : l.sess.ended = none) :
    l.sock.inbox = [] ∧ l.sock.finished = false ∧
      commandsOf l.sock.arrived = (l.sess.log, .waiting l.sess.rbuf.contents) ∧
      (l.sess.wbuf.pending ≠ [] → l.sock.room = 0 ∧
        ∀ n, 0 < n → (l.sock.peer (.take n)).edges.writable = true) := by
  have hwatches : l.Watches :=
    hrun ▸ EventLoop.run_watches (EventLoop.watches_accepted hnew hout hplain early room) acts
  exact hwatches.at_rest hidle hedges hopen

/-- What the system decides when all goes well. -/
def Choice.plain : Choice where
  cut := 4095
  fails := false
  extra := .none
  accept := .again
  taken := 0
  srv := openServer
  host := quietHost (newCache none 8)
  beyond := fun _ _ _ => 0

/-- A `PING` that comes in two parts, and a peer that has room for four bytes of the reply. -/
def pingInParts : List LoopAct :=
  [.work .plain, .work .plain, .peer (.send (str "NG\r\n"))] ++ List.replicate 9 (.work .plain)

theorem ping_not_lost :
    let l := Machine.run loopStep (.accepted (Session.start openServer (quietHost (newCache none 8)) 7
      (str "::1") 50000) (str "PI") 4) pingInParts
    l.sess.sent = str "+PON" ∧ l.sess.wbuf.pending = str "G\r\n" ∧ l.sock.room = 0 ∧
      (l.sock.peer (.take 1)).edges.writable = true := by
  intro l
  have hpending : l.sess.wbuf.pending = str "G\r\n" := by decide +kernel
  have h := no_lost_wakeup (Session.start_isNew ..) rfl (by decide) (str "PI") 4 pingInParts l rfl
    (by decide +kernel) (by decide +kernel) (by decide +kernel)
  obtain ⟨hroom, hedge⟩ := h.2.2.2 (by rw [hpending]; decide)
  exact ⟨by decide +kernel, hpending, hroom, hedge 1 (by decide)⟩

/-- With TLS a wake-up can be lost. The end of the handshake and a command arrive together: `SSL_accept`
takes the former, the worker does not go on to read, and epoll has reported the input. -/
theorem handshake_leaves_input {s : Session} (hopen : s.ended = none) (htls : s.conn.state = .tlsHand)
    (flight command : List UInt8) (room : Nat) (c : Choice)
    (hdone : c.accept = .complete) (htaken : c.taken = flight.length) :
    let l := Machine.run loopStep (.accepted s (flight ++ command) room) [.work c]
    l.phase = .idle ∧ l.sock.edges = .none ∧ l.sess.ended = none ∧ l.sess.Shaken ∧
      l.sock.inbox = command := by
  intro l
  have hwoken : l = wake c s ((Sock.added (flight ++ command) room).wait c.extra).1
      ((Sock.added (flight ++ command) room).wait c.extra).2 := if_neg (not_not.mpr hopen)
  have hshook : l = ⟨{ (Sock.added (flight ++ command) room) with
      edges := .none, inbox := (flight ++ command).drop c.taken },
      tlsDoHandshake { s with srv := c.srv, host := c.host } c.accept, .idle⟩ := by
    rw [hwoken, wake, if_neg (by simp [Sock.wait, Sock.added]), if_pos htls]
    rfl
  rw [hshook, hdone, htaken]
  refine ⟨rfl, rfl, hopen, ?_, List.drop_left ..⟩
  unfold Session.Shaken tlsDoHandshake
  dsimp only
  split <;> decide

end VoidCache
