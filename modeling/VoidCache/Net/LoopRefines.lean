import VoidCache.Net.EventLoop

/-!
# System calls against events

`workerEvent` handles an event in one step. Here it is compared with the event loop that is cut at
its system calls. `finish` is what the pass that is going on will make of the session, given what
the system still answers. A step of the worker changes only how much of that is known, so whenever
the worker is idle, it has handled a list of events one after the other, and their reads have
returned what has left the socket.
-/
namespace VoidCache

/-! ## A flush, write by write -/

namespace Socket

/-- A socket that takes `k` bytes first. -/
def after (k : Nat) (sock : Socket) : Socket := fun i offered =>
  match i with
  | 0 => .wrote (Fin.ofNat (offered + 1) k)
  | i + 1 => sock i offered

def full : Socket := fun _ _ => .wouldBlock

def broken : Socket := fun _ _ => .failed

end Socket

theorem flushLoop_after (k : Nat) (sock : Socket) (fuel i : Nat) (b : VcBuf) (sent : List UInt8) :
    flushLoop (Socket.after k sock) fuel (i + 1) b sent = flushLoop sock fuel i b sent := by
  induction fuel generalizing i b sent with
  | zero => rfl
  | succ fuel ih => simp only [flushLoop, Socket.after, ih]

theorem flushLoop_congr_fuel (sock : Socket) {n m : Nat} (i : Nat) {b : VcBuf} (sent : List UInt8)
    (hn : b.len - b.rpos ≤ n) (hm : b.len - b.rpos ≤ m) :
    flushLoop sock n i b sent = flushLoop sock m i b sent := by
  induction n generalizing m i b sent with
  | zero =>
    cases m with
    | zero => rfl
    | succ m => simp only [flushLoop, if_neg (show ¬ b.rpos < b.len by omega)]
  | succ n ih =>
    cases m with
    | zero => simp only [flushLoop, if_neg (show ¬ b.rpos < b.len by omega)]
    | succ m =>
      unfold flushLoop
      split
      · cases sock i (b.len - b.rpos) with
        | wouldBlock => rfl
        | failed => rfl
        | wrote k =>
          dsimp only
          split
          · rfl
          · have hlen : (b.advance k).len = b.len := rfl
            have hrpos : (b.advance k).rpos = b.rpos + k := rfl
            exact ih _ _ (by omega) (by omega)
      · rfl

theorem flushLoop_sent (sock : Socket) (fuel i : Nat) (b : VcBuf) (before sent : List UInt8) :
    flushLoop sock fuel i b (before ++ sent) =
      ((flushLoop sock fuel i b sent).1, (flushLoop sock fuel i b sent).2.1,
        before ++ (flushLoop sock fuel i b sent).2.2) := by
  induction fuel generalizing i b sent with
  | zero => rfl
  | succ fuel ih =>
    unfold flushLoop
    split
    · cases sock i (b.len - b.rpos) with
      | wouldBlock => rfl
      | failed => rfl
      | wrote k =>
        dsimp only
        split
        · rfl
        · rw [List.append_assoc, ih]
    · rfl

namespace Session

variable {s : Session}

theorem flush_after {k : Nat} (sock : Socket) (hpos : 0 < k) (hle : k ≤ s.wbuf.len - s.wbuf.rpos) :
    s.flush (Socket.after k sock) = (s.sends k).flush sock := by
  have hk : k % (s.wbuf.len - s.wbuf.rpos + 1) = k := Nat.mod_eq_of_lt (by omega)
  have hrpos : (s.sends k).wbuf.rpos = s.wbuf.rpos + k := by
    simp [Session.sends, VcBuf.advance, hk]
  have hlen : (s.sends k).wbuf.len = s.wbuf.len := rfl
  have hloop : connFlush (Socket.after k sock) s.wbuf =
      flushLoop sock (s.wbuf.len - s.wbuf.rpos) 0 (s.sends k).wbuf
        (window s.wbuf.data s.wbuf.rpos k ++ []) := by
    rw [connFlush, flushLoop_congr_fuel _ 0 _ le_rfl (Nat.le_succ _), flushLoop,
      if_pos (by omega)]
    simp only [Socket.after, Fin.val_ofNat, hk, if_neg hpos.ne', List.nil_append, List.append_nil]
    exact flushLoop_after ..
  rw [flushLoop_sent, flushLoop_congr_fuel _ 0 _ (by omega) le_rfl, ← connFlush] at hloop
  have hsent : (s.sends k).sent = s.sent ++ window s.wbuf.data s.wbuf.rpos k := by
    simp [Session.sends, hk]
  simp only [Session.flush, hloop, hsent, List.append_assoc]
  rfl

theorem flush_full (h : s.wbuf.rpos < s.wbuf.len) : s.flush .full = (s, .wouldBlock) := by
  obtain ⟨m, hm⟩ : ∃ m, s.wbuf.len - s.wbuf.rpos = m + 1 := ⟨s.wbuf.len - s.wbuf.rpos - 1, by omega⟩
  simp [Session.flush, connFlush, hm, flushLoop, h, Socket.full]

theorem flush_broken (h : s.wbuf.rpos < s.wbuf.len) : s.flush .broken = (s, .error) := by
  obtain ⟨m, hm⟩ : ∃ m, s.wbuf.len - s.wbuf.rpos = m + 1 := ⟨s.wbuf.len - s.wbuf.rpos - 1, by omega⟩
  simp [Session.flush, connFlush, hm, flushLoop, h, Socket.broken]

theorem flush_end (sock : Socket) (h : ¬ s.wbuf.rpos < s.wbuf.len) :
    s.flush sock = ({ s with wbuf := vcBufReset s.wbuf }, .done) := by
  have hm : s.wbuf.len - s.wbuf.rpos = 0 := by omega
  simp [Session.flush, connFlush, hm, flushLoop]

/-- What a flush comes to whose next round is `out`. -/
def roundEnds (sock : Socket) (out : Sock UInt8 × Session × Option FlushResult) :
    Session × FlushResult :=
  match out.2.2 with
  | none => out.2.1.flush sock
  | some r => (out.2.1, r)

/-- Whatever a round of the flush does, some socket does it in one go. -/
theorem flush_round {c : Choice} {sk : Sock UInt8} {out : Sock UInt8 × Session × Option FlushResult}
    (h : FlushRound c sk s out) (sock : Socket) : ∃ sock', s.flush sock' = roundEnds sock out := by
  cases h with
  | goesOn hpos hwrite =>
    obtain ⟨hk, hle, -⟩ := Sock.write_wrote hwrite (by omega)
    exact ⟨_, flush_after sock hk hle⟩
  | error hpos => exact ⟨_, flush_broken hpos⟩
  | wouldBlock hpos => exact ⟨_, flush_full hpos⟩
  | done hend => exact ⟨sock, flush_end sock hend⟩

end Session

/-! ## The reads -/

/-- One read returns a chunk that the buffer has room for. -/
theorem readChunk_fits {b : VcBuf} {c : List UInt8} (hne : c ≠ [])
    (hfits : c.length ≤ (vcBufGrow b 4096).cap - (vcBufGrow b 4096).len) :
    readChunk c.length b c = (vcBufGrow b 4096).append c := by
  obtain ⟨n, hn⟩ : ∃ n, c.length = n + 1 := ⟨c.length - 1, by have := List.length_pos_iff.mpr hne; omega⟩
  have hempty (fuel : Nat) (b : VcBuf) : readChunk fuel b [] = b := by
    cases fuel <;> simp [readChunk]
  rw [hn, readChunk, if_neg hne]
  dsimp only
  rw [Nat.min_eq_left hfits, List.take_length, List.drop_length, hempty]

theorem processConn_read {s : Session} (hended : s.ended = none) (b : Batch) {bytes : List UInt8}
    (hne : bytes ≠ [])
    (hfits : bytes.length ≤ (vcBufGrow s.rbuf 4096).cap - (vcBufGrow s.rbuf 4096).len) :
    processConn s { b with chunks := bytes :: b.chunks } =
      processConn { s with rbuf := (vcBufGrow s.rbuf 4096).append bytes } b := by
  have hloop : readLoop s.rbuf (bytes :: b.chunks) =
      readLoop ((vcBufGrow s.rbuf 4096).append bytes) b.chunks := by
    rw [readLoop, List.foldl_cons, readChunk_fits hne hfits, readLoop]
  simp only [processConn, hloop, if_neg (not_not.mpr hended)]

/-! ## What a pass comes to -/

/-- The pass has reads in front of it. -/
def LoopPhase.reads : LoopPhase → Bool
  | .resuming readable => readable
  | .readOnly readable => readable
  | .reading => true
  | _ => false

namespace EventLoop

/-- What the pass will make of the session if `sock` answers the resumed flush and `b` holds the
other answers that are still to come. -/
def finish (l : EventLoop) (sock : Socket) (b : Batch) : Session :=
  match l.phase with
  | .idle => l.sess
  | .resuming true => processConn (l.sess.resume sock) b
  | .resuming false => l.sess.resume sock
  | .readOnly true => processConn l.sess b
  | .readOnly false => l.sess
  | .reading => processConn l.sess b
  | .flushing => l.sess.resume b.sock
  | .readWrite => l.sess
  | .parting cause => (l.sess.flush b.sock).1.close cause

/-- The bytes that the pass will still read. -/
def toRead (l : EventLoop) (b : Batch) : List UInt8 := if l.phase.reads then b.bytes else []

/-- `l` comes to whatever `l'` comes to, and has `taken` to read on the way. -/
def Leads (l l' : EventLoop) : Prop :=
  ∃ taken, l.sock.inbox = taken ++ l'.sock.inbox ∧ l'.sock.arrived = l.sock.arrived ∧
    ∀ sock b, ∃ sock' b', l.finish sock' b' = l'.finish sock b ∧
      l.toRead b' = taken ++ l'.toRead b

variable {sock : Sock UInt8} {s : Session} (c : Choice)

theorem Leads.of_eq {l l' : EventLoop} (hinbox : l'.sock.inbox = l.sock.inbox)
    (harrived : l'.sock.arrived = l.sock.arrived)
    (h : ∀ sock b, ∃ sock' b', l.finish sock' b' = l'.finish sock b ∧ l.toRead b' = l'.toRead b) :
    Leads l l' :=
  ⟨[], hinbox.symm, harrived, h⟩

theorem leads_resuming (readable : Bool) :
    Leads ⟨sock, s, .resuming readable⟩ (work ⟨sock, s, .resuming readable⟩ c) := by
  rw [work]
  have hround := flushRound_cases c sock s
  obtain ⟨hinbox, harrived, -, -⟩ := hround.socket
  have hflush := Session.flush_round hround
  generalize flushRound c sock s = out at hround hinbox harrived hflush ⊢
  cases hround with
  | goesOn hpos hwrite =>
    refine .of_eq hinbox harrived fun sk b => ?_
    obtain ⟨sk', hsk⟩ := hflush sk
    refine ⟨sk', b, ?_, rfl⟩
    cases readable <;> simp only [finish, Session.resume, hsk, Session.roundEnds]
  | error hpos =>
    refine .of_eq hinbox harrived fun sk b => ?_
    obtain ⟨sk', hsk⟩ := hflush sk
    refine ⟨sk', { b with chunks := [] }, ?_, ?_⟩
    · have hresume : s.resume sk' = s.close .writeError := by
        simp only [Session.resume, hsk, Session.roundEnds]
      cases readable with
      | false => exact hresume
      | true =>
        simp only [finish, hresume]
        rw [processConn, if_pos (by simp)]
    · cases readable <;> rfl
  | wouldBlock hpos hwrite =>
    refine .of_eq hinbox harrived fun sk b => ?_
    obtain ⟨sk', hsk⟩ := hflush sk
    refine ⟨sk', b, ?_, ?_⟩
    · cases readable <;> simp [finish, Session.resume, hsk, Session.roundEnds]
    · cases readable <;> rfl
  | done hend =>
    refine .of_eq hinbox harrived fun sk b => ?_
    obtain ⟨sk', hsk⟩ := hflush sk
    refine ⟨sk', b, ?_, rfl⟩
    cases readable <;> simp only [finish, Session.resume, hsk, Session.roundEnds]

theorem leads_flushing : Leads ⟨sock, s, .flushing⟩ (work ⟨sock, s, .flushing⟩ c) := by
  rw [work]
  have hround := flushRound_cases c sock s
  obtain ⟨hinbox, harrived, -, -⟩ := hround.socket
  have hflush := Session.flush_round hround
  generalize flushRound c sock s = out at hround hinbox harrived hflush ⊢
  cases hround <;>
  · refine .of_eq hinbox harrived fun sk b => ?_
    obtain ⟨sk', hsk⟩ := hflush b.sock
    refine ⟨sk, { b with sock := sk' }, ?_, rfl⟩
    simp only [finish, Session.resume, hsk, Session.roundEnds]

theorem leads_parting (cause : Cause) :
    Leads ⟨sock, s, .parting cause⟩ (work ⟨sock, s, .parting cause⟩ c) := by
  rw [work]
  have hround := flushRound_cases c sock s
  obtain ⟨hinbox, harrived, -, -⟩ := hround.socket
  have hflush := Session.flush_round hround
  generalize flushRound c sock s = out at hround hinbox harrived hflush ⊢
  cases hround <;>
  · refine .of_eq hinbox harrived fun sk b => ?_
    obtain ⟨sk', hsk⟩ := hflush b.sock
    refine ⟨sk, { b with sock := sk' }, ?_, rfl⟩
    simp only [finish, hsk, Session.roundEnds]

/-- After the last read, `process_conn` goes on with what it has. -/
theorem finish_afterReads (hended : s.ended = none) (sk : Socket) (b : Batch) :
    processConn s { b with chunks := [], readEnd := .wouldBlock, beyond := c.beyond } =
      finish ⟨sock, (afterReads c { s with rbuf := vcBufGrow s.rbuf 4096 }).1,
        (afterReads c { s with rbuf := vcBufGrow s.rbuf 4096 }).2⟩ sk b := by
  rw [processConn, if_neg (not_not.mpr hended)]
  have hloop : readLoop s.rbuf [] = vcBufGrow s.rbuf 4096 := rfl
  simp only [hloop, afterReads]
  generalize parseLoop c.beyond (vcBufGrow s.rbuf 4096).len _ = out
  obtain ⟨s', loopEnd⟩ := out
  cases loopEnd with
  | crash => rfl
  | protocolError => rfl
  | quit => rfl
  | waiting =>
    dsimp only
    split <;> rfl

theorem toRead_afterReads (b : Batch) :
    toRead ⟨sock, (afterReads c s).1, (afterReads c s).2⟩ b = [] := by
  unfold afterReads
  generalize parseLoop c.beyond s.rbuf.len s = out
  obtain ⟨s', loopEnd⟩ := out
  cases loopEnd with
  | waiting =>
    dsimp only
    split <;> rfl
  | _ => rfl

theorem leads_reading (hended : s.ended = none) :
    Leads ⟨sock, s, .reading⟩ (work ⟨sock, s, .reading⟩ c) := by
  have hloop : readLoop s.rbuf [] = vcBufGrow s.rbuf 4096 := rfl
  rw [work, readRound]
  dsimp only
  split_ifs
  · refine .of_eq rfl rfl fun sk b => ⟨sk, { b with chunks := [], readEnd := .failed }, ?_, rfl⟩
    simp only [finish, processConn, if_neg (not_not.mpr hended), hloop]
  · cases hread : sock.read c.cut ((vcBufGrow s.rbuf 4096).cap - (vcBufGrow s.rbuf 4096).len) with
    | mk received sock' =>
      cases received with
      | eof =>
        obtain rfl := Sock.read_eof hread
        refine .of_eq rfl rfl fun sk b => ⟨sk, { b with chunks := [], readEnd := .eof }, ?_, rfl⟩
        simp only [finish, processConn, if_neg (not_not.mpr hended), hloop]
      | again =>
        obtain ⟨rfl, -⟩ := Sock.read_again hread
        refine .of_eq rfl rfl fun sk b =>
          ⟨sk, { b with chunks := [], readEnd := .wouldBlock, beyond := c.beyond }, ?_, ?_⟩
        · exact finish_afterReads c hended sk b
        · rw [toRead_afterReads]
          rfl
      | data bytes =>
        obtain ⟨hinbox, hsock, hfits, hsome⟩ := Sock.read_data hread
        refine ⟨bytes, hinbox, by rw [hsock], fun sk b => ?_⟩
        refine ⟨sk, { b with chunks := bytes :: b.chunks }, ?_, ?_⟩
        · exact processConn_read hended b (hsome (readRoom_pos s.rbuf)) hfits
        · simp [toRead, LoopPhase.reads, Batch.bytes]

theorem leads_work {l : EventLoop} (hl : l.Watches) (hbusy : l.phase ≠ .idle) : Leads l (l.work c) := by
  obtain ⟨sock, s, phase⟩ := l
  cases phase with
  | idle => exact absurd rfl hbusy
  | resuming readable => exact leads_resuming c readable
  | readOnly readable => cases readable <;> exact .of_eq rfl rfl fun sk b => ⟨sk, b, rfl, rfl⟩
  | flushing => exact leads_flushing c
  | readWrite => exact .of_eq rfl rfl fun sk b => ⟨sk, b, rfl, rfl⟩
  | parting cause => exact leads_parting c cause
  | reading =>
    cases hl with
    | gone hidle => cases hidle
    | parting _ hphase => cases hphase
    | live hended => exact leads_reading c hended

end EventLoop

/-! ## The events of a run -/

/-- An event, and what the other connections had made of the server and the cache by then. -/
structure Pass where
  srv : Srv
  host : Host
  event : Event

def Session.handles (s : Session) (p : Pass) : Session :=
  workerEvent { s with srv := p.srv, host := p.host } p.event

/-- What the events read. -/
def bytesRead (ps : List Pass) : List UInt8 :=
  ps.flatMap fun p => if p.event.epollIn then p.event.batch.bytes else []

namespace EventLoop

/-- The session is on the way to where some events put it, of which `got` has been read. -/
def Refines (s₀ : Session) (l : EventLoop) : Prop :=
  ∃ got, got ++ l.sock.inbox = l.sock.arrived ∧
    ∀ sock b, ∃ ps : List Pass, l.finish sock b = ps.foldl Session.handles s₀ ∧
      bytesRead ps = got ++ l.toRead b

variable {s₀ : Session} {l : EventLoop}

theorem Refines.leads {l' : EventLoop} (h : Refines s₀ l) (hl : Leads l l') : Refines s₀ l' := by
  obtain ⟨got, hgot, hfinish⟩ := h
  obtain ⟨taken, hinbox, harrived, hstep⟩ := hl
  refine ⟨got ++ taken, ?_, fun sock b => ?_⟩
  · rw [harrived, ← hgot, hinbox, List.append_assoc]
  · obtain ⟨sock', b', hsame, hread⟩ := hstep sock b
    obtain ⟨ps, hps, hbytes⟩ := hfinish sock' b'
    exact ⟨ps, hsame ▸ hps, by rw [hbytes, hread, List.append_assoc]⟩

theorem Refines.peer (h : Refines s₀ l) (a : PeerAct UInt8) :
    Refines s₀ { l with sock := l.sock.peer a } := by
  obtain ⟨got, hgot, hfinish⟩ := h
  obtain ⟨items, hinbox, harrived⟩ := l.sock.peer_inbox a
  refine ⟨got, ?_, hfinish⟩
  rw [hinbox, harrived, ← hgot, List.append_assoc]

/-- The event that a wait reports, with the answers that are still to come. -/
def reported (e : Edges) (sock : Socket) (b : Batch) : Event where
  epollIn := e.readable && !e.hangUp
  epollOut := e.writable
  epollRdHup := e.hangUp
  epollHup := false
  epollErr := false
  accept := .again
  sock := sock
  batch := b

/-- A wait begins the next event. -/
theorem finish_wait (sock : Sock UInt8) {s : Session} (c : Choice) (hended : s.ended = none)
    (hshaken : s.Shaken) (sk : Socket) (b : Batch) :
    (work ⟨sock, s, .idle⟩ c).finish sk b =
      s.handles ⟨c.srv, c.host, reported (sock.wait c.extra).1 sk b⟩ ∧
    (work ⟨sock, s, .idle⟩ c).toRead b =
      if (reported (sock.wait c.extra).1 sk b).epollIn then b.bytes else [] := by
  rw [work, if_neg (not_not.mpr hended), wake_of_shaken c hshaken]
  generalize (sock.wait c.extra).2 = sock'
  obtain ⟨readable, writable, hangUp⟩ := (sock.wait c.extra).1
  cases hangUp with
  | true =>
    refine ⟨?_, by simp [toRead, LoopPhase.reads, reported]⟩
    simp [finish, Session.handles, workerEvent, hended, reported, Event.hangsUp]
  | false =>
    have hevent := workerEvent_eq (s := { s with srv := c.srv, host := c.host })
      (reported ⟨readable, writable, false⟩ sk b) hshaken hended rfl
    rw [Session.handles, hevent]
    cases writable <;> cases readable <;> exact ⟨rfl, rfl⟩

theorem Refines.work (h : Refines s₀ l) (hl : l.Watches) (c : Choice) :
    Refines s₀ (l.work c) := by
  by_cases hidle : l.phase = .idle
  · obtain ⟨sock, s, phase⟩ := l
    obtain rfl : phase = .idle := hidle
    by_cases hended : s.ended = none
    · obtain ⟨got, hgot, hfinish⟩ := h
      have hshaken : s.Shaken := hl.shaken rfl hended
      have hsock : (EventLoop.work ⟨sock, s, .idle⟩ c).sock = (sock.wait c.extra).2 := by
        rw [EventLoop.work, if_neg (not_not.mpr hended), wake_sock c hshaken]
      refine ⟨got, by rw [hsock]; exact hgot, fun sk b => ?_⟩
      obtain ⟨ps, hps, hbytes⟩ := hfinish sk b
      obtain ⟨hnext, hread⟩ := finish_wait sock c hended hshaken sk b
      refine ⟨ps ++ [⟨c.srv, c.host, reported (sock.wait c.extra).1 sk b⟩], ?_, ?_⟩
      · rw [List.foldl_append, ← hps, hnext]
        rfl
      · rw [bytesRead, List.flatMap_append, ← bytesRead, hbytes, hread]
        simp [toRead, LoopPhase.reads, reported]
    · rw [EventLoop.work, if_pos hended]
      exact h
  · exact h.leads (leads_work c hl hidle)

theorem refines_accepted {s : Session} (early : List UInt8) (room : Nat) :
    Refines s (accepted s early room) :=
  ⟨[], rfl, fun _ _ => ⟨[], rfl, rfl⟩⟩

end EventLoop

/-- Whatever the peer does between the system calls of the worker, on a connection without TLS,
whenever the worker is idle it has handled events one after the other, as if each had been handled in
one step; and what those events have read is what has left the socket. -/
theorem loop_refines_events {s : Session} (hnew : s.IsNew) (hout : s.wbuf.pending = [])
    (hplain : s.conn.state ≠ .tlsHand) (early : List UInt8) (room : Nat) (acts : List LoopAct)
    (l : EventLoop) (hrun : Machine.run loopStep (.accepted s early room) acts = l)
    (hidle : l.phase = .idle) :
    ∃ ps : List Pass, l.sess = ps.foldl Session.handles s ∧
      bytesRead ps ++ l.sock.inbox = l.sock.arrived := by
  have hinv : l.Watches ∧ EventLoop.Refines s l := by
    rw [← hrun]
    refine Machine.run_inv (P := fun _ _ => True) (I := fun l => l.Watches ∧ EventLoop.Refines s l)
      (fun l a h _ => ?_)
      ⟨EventLoop.watches_accepted hnew hout hplain early room, EventLoop.refines_accepted early room⟩
      (Machine.along_of_forall fun _ _ _ => trivial)
    obtain ⟨hl, hrefines⟩ := h
    cases a with
    | peer a => exact ⟨hl.peer a, hrefines.peer a⟩
    | work c => exact ⟨hl.work c, hrefines.work hl c⟩
  obtain ⟨-, got, hgot, hfinish⟩ := hinv
  obtain ⟨ps, hps, hbytes⟩ := hfinish .full (.plain [])
  have hdone : l.finish .full (.plain []) = l.sess := by rw [EventLoop.finish, hidle]
  have hnone : l.toRead (.plain []) = [] := by rw [EventLoop.toRead, hidle]; rfl
  exact ⟨ps, hdone ▸ hps, by rw [hbytes, hnone, List.append_nil, hgot]⟩

/-- The `PING` that came in two parts was read by the events. -/
theorem ping_refines :
    let s := Session.start openServer (quietHost (newCache none 8)) 7 (str "::1") 50000
    let l := Machine.run loopStep (.accepted s (str "PI") 4) pingInParts
    ∃ ps : List Pass, l.sess = ps.foldl Session.handles s ∧ bytesRead ps = str "PING\r\n" := by
  intro s l
  have hinbox : l.sock.inbox = [] := by decide +kernel
  have harrived : l.sock.arrived = str "PING\r\n" := by decide +kernel
  obtain ⟨ps, hsess, hbytes⟩ := loop_refines_events (Session.start_isNew ..) rfl (by decide) (str "PI") 4
    pingInParts l rfl (by decide +kernel)
  exact ⟨ps, hsess, by rw [← harrived, ← hbytes, hinbox, List.append_nil]⟩

end VoidCache
