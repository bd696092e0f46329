import VoidCache.Lib.Inevitable
import VoidCache.Net.EventLoop

/-!
# The worker comes to rest

Once the peer of a connection without TLS is quiet, the worker gets through everything that is
there: whatever lengths the system gives its transfers, after finitely many system calls the connection has been closed, or the
worker sleeps and epoll has nothing to report. By then every command that has arrived was
dispatched, and its reply was written unless the send buffer is full.

One pass of the worker goes through its phases in a fixed order, and stays in a phase only as long
as bytes are moved. Two passes are enough. The first one after the peer fell silent empties the
socket, but arming the connection again may report what has been read by then. The second pass
finds nothing new.
-/
namespace VoidCache

def workStep (l : EventLoop) (c : Choice) : EventLoop × Unit := (l.work c, ())

namespace EventLoop

/-- The connection is closed, or asleep with nothing to report. -/
def Settled (l : EventLoop) : Prop :=
  l.phase = .idle ∧ (l.sess.ended ≠ none ∨ l.sock.edges = .none)

/-! ## One pass ends -/

/-- The order of the phases in one pass. -/
def rank : LoopPhase → Nat
  | .resuming _ => 5
  | .readOnly _ => 4
  | .reading => 3
  | .flushing => 2
  | .parting _ => 2
  | .readWrite => 1
  | .idle => 0

/-- The bytes that the phase has still to move. -/
def bytesLeft (l : EventLoop) : Nat :=
  match l.phase with
  | .reading => l.sock.inbox.length
  | _ => l.sess.wbuf.len - l.sess.wbuf.rpos

def Closer (l' l : EventLoop) : Prop :=
  rank l'.phase < rank l.phase ∨ l'.phase = l.phase ∧ l'.bytesLeft < l.bytesLeft

theorem closer_wellFounded : WellFounded Closer := by
  refine Subrelation.wf (r := InvImage (Prod.Lex (· < ·) (· < ·)) fun l => (rank l.phase, l.bytesLeft))
    ?_ (InvImage.wf _ (Prod.lex Nat.lt_wfRel Nat.lt_wfRel).wf)
  rintro l' l (h | ⟨hphase, h⟩)
  · exact .left _ _ h
  · show Prod.Lex _ _ (rank l'.phase, _) (rank l.phase, _)
    rw [hphase]
    exact .right _ h

variable {l : EventLoop} {sock : Sock UInt8} {s : Session} (c : Choice)

theorem sends_left {k : Nat} (hpos : 0 < k) (hle : k ≤ s.wbuf.len - s.wbuf.rpos) :
    (s.sends k).wbuf.len - (s.sends k).wbuf.rpos < s.wbuf.len - s.wbuf.rpos := by
  have hk : k % (s.wbuf.len - s.wbuf.rpos + 1) = k := Nat.mod_eq_of_lt (by omega)
  have hrpos : (s.sends k).wbuf.rpos = s.wbuf.rpos + k := by
    simp [Session.sends, VcBuf.advance, hk]
  have hlen : (s.sends k).wbuf.len = s.wbuf.len := rfl
  omega

theorem afterReads_rank : rank (afterReads c s).2 < rank .reading := by
  unfold afterReads
  generalize parseLoop c.beyond s.rbuf.len s = out
  obtain ⟨s', loopEnd⟩ := out
  cases loopEnd <;> dsimp only
  case waiting => split <;> decide
  all_goals decide

theorem readRound_closer : Closer (readRound c sock s) ⟨sock, s, .reading⟩ := by
  rw [readRound]
  dsimp only
  split_ifs
  · exact .inl (by simp [rank])
  · cases hread : sock.read c.cut ((vcBufGrow s.rbuf 4096).cap - (vcBufGrow s.rbuf 4096).len) with
    | mk received sock' =>
      cases received with
      | eof => exact .inl (by simp [rank])
      | again => exact .inl (afterReads_rank c)
      | data bytes =>
        obtain ⟨hinbox, -, -, hsome⟩ := Sock.read_data hread
        refine .inr ⟨rfl, ?_⟩
        have := List.length_pos_iff.mpr (hsome (readRoom_pos s.rbuf))
        simp only [bytesLeft, hinbox, List.length_append]
        omega

theorem work_closer (hbusy : l.phase ≠ .idle) : Closer (l.work c) l := by
  obtain ⟨sock, s, phase⟩ := l
  cases phase with
  | idle => exact absurd rfl hbusy
  | readOnly readable => cases readable <;> exact .inl (by simp [work, rank])
  | reading => exact readRound_closer c
  | readWrite => exact .inl (by simp [work, rank])
  | resuming readable =>
    rw [work]
    have hround := flushRound_cases c sock s
    generalize flushRound c sock s = out at hround ⊢
    cases hround with
    | goesOn hpos hwrite =>
      obtain ⟨hk, hle, -⟩ := Sock.write_wrote hwrite (by omega)
      exact .inr ⟨rfl, sends_left hk hle⟩
    | error hpos => exact .inl (by simp [rank])
    | wouldBlock hpos hwrite => cases readable <;> exact .inl (by simp [rank])
    | done hend => exact .inl (by simp [rank])
  | flushing =>
    rw [work]
    have hround := flushRound_cases c sock s
    generalize flushRound c sock s = out at hround ⊢
    cases hround with
    | goesOn hpos hwrite =>
      obtain ⟨hk, hle, -⟩ := Sock.write_wrote hwrite (by omega)
      exact .inr ⟨rfl, sends_left hk hle⟩
    | error hpos => exact .inl (by simp [rank])
    | wouldBlock hpos hwrite => exact .inl (by simp [rank])
    | done hend => exact .inl (by simp [rank])
  | parting cause =>
    rw [work]
    have hround := flushRound_cases c sock s
    generalize flushRound c sock s = out at hround ⊢
    cases hround with
    | goesOn hpos hwrite =>
      obtain ⟨hk, hle, -⟩ := Sock.write_wrote hwrite (by omega)
      exact .inr ⟨rfl, sends_left hk hle⟩
    | error hpos => exact .inl (by simp [rank])
    | wouldBlock hpos hwrite => exact .inl (by simp [rank])
    | done hend => exact .inl (by simp [rank])

/-- A pass ends, with all that its steps keep. -/
theorem pass_ends {P : EventLoop → Prop}
    (hP : ∀ l : EventLoop, l.Watches → l.phase ≠ .idle → P l → ∀ c, P (l.work c))
    (hl : l.Watches) (h : P l) :
    Inevitable workStep (fun l => (l.Watches ∧ P l) ∧ l.phase = .idle) l :=
  .of_variant closer_wellFounded id
    (fun l hl hbusy c => ⟨⟨hl.1.work c, hP l hl.1 hbusy hl.2 c⟩, work_closer c hbusy⟩) ⟨hl, h⟩

/-! ## What a pass keeps -/

/-- The connection is about to be closed. -/
def Doomed (l : EventLoop) : Prop := l.sess.ended ≠ none ∨ ∃ cause, l.phase = .parting cause

/-- The pass will read, or there is nothing to read. -/
def ReadsAll (l : EventLoop) : Prop :=
  l.sock.inbox = [] ∨ l.phase = .resuming true ∨ l.phase = .readOnly true ∨ l.phase = .reading

/-- There is nothing to read, and nothing to be reported either. -/
structure Quiet (l : EventLoop) : Prop where
  inbox : l.sock.inbox = []
  edges : l.sock.edges = .none
  room : l.phase = .readWrite → l.sock.room = 0

theorem doomed_parting (cause : Cause) : (work ⟨sock, s, .parting cause⟩ c).Doomed := by
  rw [work]
  have hround := flushRound_cases c sock s
  generalize flushRound c sock s = out at hround ⊢
  cases hround with
  | goesOn => exact .inr ⟨cause, rfl⟩
  | error => exact .inl (by simp)
  | wouldBlock => exact .inl (by simp)
  | done => exact .inl (by simp)

/-- How the loop over the commands leaves the connection. -/
theorem afterReads_cases :
    (Doomed ⟨sock, (afterReads c s).1, (afterReads c s).2⟩) ∨
      (afterReads c s).2 = .idle ∨ (afterReads c s).2 = .flushing := by
  unfold afterReads
  generalize parseLoop c.beyond s.rbuf.len s = out
  obtain ⟨s', loopEnd⟩ := out
  cases loopEnd with
  | waiting =>
    dsimp only
    split
    · exact .inr (.inl rfl)
    · exact .inr (.inr rfl)
  | protocolError => exact .inl (.inr ⟨_, rfl⟩)
  | quit => exact .inl (.inr ⟨_, rfl⟩)
  | crash => exact .inl (.inl (by simp))

theorem doomed_work (hl : l.Watches) (hbusy : l.phase ≠ .idle) (h : l.Doomed) :
    (l.work c).Doomed := by
  obtain ⟨sock, s, phase⟩ := l
  cases hl with
  | gone hidle => exact absurd hidle hbusy
  | parting cause hphase =>
    obtain rfl : phase = .parting cause := hphase
    exact doomed_parting c cause
  | live hended =>
    rcases h with h | ⟨cause, hphase⟩
    · exact absurd hended h
    · obtain rfl : phase = .parting cause := hphase
      exact doomed_parting c cause

/-- One round of the reads ends with an empty socket, unless it is followed by another. -/
theorem readRound_readsAll : (readRound c sock s).Doomed ∨ (readRound c sock s).ReadsAll := by
  rw [readRound]
  dsimp only
  split_ifs
  · exact .inl (.inl (by simp))
  · cases hread : sock.read c.cut ((vcBufGrow s.rbuf 4096).cap - (vcBufGrow s.rbuf 4096).len) with
    | mk received sock' =>
      cases received with
      | eof => exact .inl (.inl (by simp))
      | again =>
        obtain ⟨rfl, hinbox⟩ := Sock.read_again hread
        exact .inr (.inl hinbox)
      | data bytes => exact .inr (.inr (.inr (.inr rfl)))

theorem readsAll_work (hbusy : l.phase ≠ .idle) (h : l.ReadsAll) :
    (l.work c).Doomed ∨ (l.work c).ReadsAll := by
  obtain ⟨sock, s, phase⟩ := l
  cases phase with
  | idle => exact absurd rfl hbusy
  | reading => exact readRound_readsAll c
  | readOnly readable =>
    cases readable with
    | true => exact .inr (.inr (.inr (.inr rfl)))
    | false =>
      have hinbox : sock.inbox = [] := by simpa [ReadsAll] using h
      exact .inr (.inl hinbox)
  | readWrite =>
    have hinbox : sock.inbox = [] := by simpa [ReadsAll] using h
    exact .inr (.inl hinbox)
  | parting cause => exact .inl (doomed_parting c cause)
  | resuming readable =>
    rw [work]
    have hround := flushRound_cases c sock s
    obtain ⟨hinbox, -, -, -⟩ := hround.socket
    unfold ReadsAll at *
    generalize flushRound c sock s = out at hround hinbox ⊢
    cases hround with
    | error => exact .inl (.inl (by simp))
    | goesOn => grind
    | wouldBlock => grind
    | done => grind
  | flushing =>
    have hempty : sock.inbox = [] := by simpa [ReadsAll] using h
    rw [work]
    have hround := flushRound_cases c sock s
    obtain ⟨hinbox, -, -, -⟩ := hround.socket
    generalize flushRound c sock s = out at hround hinbox ⊢
    cases hround <;> exact .inr (.inl (hinbox.trans hempty))

theorem rearm_quiet (out : Bool) (hsound : sock.Sound) (hinbox : sock.inbox = [])
    (hedges : sock.edges = .none) (hroom : out = true → sock.room = 0) (phase : LoopPhase)
    (hphase : phase ≠ .readWrite) : Quiet ⟨sock.rearm out, s, phase⟩ := by
  have hfinished : sock.finished = false := by
    cases hf : sock.finished with
    | false => rfl
    | true => simpa [hedges, Edges.none] using hsound.ending hf
  refine ⟨hinbox, ?_, fun h => absurd h hphase⟩
  cases out with
  | false => simp [Sock.rearm, hinbox, hedges, hfinished, Edges.none]
  | true => simp [Sock.rearm, hinbox, hedges, hfinished, hroom rfl, Edges.none]

theorem readRound_quiet (hinbox : sock.inbox = []) (hedges : sock.edges = .none) :
    (readRound c sock s).Doomed ∨ (readRound c sock s).Quiet := by
  rw [readRound]
  dsimp only
  split_ifs
  · exact .inl (.inl (by simp))
  · cases hread : sock.read c.cut ((vcBufGrow s.rbuf 4096).cap - (vcBufGrow s.rbuf 4096).len) with
    | mk received sock' =>
      cases received with
      | eof => exact .inl (.inl (by simp))
      | again =>
        obtain ⟨rfl, -⟩ := Sock.read_again hread
        refine (afterReads_cases c).imp_right fun hphase => ⟨hinbox, hedges, fun h => ?_⟩
        rcases hphase with hphase | hphase <;> cases h.symm.trans hphase
      | data bytes =>
        obtain ⟨hsplit, -, -, hsome⟩ := Sock.read_data hread
        rw [hinbox] at hsplit
        exact absurd (List.append_eq_nil_iff.mp hsplit.symm).1 (hsome (readRoom_pos s.rbuf))

theorem quiet_work (hl : l.Watches) (hbusy : l.phase ≠ .idle) (h : l.Quiet) :
    (l.work c).Doomed ∨ (l.work c).Quiet := by
  obtain ⟨sock, s, phase⟩ := l
  obtain ⟨hinbox, hedges, hroom⟩ := h
  cases hl with
  | gone hidle => exact absurd hidle hbusy
  | parting cause hphase =>
    obtain rfl : phase = .parting cause := hphase
    exact .inl (doomed_parting c cause)
  | live hended hsound hattentive hbuffered =>
    cases phase with
    | idle => exact absurd rfl hbusy
    | readOnly readable =>
      refine .inr (rearm_quiet false hsound hinbox hedges (by simp) _ ?_)
      cases readable <;> simp
    | readWrite => exact .inr (rearm_quiet true hsound hinbox hedges (fun _ => hroom rfl) _ (by simp))
    | parting cause => exact .inl (doomed_parting c cause)
    | reading => exact readRound_quiet c hinbox hedges
    | resuming readable =>
      rw [work]
      have hround := flushRound_cases c sock s
      obtain ⟨hinbox', -, hedges', -⟩ := hround.socket
      rw [hinbox] at hinbox'
      generalize flushRound c sock s = out at hround hinbox' hedges' ⊢
      cases hround with
      | error => exact .inl (.inl (by simp))
      | goesOn => exact .inr ⟨hinbox', hedges'.trans hedges, (by simp)⟩
      | wouldBlock => exact .inr ⟨hinbox', hedges'.trans hedges, by cases readable <;> simp⟩
      | done => exact .inr ⟨hinbox', hedges'.trans hedges, (by simp)⟩
    | flushing =>
      rw [work]
      have hround := flushRound_cases c sock s
      obtain ⟨hinbox', -, hedges', hroom'⟩ := hround.socket
      generalize flushRound c sock s = out at hround hinbox' hedges' hroom' ⊢
      cases hround with
      | error => exact .inl (.inl (by simp))
      | goesOn => exact .inr ⟨hinbox'.trans hinbox, hedges'.trans hedges, (by simp)⟩
      | wouldBlock => exact .inr ⟨hinbox'.trans hinbox, hedges'.trans hedges, fun _ => hroom' rfl⟩
      | done => exact .inr ⟨hinbox'.trans hinbox, hedges'.trans hedges, (by simp)⟩

/-! ## Two passes are enough -/

/-- The wait begins a pass over a connection about which there is something to report. -/
theorem settles_of_idle (hidle : l.phase = .idle)
    (hpass : l.sess.ended = none → l.sock.edges.hangUp = false →
      ∀ c, Inevitable workStep Settled (l.work c)) :
    Inevitable workStep Settled l := by
  obtain ⟨sock, s, phase⟩ := l
  obtain rfl : phase = .idle := hidle
  by_cases hended : s.ended = none
  · cases hup : sock.edges.hangUp with
    | false => exact .next fun c => hpass hended hup c
    | true =>
      refine .next fun c => .now ?_
      rw [workStep, work, if_neg (not_not.mpr hended)]
      simp [wake, Sock.wait, hup, Settled]
  · exact .now ⟨rfl, .inl hended⟩

theorem work_idle (hl : Watches ⟨sock, s, .idle⟩) (hended : s.ended = none)
    (hup : sock.edges.hangUp = false) :
    (work ⟨sock, s, .idle⟩ c).sock = { sock with edges := .none } ∧
      (work ⟨sock, s, .idle⟩ c).phase =
        (if (sock.wait c.extra).1.writable then .resuming (sock.wait c.extra).1.readable
        else if (sock.wait c.extra).1.readable then .reading else .idle) := by
  rw [work, if_neg (not_not.mpr hended), wake_of_shaken c (hl.shaken rfl hended)]
  simp [Sock.wait, hup]

theorem wait_readsAll (hl : Watches ⟨sock, s, .idle⟩) (hended : s.ended = none)
    (hup : sock.edges.hangUp = false) : (work ⟨sock, s, .idle⟩ c).ReadsAll := by
  obtain ⟨hsock, hphase⟩ := work_idle c hl hended hup
  cases hl with
  | gone _ h => exact absurd hended h
  | parting _ h => cases h
  | live _ _ hattentive =>
    have halert : sock.inbox ≠ [] → sock.edges.readable = true := hattentive.1
    unfold ReadsAll
    rw [hsock, hphase]
    by_cases hinbox : sock.inbox = []
    · exact .inl hinbox
    · simp only [Sock.wait, halert hinbox, Bool.true_or]
      split <;> simp

theorem wait_quiet (hl : Watches ⟨sock, s, .idle⟩) (hinbox : sock.inbox = []) (hended : s.ended = none)
    (hup : sock.edges.hangUp = false) : (work ⟨sock, s, .idle⟩ c).Quiet := by
  obtain ⟨hsock, hphase⟩ := work_idle c hl hended hup
  refine ⟨?_, ?_, ?_⟩
  · rw [hsock]
    exact hinbox
  · rw [hsock]
  · rw [hphase]
    split_ifs <;> simp

theorem settled_of_doomed (hidle : l.phase = .idle) (h : l.Doomed) : l.Settled := by
  rcases h with h | ⟨cause, h⟩
  · exact ⟨hidle, .inl h⟩
  · cases hidle.symm.trans h

theorem doomed_or_work {P : EventLoop → Prop}
    (hP : ∀ l : EventLoop, l.Watches → l.phase ≠ .idle → P l → ∀ c, (l.work c).Doomed ∨ P (l.work c))
    (l : EventLoop) (hl : l.Watches) (hbusy : l.phase ≠ .idle) (h : l.Doomed ∨ P l) (c : Choice) :
    (l.work c).Doomed ∨ P (l.work c) :=
  h.elim (fun hd => .inl (doomed_work c hl hbusy hd)) fun hp => hP l hl hbusy hp c

theorem Watches.settles (hl : l.Watches) : Inevitable workStep Settled l := by
  -- the pass that is going on
  refine (pass_ends (P := fun _ => True) (fun _ _ _ _ _ => trivial) hl trivial).trans ?_
  rintro ⟨sock, s, phase⟩ ⟨⟨hl, -⟩, hidle⟩
  obtain rfl : phase = .idle := hidle
  refine settles_of_idle rfl fun hended hup c => ?_
  -- the first pass of its own reads everything
  refine (pass_ends (doomed_or_work fun l _ hbusy h c => readsAll_work c hbusy h) (hl.work c)
    (.inr (wait_readsAll c hl hended hup))).trans ?_
  rintro ⟨sock, s, phase⟩ ⟨⟨hl, hread⟩, hidle⟩
  obtain rfl : phase = .idle := hidle
  rcases hread with hdoomed | hread
  · exact .now (settled_of_doomed rfl hdoomed)
  have hinbox : sock.inbox = [] := by simpa [ReadsAll] using hread
  refine settles_of_idle rfl fun hended hup c => ?_
  -- the second one finds nothing that could be reported again
  refine (pass_ends (doomed_or_work fun l hl hbusy h c => quiet_work c hl hbusy h) (hl.work c)
    (.inr (wait_quiet c hl hinbox hended hup))).trans ?_
  rintro l ⟨⟨hl, hquiet⟩, hidle⟩
  rcases hquiet with hdoomed | hquiet
  · exact .now (settled_of_doomed hidle hdoomed)
  · exact .now ⟨hidle, .inr hquiet.edges⟩

/-- The connection is closed, or there is nothing left that the worker could do for it. -/
def AtRest (l : EventLoop) : Prop :=
  l.phase = .idle ∧ (l.sess.ended = none →
    l.sock.inbox = [] ∧ commandsOf l.sock.arrived = (l.sess.log, .waiting l.sess.rbuf.contents) ∧
      (l.sess.wbuf.pending = [] ∨ l.sock.room = 0))

theorem Watches.atRest (h : l.Watches) (hsettled : l.Settled) : l.AtRest := by
  obtain ⟨hidle, hrest⟩ := hsettled
  refine ⟨hidle, fun hopen => ?_⟩
  have hedges : l.sock.edges = .none := hrest.resolve_left fun hended => hended hopen
  obtain ⟨hinbox, -, hcommands, hpending⟩ := h.at_rest hidle hedges hopen
  refine ⟨hinbox, hcommands, ?_⟩
  by_cases hnone : l.sess.wbuf.pending = []
  · exact .inl hnone
  · exact .inr (hpending hnone).1

theorem run_work (l : EventLoop) (choices : Nat → Choice) (is : List Nat) :
    Machine.run loopStep l (is.map fun i => .work (choices i)) =
      Machine.run workStep l (is.map choices) := by
  induction is generalizing l with
  | nil => rfl
  | cons i is ih => exact ih _

end EventLoop

/-- After any run of the peer and the worker on a connection without TLS, let the peer fall silent.
However the system goes on answering the worker's calls, the worker comes to rest: it has closed the
connection, or all that has arrived was read, its commands were dispatched, and all replies were
written unless the send buffer is full. -/
theorem quiet_peer_settles {s : Session} (hnew : s.IsNew) (hout : s.wbuf.pending = [])
    (hplain : s.conn.state ≠ .tlsHand) (early : List UInt8) (room : Nat) (acts : List LoopAct)
    (choices : Nat → Choice) :
    ∃ n, (Machine.run loopStep (.accepted s early room)
      (acts ++ (List.range n).map fun i => .work (choices i))).AtRest := by
  have hwatches := EventLoop.run_watches (EventLoop.watches_accepted hnew hout hplain early room) acts
  obtain ⟨n, hn⟩ := hwatches.settles.exists_run choices
  refine ⟨n, EventLoop.Watches.atRest ?_ ?_⟩
  · exact EventLoop.run_watches (EventLoop.watches_accepted hnew hout hplain early room) _
  · rw [Machine.run_append, EventLoop.run_work]
    exact hn

/-- A `PING` in two parts, and a peer that then does nothing. -/
theorem ping_settles :
    ∃ n, (Machine.run loopStep (.accepted (Session.start openServer (quietHost (newCache none 8)) 7
      (str "::1") 50000) (str "PI") 4)
      ([.work .plain, .peer (.send (str "NG\r\n"))] ++ (List.range n).map fun _ => .work .plain)).AtRest :=
  quiet_peer_settles (Session.start_isNew ..) rfl (by decide) (str "PI") 4
    [.work .plain, .peer (.send (str "NG\r\n"))] fun _ => .plain

end VoidCache
