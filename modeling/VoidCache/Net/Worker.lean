import VoidCache.Net.Server

/-!
# Events and the end of a connection

`workerEvent` is what `worker_thread` does about one event of epoll on a connection. A hang-up
closes the connection before anything is read, and `process_conn` closes it at the end of file
before it dispatches what it has just read. So the commands that a client has sent when it
closes its side are dispatched if they were read by an earlier event (`commands_before_close`).
-/
namespace VoidCache

/-! ## The worker -/

/-- What `SSL_accept` says about the handshake. -/
inductive Handshake where
  | complete | again | failed
  deriving DecidableEq, Repr

/-- An event of epoll on a connection: its mask, and what the worker finds when it acts on it. -/
structure Event where
  epollIn : Bool
  epollOut : Bool
  epollRdHup : Bool
  epollHup : Bool
  epollErr : Bool
  accept : Handshake
  sock : Socket
  batch : Batch

def Event.hangsUp (ev : Event) : Bool := ev.epollRdHup || ev.epollHup || ev.epollErr

def tlsDoHandshake (s : Session) : Handshake → Session
  | .complete =>
    { s with conn := { s.conn with state := if s.srv.auth.requireAuth then .connected else .authed } }
  | .again => s
  | .failed => s.close .readError

/-- Resume a pending write. -/
def Session.resume (s : Session) (sock : Socket) : Session :=
  match s.flush sock with
  | (s, .error) => s.close .writeError
  | (s, _) => s

/-- `worker_thread` for an event on a connection. One that has ended is left alone. -/
def workerEvent (s : Session) (ev : Event) : Session :=
  if s.ended ≠ none then s
  else if ev.hangsUp then s.close .eof
  else if s.conn.state = .tlsHand then tlsDoHandshake s ev.accept
  else
    let s := if ev.epollOut then s.resume ev.sock else s
    if ev.epollIn then processConn s ev.batch else s

/-- One event after the other. -/
def work (s : Session) (evs : List Event) : Session := evs.foldl workerEvent s

/-! ## The client's side -/

/-- The event closes the connection, if nothing else does. -/
def Event.closes (ev : Event) : Bool :=
  ev.hangsUp || ev.epollIn && ev.batch.readEnd != .wouldBlock

/-- The events of a connection whose client sends `stream` and closes its side: the reads return
the bytes in order, the end of file comes after the last one, and a hang-up or a failed read may
leave any of them unread. -/
def Delivers (stream : List UInt8) : List Event → Prop
  | [] => True
  | ev :: evs =>
    if ev.hangsUp then True
    else if ev.epollIn then
      ∃ rest, stream = ev.batch.bytes ++ rest ∧
        match ev.batch.readEnd with
        | .wouldBlock => Delivers rest evs
        | .eof => rest = []
        | .failed => True
    else Delivers stream evs

/-- What the events before the closing one read. -/
def readsBefore : List Event → List (List UInt8)
  | [] => []
  | ev :: evs =>
    if ev.closes then []
    else if ev.epollIn then ev.batch.bytes :: readsBefore evs
    else readsBefore evs

theorem Delivers.readsBefore_prefix {stream : List UInt8} {evs : List Event} (h : Delivers stream evs) :
    (readsBefore evs).flatten <+: stream := by
  induction evs generalizing stream with
  | nil => exact List.nil_prefix
  | cons ev evs ih =>
    unfold readsBefore
    by_cases hc : ev.closes = true
    · rw [if_pos hc]
      exact List.nil_prefix
    rw [if_neg hc]
    simp only [Event.closes, Bool.or_eq_true, Bool.and_eq_true, bne_iff_ne, not_or, not_and,
      not_not] at hc
    rw [Delivers, if_neg hc.1] at h
    by_cases hin : ev.epollIn = true
    · rw [if_pos hin] at h ⊢
      obtain ⟨rest, rfl, hrest⟩ := h
      rw [hc.2 hin] at hrest
      exact List.prefix_append_right_inj _ |>.mpr (ih hrest)
    · rw [if_neg hin] at h ⊢
      exact ih h

/-- More of a stream holds the same commands first. -/
theorem commandsOf_prefix {p w : List UInt8} (h : p <+: w) : (commandsOf p).1 <+: (commandsOf w).1 := by
  obtain ⟨x, rfl⟩ := h
  have happend : feed respParseCommand VcCmd.isQuit (drain respParseCommand VcCmd.isQuit p) x =
      drain respParseCommand VcCmd.isQuit (p ++ x) := drain_append used_pos respParseCommand_incremental p x
  rw [commandsOf, commandsOf, ← happend]
  unfold feed
  split
  · exact List.prefix_append ..
  · exact List.prefix_rfl

/-! ## What an event does -/

section Step

variable {s : Session} {cmds : List VcCmd} {e : Ending UInt8}

/-- The handshake is over and stays so. -/
def Session.Shaken (s : Session) : Prop := s.conn.state ≠ .tlsHand

theorem Session.close_shaken (s : Session) (cause : Cause) : (s.close cause).Shaken := by
  simp [Session.Shaken, Session.close]

theorem Session.flush_shaken (h : s.Shaken) (sock : Socket) : (s.flush sock).1.Shaken := h

theorem parseLoop_keeps (beyond : Nat → Nat → Nat → UInt8) (fuel : Nat) (h : s.Shaken) :
    (parseLoop beyond fuel s).1.Shaken ∧ (parseLoop beyond fuel s).1.ended = s.ended := by
  induction fuel generalizing s with
  | zero => exact ⟨h, rfl⟩
  | succ fuel ih =>
    unfold parseLoop
    split
    · exact ⟨h, rfl⟩
    cases respParseCommand s.rbuf.contents with
    | more => exact ⟨h, rfl⟩
    | err => exact ⟨h, rfl⟩
    | ok cmd used =>
      dsimp only
      cases hd : s.dispatched cmd beyond with
      | mk host o =>
        cases o with
        | none => exact ⟨h, rfl⟩
        | some d =>
          have hnext : (s.after cmd used host d).Shaken := by
            have hstate : (s.after cmd used host d).conn.state = _ := Session.dispatched_state hd
            rw [Session.Shaken, hstate]
            split
            · simp
            · exact h
          dsimp only
          split
          · exact ⟨hnext, rfl⟩
          · exact ih hnext

/-- A socket whose writes do not fail. -/
def Socket.Takes (sock : Socket) : Prop :=
  ∀ i n, 0 < n → (∃ k, sock i n = .wrote k ∧ 0 < k.val) ∨ sock i n = .wouldBlock

theorem flushLoop_takes {sock : Socket} (h : sock.Takes) (fuel i : Nat) (b : VcBuf) (sent : List UInt8) :
    (flushLoop sock fuel i b sent).2.1 ≠ .error := by
  induction fuel generalizing i b sent with
  | zero => simp [flushLoop]
  | succ fuel ih =>
    unfold flushLoop
    split
    · rename_i hlt
      rcases h i (b.len - b.rpos) (by omega) with ⟨k, hk, hpos⟩ | hblock
      · rw [hk]
        dsimp only
        rw [if_neg (by omega)]
        exact ih _ _ _
      · rw [hblock]
        simp
    · simp

theorem Session.flush_takes (s : Session) (sock : Socket) (h : sock.Takes) : (s.flush sock).2 ≠ .error :=
  flushLoop_takes h _ _ _ _

theorem processConn_keeps (b : Batch) (h : s.Shaken) :
    (processConn s b).Shaken ∧ (b.sock.Takes → s.ended ≠ some .writeError →
      (processConn s b).ended ≠ some .writeError) := by
  unfold processConn
  by_cases hended : s.ended = none
  · rw [if_neg (by simp [hended])]
    have hloop := parseLoop_keeps b.beyond (readLoop s.rbuf b.chunks).len
      (s := { s with rbuf := readLoop s.rbuf b.chunks }) h
    cases b.readEnd with
    | eof => exact ⟨Session.close_shaken _ _, by simp [Session.close]⟩
    | failed => exact ⟨Session.close_shaken _ _, by simp [Session.close]⟩
    | wouldBlock =>
      dsimp only at hloop ⊢
      generalize parseLoop b.beyond (readLoop s.rbuf b.chunks).len _ = res at hloop ⊢
      obtain ⟨s1, loopEnd⟩ := res
      obtain ⟨hshaken, hsame⟩ := hloop
      cases loopEnd with
      | crash => exact ⟨hshaken, by simp⟩
      | protocolError => exact ⟨Session.close_shaken _ _, by simp [Session.close]⟩
      | quit => exact ⟨Session.close_shaken _ _, by simp [Session.close]⟩
      | waiting =>
        dsimp only
        split
        · exact ⟨hshaken, fun _ hw => by rwa [hsame]⟩
        · have htakes := s1.flush_takes b.sock
          have hflush : (s1.flush b.sock).1.ended = s1.ended := rfl
          have hshaken' := Session.flush_shaken hshaken b.sock
          generalize s1.flush b.sock = out at htakes hflush hshaken'
          obtain ⟨s2, r⟩ := out
          cases r with
          | error => exact ⟨Session.close_shaken _ _, fun hsock => absurd rfl (htakes hsock)⟩
          | done => exact ⟨hshaken', fun _ hw => by rwa [hflush, hsame]⟩
          | wouldBlock => exact ⟨hshaken', fun _ hw => by rwa [hflush, hsame]⟩
  · rw [if_pos hended]
    exact ⟨h, fun _ hw => hw⟩

theorem Session.resume_keeps (h : s.Shaken) (sock : Socket) :
    (s.resume sock).Shaken ∧ (sock.Takes → s.ended ≠ some .writeError →
      (s.resume sock).ended ≠ some .writeError) := by
  have htakes := s.flush_takes sock
  have hflush : (s.flush sock).1.ended = s.ended := rfl
  have hshaken := Session.flush_shaken h sock
  unfold Session.resume
  generalize s.flush sock = out at htakes hflush hshaken
  obtain ⟨s1, r⟩ := out
  cases r with
  | error => exact ⟨Session.close_shaken _ _, fun hsock => absurd rfl (htakes hsock)⟩
  | done => exact ⟨hshaken, fun _ hw => by rwa [hflush]⟩
  | wouldBlock => exact ⟨hshaken, fun _ hw => by rwa [hflush]⟩

/-- No write that the event leads to fails. -/
def Event.WritesOk (ev : Event) : Prop := ev.sock.Takes ∧ ev.batch.sock.Takes

/-- The session as the read part of the event finds it. -/
def Session.written (s : Session) (ev : Event) : Session :=
  if ev.epollOut then s.resume ev.sock else s

theorem workerEvent_eq (ev : Event) (h : s.Shaken) (hended : s.ended = none)
    (hup : ev.hangsUp = false) :
    workerEvent s ev = if ev.epollIn then processConn (s.written ev) ev.batch else s.written ev := by
  rw [workerEvent, if_neg (by simp [hended]), if_neg (by simp [hup]), if_neg h]
  rfl

theorem Session.written_keeps (ev : Event) (h : s.Shaken) :
    (s.written ev).Shaken ∧ (ev.WritesOk → s.ended ≠ some .writeError →
      (s.written ev).ended ≠ some .writeError) := by
  unfold Session.written
  split
  · obtain ⟨hshaken, hw⟩ := Session.resume_keeps h ev.sock
    exact ⟨hshaken, fun hok => hw hok.1⟩
  · exact ⟨h, fun _ hw => hw⟩

theorem workerEvent_keeps (ev : Event) (h : s.Shaken) :
    (workerEvent s ev).Shaken ∧ (ev.WritesOk → s.ended ≠ some .writeError →
      (workerEvent s ev).ended ≠ some .writeError) := by
  by_cases hended : s.ended = none
  · cases hup : ev.hangsUp with
    | true =>
      rw [workerEvent, if_neg (by simp [hended]), if_pos hup]
      exact ⟨Session.close_shaken _ _, by simp [Session.close]⟩
    | false =>
      obtain ⟨hshaken, hw⟩ := Session.written_keeps ev h
      rw [workerEvent_eq ev h hended hup]
      split
      · obtain ⟨hshaken', hw'⟩ := processConn_keeps ev.batch hshaken
        exact ⟨hshaken', fun hok hs => hw' hok.2 (hw hok hs)⟩
      · exact ⟨hshaken, hw⟩
  · rw [workerEvent, if_pos hended]
    exact ⟨h, fun _ hw => hw⟩

/-- The connection has ended and all of `cmds` was dispatched for it, unless it was cut short. -/
structure Halted (s : Session) (cmds : List VcCmd) : Prop where
  ended : s.ended ≠ none
  log_prefix : s.log <+: cmds
  log : ¬ s.CutShort → s.log = cmds

theorem Tracks.halted (h : Tracks s cmds e) (hended : s.ended ≠ none) : Halted s cmds :=
  ⟨hended, h.log_prefix, fun hcut => (h.eq_of_not_cut hcut).1⟩

/-- Closing an open connection drops what it has received and not yet dispatched. -/
theorem Tracks.close (h : Tracks s cmds e) (hended : s.ended = none) {s' : Session}
    (hlog : s'.log = s.log) (cause : Cause) : Halted (s'.close cause) cmds := by
  have hcut : ¬ s.CutShort := by simp [Session.CutShort, hended]
  have hall : (s'.close cause).log = cmds := hlog.trans (h.eq_of_not_cut hcut).1
  exact ⟨by simp [Session.close], hall ▸ List.prefix_rfl, fun _ => hall⟩

theorem Tracks.resume (h : Tracks s cmds e) (hended : s.ended = none) (sock : Socket) :
    Tracks (s.resume sock) cmds e := by
  cases h with
  | failed h' | stopped h' => simp [h'] at hended
  | cut e h' => rcases h' with h' | h' <;> simp [h'] at hended
  | waiting hended hstate hlog =>
    rw [Session.resume, Session.flush]
    cases (connFlush sock s.wbuf).2.1 with
    | error => exact .cut _ (.inl rfl) (hlog ▸ List.prefix_rfl)
    | done => exact .waiting hended hstate hlog
    | wouldBlock => exact .waiting hended hstate hlog

theorem Tracks.written (h : Tracks s cmds e) (hended : s.ended = none) (ev : Event) :
    Tracks (s.written ev) cmds e := by
  unfold Session.written
  split
  · exact h.resume hended ev.sock
  · exact h

/-- An event that does not close the connection feeds it what was read. -/
theorem workerEvent_tracks {ev : Event} (hopen : ev.closes = false) (hs : s.Shaken)
    (h : Tracks s cmds e) :
    let out := if ev.epollIn then feed respParseCommand VcCmd.isQuit (cmds, e) ev.batch.bytes else (cmds, e)
    Tracks (workerEvent s ev) out.1 out.2 := by
  simp only [Event.closes, Bool.or_eq_false_iff, Bool.and_eq_false_iff, bne_eq_false_iff_eq] at hopen
  have hreads (hin : ev.epollIn = true) : ev.batch.readEnd = .wouldBlock :=
    hopen.2.resolve_left (by simp [hin])
  by_cases hended : s.ended = none
  · rw [workerEvent_eq ev hs hended hopen.1]
    have hw := h.written hended ev
    cases hin : ev.epollIn with
    | true => exact processConn_tracks (hreads hin) hw
    | false => exact hw
  · have hsame : workerEvent s ev = s := by rw [workerEvent, if_pos hended]
    have hproc : processConn s ev.batch = s := by rw [processConn, if_pos hended]
    rw [hsame]
    cases hin : ev.epollIn with
    | true =>
      have hfeed := processConn_tracks (hreads hin) h
      rwa [hproc] at hfeed
    | false => exact h

/-- A closing event leaves it at what was dispatched before. -/
theorem workerEvent_closes {ev : Event} (hc : ev.closes = true) (hs : s.Shaken)
    (h : Tracks s cmds e) : Halted (workerEvent s ev) cmds := by
  by_cases hended : s.ended = none
  · cases hup : ev.hangsUp with
    | true =>
      rw [workerEvent, if_neg (by simp [hended]), if_pos hup]
      exact h.close hended rfl .eof
    | false =>
      simp only [Event.closes, hup, Bool.false_or, Bool.and_eq_true, bne_iff_ne] at hc
      have hw := h.written hended ev
      rw [workerEvent_eq ev hs hended hup, if_pos hc.1]
      by_cases hended' : (s.written ev).ended = none
      · rw [processConn, if_neg (by simp [hended'])]
        cases hread : ev.batch.readEnd with
        | wouldBlock => exact absurd hread hc.2
        | eof => exact hw.close hended' (by rfl) .eof
        | failed => exact hw.close hended' (by rfl) .readError
      · rw [processConn, if_pos hended']
        exact hw.halted hended'
  · rw [workerEvent, if_pos hended]
    exact h.halted hended

end Step

/-! ## Whole connections -/

theorem work_of_ended {s : Session} (h : s.ended ≠ none) (evs : List Event) : work s evs = s := by
  induction evs with
  | nil => rfl
  | cons ev evs ih =>
    rw [work, List.foldl_cons, workerEvent, if_pos h]
    exact ih

theorem work_tracks {s : Session} {cmds : List VcCmd} {e : Ending UInt8} (evs : List Event)
    (hs : s.Shaken) (h : Tracks s cmds e) :
    let out := (readsBefore evs).foldl (feed respParseCommand VcCmd.isQuit) (cmds, e)
    (work s evs).log <+: out.1 ∧ (¬ (work s evs).CutShort → (work s evs).log = out.1) := by
  induction evs generalizing s cmds e with
  | nil => exact ⟨h.log_prefix, fun hcut => (h.eq_of_not_cut hcut).1⟩
  | cons ev evs ih =>
    rw [work, List.foldl_cons, ← work, readsBefore]
    cases hc : ev.closes with
    | true =>
      have hhalt := workerEvent_closes hc hs h
      rw [work_of_ended hhalt.ended]
      exact ⟨hhalt.log_prefix, hhalt.log⟩
    | false =>
      have hnext := ih (workerEvent_keeps ev hs).1 (workerEvent_tracks hc hs h)
      cases hin : ev.epollIn with
      | true => simpa [hin] using hnext
      | false => simpa [hin] using hnext

theorem work_writes {s : Session} {evs : List Event} (hs : s.Shaken) (h : s.ended ≠ some .writeError)
    (hok : ∀ ev ∈ evs, ev.WritesOk) : (work s evs).ended ≠ some .writeError := by
  induction evs generalizing s with
  | nil => exact h
  | cons ev evs ih =>
    obtain ⟨hev, hevs⟩ := List.forall_mem_cons.mp hok
    obtain ⟨hshaken, hw⟩ := workerEvent_keeps ev hs
    exact ih hshaken (hw hev h) hevs

/-- `conn_close` has been called for the connection. -/
def Session.Closed (s : Session) : Prop := ∃ cause, s.ended = some cause ∧ cause ≠ .crash

/-- A client sends a stream and closes its side. Of the commands in the stream, each is
dispatched at most once and in order. When the connection is closed, all of them have been
dispatched only if all of them were read before the closing event, and if no write failed, this
is enough. -/
theorem commands_before_close {s : Session} (hnew : s.IsNew) (hs : s.conn.state ≠ .tlsHand)
    {stream : List UInt8} {evs : List Event} (hd : Delivers stream evs) :
    (work s evs).log <+: (commandsOf stream).1 ∧
      ((work s evs).Closed →
        ((work s evs).log = (commandsOf stream).1 →
          (commandsOf (readsBefore evs).flatten).1 = (commandsOf stream).1) ∧
        ((commandsOf (readsBefore evs).flatten).1 = (commandsOf stream).1 →
          (∀ ev ∈ evs, ev.WritesOk) → (work s evs).log = (commandsOf stream).1)) := by
  have hread : (readsBefore evs).foldl (feed respParseCommand VcCmd.isQuit) ([], .waiting []) =
      commandsOf (readsBefore evs).flatten :=
    feedAll_eq_drain used_pos respParseCommand_incremental _
  have htracks : Tracks s [] (.waiting []) := hnew.rbuf ▸ .waiting hnew.ended hnew.state hnew.log
  obtain ⟨hstart, hlog⟩ := work_tracks evs hs htracks
  have hmore := commandsOf_prefix hd.readsBefore_prefix
  rw [hread] at hstart hlog
  refine ⟨hstart.trans hmore, ?_⟩
  rintro ⟨cause, hended, hcrash⟩
  constructor
  · intro hall
    rw [hall] at hstart
    exact hmore.eq_of_length_le hstart.length_le
  · intro hall hok
    have hwrite : (work s evs).ended ≠ some .writeError :=
      work_writes hs (by simp [hnew.ended]) hok
    rw [hlog, hall]
    rintro (hcut | hcut)
    · exact hwrite hcut
    · exact hcrash (Option.some.inj (hended.symm.trans hcut))

/-- A readable connection, and a socket that takes everything. -/
def Event.data (bytes : List UInt8) (readEnd : ReadEnd) : Event where
  epollIn := true
  epollOut := false
  epollRdHup := false
  epollHup := false
  epollErr := false
  accept := .again
  sock := fun _ n => .wrote (Fin.last n)
  batch := { Batch.plain bytes with readEnd := readEnd }

/-- The client has closed its side; the connection may be readable too. -/
def Event.hangUp : Event := { Event.data [] .eof with epollRdHup := true }

theorem Event.data_writesOk (bytes : List UInt8) (readEnd : ReadEnd) : (Event.data bytes readEnd).WritesOk :=
  ⟨fun _ n hn => .inl ⟨Fin.last n, rfl, hn⟩, fun _ n hn => .inl ⟨Fin.last n, rfl, hn⟩⟩

/-- A command that was read before the client hung up. -/
theorem ping_before_hangUp :
    let s := Session.start openServer (quietHost (newCache none 8)) 7 (str "::1") 50000
    (work s [.data (str "PING\r\n") .wouldBlock, .hangUp]).log = (commandsOf (str "PING\r\n")).1 := by
  intro s
  have hd : Delivers (str "PING\r\n") [.data (str "PING\r\n") .wouldBlock, .hangUp] :=
    ⟨[], rfl, trivial⟩
  have hclosed : (work s [.data (str "PING\r\n") .wouldBlock, .hangUp]).Closed :=
    ⟨.eof, by decide +kernel, by decide⟩
  have h := (commands_before_close (Session.start_isNew ..) (by decide) hd).2 hclosed
  refine h.2 rfl ?_
  simp only [List.forall_mem_cons]
  exact ⟨Event.data_writesOk .., Event.data_writesOk [] .eof, by simp⟩

/-- A client that sends `SET` and closes. The end of file comes with the command, or the hang-up
before it is read. -/
theorem set_lost_at_close :
    let s := Session.start openServer (quietHost (newCache none 8)) 7 (str "::1") 50000
    let stream := str "SET k v\r\n"
    ∀ evs ∈ [[Event.data stream .eof], [Event.hangUp]], Delivers stream evs ∧ (work s evs).Closed ∧
      (work s evs).log = [] ∧ (commandsOf stream).1.length = 1 := by
  intro s stream
  have hone : (commandsOf stream).1.length = 1 := by decide +kernel
  simp only [List.forall_mem_cons]
  refine ⟨⟨?_, ⟨.eof, ?_, by decide⟩, ?_, hone⟩, ⟨trivial, ⟨.eof, rfl, by decide⟩, rfl, hone⟩, by simp⟩
  · exact ⟨[], by simp [Event.data, Batch.plain, Batch.bytes], rfl⟩
  · rfl
  · rfl

end VoidCache
