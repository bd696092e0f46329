import VoidCache.Net.Behaviour
import VoidCache.Net.Buffer
import VoidCache.Net.Parse

/-!
# Serving a connection

`processConn` is `process_conn`: read what the socket has until it would block, dispatch every
complete command of the input buffer, and flush the output buffer. The commands that a
connection gets dispatched depend on the bytes it received, not on the reads that brought them
(`chunking_independence`).
-/
namespace VoidCache

/-! ## Arguments in memory -/

/-- The `argl[i]` bytes at `argv[i]`. A word that `strndup` cut is read past its end. -/
def Arg.bytes (beyond : Nat → UInt8) (a : Arg) : List UInt8 :=
  if a.len ≤ a.str.length then a.str.take a.len
  else a.str ++ 0 :: (List.range (a.len - a.str.length - 1)).map beyond

def VcCmd.args (cmd : VcCmd) (beyond : Nat → Nat → UInt8) : List (List UInt8) :=
  cmd.argv.mapIdx fun i a => a.bytes (beyond i)

/-- What lies past the end of an argument is not part of it as a string. -/
theorem cstr_bytes (beyond beyond' : Nat → UInt8) (a : Arg) :
    cstr (a.bytes beyond) = cstr (a.bytes beyond') := by
  unfold Arg.bytes
  split
  · rfl
  · simp [cstr, List.takeWhile_append]

/-! ## The connection and its buffers -/

/-- Why a connection has ended. A crash ends all of them. -/
inductive Cause where
  | eof | readError | protocolError | quit | writeError | crash
  deriving DecidableEq, Repr

/-- A connection, with the commands dispatched for it so far, and the server and the cache as
it finds them. -/
structure Session where
  srv : Srv
  host : Host
  conn : Conn
  rbuf : VcBuf
  wbuf : VcBuf
  sent : List UInt8
  log : List VcCmd
  ended : Option Cause

/-- How the reads of a batch end. -/
inductive ReadEnd where
  | wouldBlock | eof | failed
  deriving DecidableEq, Repr

/-- What one call of `process_conn` finds: the bytes that its reads return, the socket it
writes to, and what lies past the end of the arguments of each command. -/
structure Batch where
  chunks : List (List UInt8)
  readEnd : ReadEnd
  sock : Socket
  beyond : Nat → Nat → Nat → UInt8

/-! ## Reading -/

/-- Reads that return the bytes `c` and no more, each as much as the buffer has room for. Every
read returns something, so as many reads as there are bytes are enough. -/
def readChunk : Nat → VcBuf → List UInt8 → VcBuf
  | 0, b, _ => b
  | fuel + 1, b, c =>
    if c = [] then b
    else
      let b := vcBufGrow b 4096
      let n := min c.length (b.cap - b.len)
      readChunk fuel (b.append (c.take n)) (c.drop n)

/-- The read loop, up to the read that returns no bytes. -/
def readLoop (b : VcBuf) (chunks : List (List UInt8)) : VcBuf :=
  vcBufGrow (chunks.foldl (fun b c => readChunk c.length b c) b) 4096

theorem contents_readChunk {fuel : Nat} {b : VcBuf} {c : List UInt8} (hfuel : c.length ≤ fuel) :
    (readChunk fuel b c).contents = b.contents ++ c := by
  induction fuel generalizing b c with
  | zero => simp [readChunk, List.eq_nil_of_length_eq_zero (Nat.le_zero.mp hfuel)]
  | succ fuel ih =>
    unfold readChunk
    split
    · simp [*]
    · rename_i hc
      have hroom := grownCap_room b 4096
      have hpos : 0 < c.length := List.length_pos_iff.mpr hc
      have hn : 0 < min c.length ((vcBufGrow b 4096).cap - (vcBufGrow b 4096).len) := by
        show 0 < min c.length (grownCap b 4096 - b.len)
        omega
      rw [ih (by rw [List.length_drop]; omega), contents_append, contents_vcBufGrow,
        List.append_assoc, List.take_append_drop]

theorem contents_readLoop (b : VcBuf) (chunks : List (List UInt8)) :
    (readLoop b chunks).contents = b.contents ++ chunks.flatten := by
  rw [readLoop, contents_vcBufGrow]
  induction chunks generalizing b with
  | nil => simp
  | cons c cs ih => simp [ih, contents_readChunk]

/-! ## Dispatching -/

/-- How the loop over the commands of the input buffer ends. -/
inductive LoopEnd where
  | waiting | protocolError | quit | crash
  deriving DecidableEq, Repr

def protocolError : List UInt8 := respWriteError (str "ERR") (str "protocol error")

def Session.dispatched (s : Session) (cmd : VcCmd) (beyond : Nat → Nat → Nat → UInt8) :
    Host × Option Dispatched :=
  (vcDispatch s.srv s.conn (cmd.args (beyond s.log.length))).run hostExec s.host

/-- The session after a dispatch that came back. -/
def Session.after (s : Session) (cmd : VcCmd) (used : Nat) (host : Host) (d : Dispatched) : Session :=
  { s with
    srv := d.srv
    host := host
    conn := d.answer.conn
    rbuf := vcBufConsume s.rbuf used
    wbuf := s.wbuf.append d.answer.reply
    log := s.log ++ [cmd] }

/-- Parse and dispatch all complete commands; each of them uses up some input. -/
def parseLoop (beyond : Nat → Nat → Nat → UInt8) : Nat → Session → Session × LoopEnd
  | 0, s => (s, .waiting)
  | fuel + 1, s =>
    if s.rbuf.contents = [] then (s, .waiting)
    else
      match respParseCommand s.rbuf.contents with
      | .more => (s, .waiting)
      | .err => ({ s with wbuf := s.wbuf.append protocolError }, .protocolError)
      | .ok cmd used =>
        match s.dispatched cmd beyond with
        | (host, none) => ({ s with host := host, log := s.log ++ [cmd] }, .crash)
        | (host, some d) =>
          let s := s.after cmd used host d
          if s.conn.state = .closing then (s, .quit) else parseLoop beyond fuel s

def Session.flush (s : Session) (sock : Socket) : Session × FlushResult :=
  let out := connFlush sock s.wbuf
  ({ s with wbuf := out.1, sent := s.sent ++ out.2.2 }, out.2.1)

/-- `conn_close`, with the reason for it. -/
def Session.close (s : Session) (cause : Cause) : Session :=
  { s with conn := { s.conn with state := .free, fd := -1 }, ended := some cause }

/-- `process_conn`. A connection that has ended gets no more events. -/
def processConn (s : Session) (b : Batch) : Session :=
  if s.ended ≠ none then s
  else
    let s := { s with rbuf := readLoop s.rbuf b.chunks }
    match b.readEnd with
    | .eof => s.close .eof
    | .failed => s.close .readError
    | .wouldBlock =>
      match parseLoop b.beyond s.rbuf.len s with
      | (s, .crash) => { s with ended := some .crash }
      | (s, .protocolError) => (s.flush b.sock).1.close .protocolError
      | (s, .quit) => (s.flush b.sock).1.close .quit
      | (s, .waiting) =>
        if s.wbuf.len = 0 then s
        else
          match s.flush b.sock with
          | (s, .error) => s.close .writeError
          | (s, _) => s

/-- One call after the other. -/
def serve (s : Session) (bs : List Batch) : Session := bs.foldl processConn s

/-- A connection as `conn_alloc` and `accept` leave it. -/
def Session.start (srv : Srv) (host : Host) (fd : Int) (peerAddr : List UInt8) (peerPort : Nat) :
    Session where
  srv := srv
  host := host
  conn := ⟨fd, .connected, false, none, 0, peerAddr, peerPort⟩
  rbuf := vcBufNew vcRbufInit vcRbufInit_pos
  wbuf := vcBufNew vcWbufInit vcWbufInit_pos
  sent := []
  log := []
  ended := none

/-! ## What dispatching does to the connection -/

/-- The command is `QUIT`, whatever lies past the end of its name. -/
def VcCmd.isQuit (cmd : VcCmd) : Bool :=
  (lookupCmd (cmd.args fun _ _ => 0)).any fun e => e.name == "QUIT"

theorem lookupCmd_args (cmd : VcCmd) (beyond beyond' : Nat → Nat → UInt8) :
    lookupCmd (cmd.args beyond) = lookupCmd (cmd.args beyond') := by
  have hname (w : String) : isWord (arg (cmd.args beyond) 0) w = isWord (arg (cmd.args beyond') 0) w := by
    cases h : cmd.argv with
    | nil => simp [VcCmd.args, h]
    | cons a as => simp [VcCmd.args, h, arg, isWord, strcaseeq, cstr_bytes (beyond 0) (beyond' 0)]
  simp only [lookupCmd, hname]

theorem quit_needs_nothing : ∀ e ∈ cmdTable, e.name = "QUIT" → e.aclNeeded = 0 := by
  decide

/-- A dispatch that comes back leaves the connection closing if the command was `QUIT`, and in
its state otherwise. -/
theorem vcDispatch_state {srv : Srv} {conn : Conn} {argv : List (List UInt8)} {h : Host}
    {d : Dispatched} (hd : ((vcDispatch srv conn argv).run hostExec h).2 = some d) :
    d.answer.conn.state =
      if (lookupCmd argv).any fun e => e.name == "QUIT" then .closing else conn.state := by
  have hafter := Calls.result_meets (vcDispatch_meets srv conn argv) hostExec h d hd
  cases hx : executed srv conn argv with
  | none =>
    rw [hx] at hafter
    rw [hafter.2, if_neg]
    intro hquit
    obtain ⟨e, he, hname⟩ : ∃ e, lookupCmd argv = some e ∧ (e.name == "QUIT") = true := by
      simpa [Option.any_eq_true] using hquit
    have hne : argv ≠ [] := by
      rintro rfl
      have hnone : lookupCmd [] = none := by decide
      rw [hnone] at he
      cases he
    have hacl := quit_needs_nothing e (List.mem_of_find?_eq_some he) (eq_of_beq hname)
    rw [executed_eq_some.mpr ⟨hne, he, .inl hacl⟩] at hx
    cases hx
  | some e =>
    rw [hx] at hafter
    rw [hafter.2.state, (executed_eq_some.mp hx).2.1]
    simp

theorem Session.dispatched_state {s : Session} {cmd : VcCmd} {beyond : Nat → Nat → Nat → UInt8}
    {host : Host} {d : Dispatched} (h : s.dispatched cmd beyond = (host, some d)) :
    d.answer.conn.state = if cmd.isQuit then .closing else s.conn.state := by
  have hd : ((vcDispatch s.srv s.conn (cmd.args (beyond s.log.length))).run hostExec s.host).2 = some d :=
    congrArg Prod.snd h
  rw [vcDispatch_state hd, lookupCmd_args cmd _ fun _ _ => 0]
  rfl

/-! ## The commands of a stream -/

/-- The commands that a byte stream holds up to the first protocol error or `QUIT`, and how
they end. -/
def commandsOf (stream : List UInt8) : List VcCmd × Ending UInt8 :=
  drain respParseCommand VcCmd.isQuit stream

/-- A session stands where reading `cmds` with the ending `e` puts it, or it has been cut short. -/
inductive Tracks (s : Session) (cmds : List VcCmd) : Ending UInt8 → Prop where
  | waiting (hended : s.ended = none) (hstate : s.conn.state ≠ .closing) (hlog : s.log = cmds) :
      Tracks s cmds (.waiting s.rbuf.contents)
  | failed (hended : s.ended = some .protocolError) (hlog : s.log = cmds) : Tracks s cmds .failed
  | stopped (hended : s.ended = some .quit) (hlog : s.log = cmds) : Tracks s cmds .stopped
  | cut (e : Ending UInt8) (hended : s.ended = some .writeError ∨ s.ended = some .crash)
      (hlog : s.log <+: cmds) : Tracks s cmds e

/-- The same for the loop over the commands, before the session is flushed and closed. -/
inductive LoopTracks (s : Session) (cmds : List VcCmd) : LoopEnd → Ending UInt8 → Prop where
  | waiting (hended : s.ended = none) (hstate : s.conn.state ≠ .closing) (hlog : s.log = cmds) :
      LoopTracks s cmds .waiting (.waiting s.rbuf.contents)
  | failed (hlog : s.log = cmds) : LoopTracks s cmds .protocolError .failed
  | stopped (hlog : s.log = cmds) : LoopTracks s cmds .quit .stopped
  | crash (e : Ending UInt8) (hlog : s.log <+: cmds) : LoopTracks s cmds .crash e

theorem parseLoop_tracks (beyond : Nat → Nat → Nat → UInt8) (fuel : Nat) {s : Session}
    (hended : s.ended = none) (hstate : s.conn.state ≠ .closing) :
    LoopTracks (parseLoop beyond fuel s).1
      (s.log ++ (drainFor respParseCommand VcCmd.isQuit fuel s.rbuf.contents).1)
      (parseLoop beyond fuel s).2 (drainFor respParseCommand VcCmd.isQuit fuel s.rbuf.contents).2 := by
  induction fuel generalizing s with
  | zero => exact .waiting hended hstate (by simp [parseLoop, drainFor])
  | succ fuel ih =>
    unfold parseLoop drainFor
    by_cases hempty : s.rbuf.contents = []
    · rw [if_pos hempty, if_pos hempty, ← hempty]
      exact .waiting hended hstate (by simp)
    rw [if_neg hempty, if_neg hempty]
    cases hp : respParseCommand s.rbuf.contents with
    | more => exact .waiting hended hstate (by simp)
    | err => exact .failed (by simp)
    | ok cmd used =>
      dsimp only
      cases hd : s.dispatched cmd beyond with
      | mk host o =>
        cases o with
        | none =>
          refine .crash _ ?_
          dsimp only
          split_ifs <;> simp
        | some d =>
          have hclosing : (s.after cmd used host d).conn.state = _ := Session.dispatched_state hd
          by_cases hquit : cmd.isQuit = true
          · simp only [hquit, if_true] at hclosing ⊢
            rw [if_pos hclosing]
            exact .stopped rfl
          · simp only [hquit] at hclosing ⊢
            have hopen : (s.after cmd used host d).conn.state ≠ .closing := by rwa [hclosing]
            have hnext := ih (s := s.after cmd used host d) hended hopen
            rw [show (s.after cmd used host d).rbuf = vcBufConsume s.rbuf used from rfl,
              contents_vcBufConsume, show (s.after cmd used host d).log = s.log ++ [cmd] from rfl,
              List.append_assoc, List.singleton_append] at hnext
            rw [if_neg hopen]
            exact hnext

/-- All the bytes of a batch. -/
def Batch.bytes (b : Batch) : List UInt8 := b.chunks.flatten

/-- A call of `process_conn` does what one more chunk of the stream does. -/
theorem processConn_tracks {s : Session} {cmds : List VcCmd} {e : Ending UInt8} {b : Batch}
    (hb : b.readEnd = .wouldBlock) (h : Tracks s cmds e) :
    Tracks (processConn s b) (feed respParseCommand VcCmd.isQuit (cmds, e) b.bytes).1
      (feed respParseCommand VcCmd.isQuit (cmds, e) b.bytes).2 := by
  cases h with
  | failed hended hlog =>
    rw [processConn, if_pos (by simp [hended])]
    exact .failed hended hlog
  | stopped hended hlog =>
    rw [processConn, if_pos (by simp [hended])]
    exact .stopped hended hlog
  | cut e hended hlog =>
    rw [processConn, if_pos (by rcases hended with h | h <;> simp [h])]
    refine .cut _ hended (hlog.trans ?_)
    unfold feed
    split
    · exact List.prefix_append ..
    · exact List.prefix_rfl
  | waiting hended hstate hlog =>
    subst hlog
    have hloop := parseLoop_tracks b.beyond (readLoop s.rbuf b.chunks).len
      (s := { s with rbuf := readLoop s.rbuf b.chunks }) hended hstate
    rw [processConn, if_neg (by simp [hended]), hb]
    dsimp only at hloop ⊢
    rw [drainFor_of_le used_pos (by simp), contents_readLoop] at hloop
    show Tracks _ (s.log ++ (drain respParseCommand VcCmd.isQuit (s.rbuf.contents ++ b.bytes)).1)
      (drain respParseCommand VcCmd.isQuit (s.rbuf.contents ++ b.bytes)).2
    rw [Batch.bytes]
    generalize drain respParseCommand VcCmd.isQuit (s.rbuf.contents ++ b.chunks.flatten) = out at hloop ⊢
    generalize parseLoop b.beyond (readLoop s.rbuf b.chunks).len _ = res at hloop ⊢
    obtain ⟨s1, loopEnd⟩ := res
    obtain ⟨cmds, e⟩ := out
    cases hloop with
    | waiting hended1 hstate1 hlog1 =>
      dsimp only
      split
      · exact .waiting hended1 hstate1 hlog1
      · rw [Session.flush]
        cases (connFlush b.sock s1.wbuf).2.1 with
        | error => exact .cut _ (.inl rfl) (hlog1 ▸ List.prefix_rfl)
        | done => exact .waiting hended1 hstate1 hlog1
        | wouldBlock => exact .waiting hended1 hstate1 hlog1
    | failed hlog1 => exact .failed rfl hlog1
    | stopped hlog1 => exact .stopped rfl hlog1
    | crash e hlog1 => exact .cut _ (.inr rfl) hlog1

theorem serve_tracks {bs : List Batch} {s : Session} {cmds : List VcCmd} {e : Ending UInt8}
    (hbs : ∀ b ∈ bs, b.readEnd = .wouldBlock) (h : Tracks s cmds e) :
    Tracks (serve s bs) ((bs.map Batch.bytes).foldl (feed respParseCommand VcCmd.isQuit) (cmds, e)).1
      ((bs.map Batch.bytes).foldl (feed respParseCommand VcCmd.isQuit) (cmds, e)).2 := by
  induction bs generalizing s cmds e with
  | nil => exact h
  | cons b bs ih =>
    obtain ⟨hb, hbs⟩ := List.forall_mem_cons.mp hbs
    exact ih hbs (processConn_tracks hb h)

/-- The bytes of all batches, in order. -/
def streamOf (bs : List Batch) : List UInt8 := (bs.map Batch.bytes).flatten

/-- An open connection from which nothing has been read yet. -/
structure Session.IsNew (s : Session) : Prop where
  ended : s.ended = none
  state : s.conn.state ≠ .closing
  rbuf : s.rbuf.contents = []
  log : s.log = []

theorem Session.start_isNew (srv : Srv) (host : Host) (fd : Int) (peer : List UInt8) (port : Nat) :
    (Session.start srv host fd peer port).IsNew :=
  ⟨rfl, by simp [Session.start], rfl, rfl⟩

/-- A new connection gets the commands of its stream dispatched, however the stream was cut. -/
theorem serve_new_tracks {s : Session} (hs : s.IsNew) {bs : List Batch}
    (hbs : ∀ b ∈ bs, b.readEnd = .wouldBlock) :
    Tracks (serve s bs) (commandsOf (streamOf bs)).1 (commandsOf (streamOf bs)).2 := by
  have hall : feedAll respParseCommand VcCmd.isQuit (bs.map Batch.bytes) = commandsOf (streamOf bs) :=
    feedAll_eq_drain used_pos respParseCommand_incremental _
  have h := serve_tracks hbs (.waiting hs.ended hs.state hs.log)
  rwa [hs.rbuf, ← feedAll, hall] at h

/-- The connection was cut short by a failed write, or the server crashed. -/
def Session.CutShort (s : Session) : Prop := s.ended = some .writeError ∨ s.ended = some .crash

theorem Tracks.log_prefix {s : Session} {cmds : List VcCmd} {e : Ending UInt8} (h : Tracks s cmds e) :
    s.log <+: cmds := by
  cases h with
  | waiting hended hstate hlog => exact hlog ▸ List.prefix_rfl
  | failed hended hlog => exact hlog ▸ List.prefix_rfl
  | stopped hended hlog => exact hlog ▸ List.prefix_rfl
  | cut e hended hlog => exact hlog

/-- How a connection ends whose stream ends like this. -/
def Ending.cause : Ending UInt8 → Option Cause
  | .waiting _ => none
  | .failed => some .protocolError
  | .stopped => some .quit

theorem Tracks.eq_of_not_cut {s : Session} {cmds : List VcCmd} {e : Ending UInt8}
    (h : Tracks s cmds e) (hcut : ¬ s.CutShort) : s.log = cmds ∧ s.ended = e.cause := by
  cases h with
  | waiting hended hstate hlog => exact ⟨hlog, hended⟩
  | failed hended hlog => exact ⟨hlog, hended⟩
  | stopped hended hlog => exact ⟨hlog, hended⟩
  | cut e hended hlog => exact absurd hended hcut

/-- Two connections that receive the same stream get the same commands dispatched and end the
same way, wherever the stream was cut; one that is cut short gets a first part of them. What
the parser has decided it never takes back. -/
theorem chunking_independence {s₁ s₂ : Session} {bs₁ bs₂ : List Batch} (hs₁ : s₁.IsNew)
    (hs₂ : s₂.IsNew) (hbs₁ : ∀ b ∈ bs₁, b.readEnd = .wouldBlock)
    (hbs₂ : ∀ b ∈ bs₂, b.readEnd = .wouldBlock) (hstream : streamOf bs₁ = streamOf bs₂) :
    (¬ (serve s₁ bs₁).CutShort → ¬ (serve s₂ bs₂).CutShort →
        (serve s₁ bs₁).log = (serve s₂ bs₂).log ∧ (serve s₁ bs₁).ended = (serve s₂ bs₂).ended) ∧
      ((serve s₁ bs₁).log <+: (serve s₂ bs₂).log ∨ (serve s₂ bs₂).log <+: (serve s₁ bs₁).log) ∧
      (∀ p cmd used, respParseCommand p = .ok cmd used → 1 ≤ used ∧ used ≤ p.length ∧
        ∀ more, respParseCommand (p ++ more) = .ok cmd used) ∧
      ∀ p, respParseCommand p = .err → ∀ more, respParseCommand (p ++ more) = .err := by
  have h₁ := serve_new_tracks hs₁ hbs₁
  have h₂ := serve_new_tracks hs₂ hbs₂
  rw [← hstream] at h₂
  have hinc := respParseCommand_incremental
  refine ⟨fun hcut₁ hcut₂ => ?_, ?_, ?_, ?_⟩
  · obtain ⟨hlog₁, hend₁⟩ := h₁.eq_of_not_cut hcut₁
    obtain ⟨hlog₂, hend₂⟩ := h₂.eq_of_not_cut hcut₂
    exact ⟨hlog₁.trans hlog₂.symm, hend₁.trans hend₂.symm⟩
  · exact List.prefix_or_prefix_of_prefix h₁.log_prefix h₂.log_prefix
  · exact fun p cmd used h => ⟨used_pos h, hinc.used_le h, hinc.ok_append h⟩
  · exact fun p h => hinc.err_append h

/-- A batch with one chunk, and a socket that takes everything. -/
def Batch.plain (bytes : List UInt8) : Batch where
  chunks := [bytes]
  readEnd := .wouldBlock
  sock := fun _ n => .wrote (Fin.last n)
  beyond := fun _ _ _ => 0

theorem not_cutShort_of_quit {s : Session} (h : s.ended = some .quit) : ¬ s.CutShort := by
  rintro (h' | h') <;> simp [h] at h'

/-- A stream cut between a CR and its LF. -/
theorem ping_quit_cut :
    let start := Session.start openServer (quietHost (newCache none 8)) 7 (str "::1") 50000
    let s₁ := serve start [.plain (str "PING\r\nQUIT\r\n")]
    let s₂ := serve start [.plain (str "PING\r"), .plain (str "\nQUIT\r\n")]
    s₁.log = s₂.log ∧ s₁.ended = s₂.ended ∧ s₂.ended = some .quit := by
  intro start s₁ s₂
  have hended₁ : s₁.ended = some .quit := by decide +kernel
  have hended₂ : s₂.ended = some .quit := by decide +kernel
  have hnew : start.IsNew := Session.start_isNew ..
  have hsame := (chunking_independence hnew hnew (by simp [Batch.plain]) (by simp [Batch.plain])
    (by decide)).1 (not_cutShort_of_quit hended₁) (not_cutShort_of_quit hended₂)
  exact ⟨hsame.1, hsame.2, hended₂⟩

end VoidCache
