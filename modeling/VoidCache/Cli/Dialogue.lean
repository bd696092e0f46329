import VoidCache.Cli.Tokenize
import VoidCache.Cli.Waiting
import VoidCache.Net.KvServer

/-!
# The command line client and the server

`vcli` in pipe mode: after `HELLO 3` it reads a line, sends the command it says, waits for one reply
and prints it, and goes on to the next line. Here the client is put together with the server. The
bytes between them may take any time and may be cut in any way, and the steps of the two may come in
any order; the client always takes the reply to the command that it has just sent.
-/
namespace VoidCache

/-! ## The client, the server and the wires -/

/-- Where the client is: before the reply to `HELLO`, at the next line of input, or in
`print_reply`. -/
inductive CliPhase where
  | greeting | reading | waiting
  deriving DecidableEq

structure Dialogue where
  phase : CliPhase
  lines : List (List UInt8)
  /-- Sent by the client, and not yet read by the server. -/
  up : List UInt8
  sess : Session
  /-- How much of what the server has sent the client has taken. -/
  got : Nat
  /-- What each `print_reply` has taken. -/
  taken : List (List UInt8)

/-- What the server has sent and the client has not taken. -/
def Dialogue.down (d : Dialogue) : List UInt8 := d.sess.sent.drop d.got

def helloCmd : List UInt8 := str "*2\r\n$5\r\nHELLO\r\n$1\r\n3\r\n"

/-- The size of the buffer in `do_command`. -/
def cmdBufSize : Nat := 256 * 1024

/-- `do_command`, up to the reply; `mem` is what the buffer holds before. -/
def Dialogue.doCommand (d : Dialogue) (argv : List (List UInt8)) (mem : Nat → UInt8) : Dialogue :=
  let out := encodeCommand mem cmdBufSize argv
  -- "Command too long"
  if out.2 < 0 then d
  else { d with up := d.up ++ window out.1 0 out.2.toNat, phase := .waiting }

/-- A read that finds nothing waits, and fails when the server has closed the connection: the client
then goes on to its next line. -/
def Dialogue.atEof (d : Dialogue) : Dialogue :=
  if d.sess.ended = none then d else { d with phase := .reading, got := d.sess.sent.length }

/-- The client reads the reply to `HELLO`. -/
def Dialogue.greet (d : Dialogue) : Dialogue :=
  match dropHello d.down with
  | none => d.atEof
  | some rest => { d with phase := .reading, got := d.sess.sent.length - rest.length }

/-- One turn of the loop over the lines, up to the reply. -/
def Dialogue.nextLine (d : Dialogue) (mem : Nat → UInt8) : Dialogue :=
  match d.lines with
  | [] => d
  | line :: lines =>
    let d := { d with lines := lines }
    let toks := tokenize vcMaxArgs line
    if toks = [] then d else d.doCommand toks mem

/-- The client reads a reply. -/
def Dialogue.awaitReply (d : Dialogue) : Dialogue :=
  match printReply d.down with
  | none => d.atEof
  | some rest =>
    { d with
      phase := .reading
      got := d.sess.sent.length - rest.length
      taken := d.taken ++ [d.down.take (d.down.length - rest.length)] }

/-- The client goes on, if there is something for it to go on with. -/
def Dialogue.client (d : Dialogue) (mem : Nat → UInt8) : Dialogue :=
  match d.phase with
  | .greeting => d.greet
  | .reading => d.nextLine mem
  | .waiting => d.awaitReply

/-- The worker handles an event on the connection. -/
def Dialogue.server (d : Dialogue) (ev : Event) : Dialogue :=
  { d with sess := workerEvent d.sess ev, up := d.up.drop ev.bytes.length }

inductive DialogueAct where
  | client (mem : Nat → UInt8)
  | server (ev : Event)

def dialogueStep (d : Dialogue) : DialogueAct → Dialogue × Unit
  | .client mem => (d.client mem, ())
  | .server ev => (d.server ev, ())

/-- The server reads what the client has sent. -/
def Arrives (d : Dialogue) : DialogueAct → Prop
  | .client _ => True
  | .server ev => ev.bytes <+: d.up

/-- The client has connected and sent `HELLO 3`. -/
def Dialogue.start (lines : List (List UInt8)) (s : Session) : Dialogue :=
  ⟨.greeting, lines, helloCmd, s, 0, []⟩

/-! ## The replies as values -/

/-- The values that a reply consists of: two for a counter, otherwise one. -/
def Reply.values3 : Reply → List (List UInt8)
  | counter n => [respWriteVcInt64 n, respWriteInteger n]
  | r => [r.text true]

/-- The values that a map replies to the queries. -/
def valuesTo (m : KvMap) (qs : List Query) : List (List UInt8) :=
  (Machine.trace Query.apply m qs).flatMap fun t => t.2.values3

def Query.IsCounter : Query → Prop
  | incr _ | decr _ => True
  | _ => False

section Values

variable {K : Finset (List UInt8)} {L : Nat} {m : KvMap} {q : Query} {qs : List Query}

theorem Reply.flatten_values3 (r : Reply) : r.values3.flatten = r.text true := by
  cases r <;> simp [values3, text]

theorem valuesTo_cons (m : KvMap) (q : Query) (qs : List Query) :
    valuesTo m (q :: qs) = (q.apply m).2.values3 ++ valuesTo (q.apply m).1 qs := rfl

theorem flatten_valuesTo (m : KvMap) (qs : List Query) : (valuesTo m qs).flatten = answersTo true m qs := by
  induction qs generalizing m with
  | nil => rfl
  | cons q qs ih =>
    rw [valuesTo_cons, List.flatten_append, Reply.flatten_values3, ih]
    rfl

theorem valuesTo_append (m : KvMap) (qs more : List Query) :
    valuesTo m (qs ++ more) = valuesTo m qs ++ valuesTo (Machine.run Query.apply m qs) more := by
  simp [valuesTo, Machine.trace_append]

theorem valuesTo_mono (m : KvMap) (qs more : List Query) : valuesTo m qs <+: valuesTo m (qs ++ more) :=
  ⟨_, (valuesTo_append m qs more).symm⟩

theorem Reply.length_values3_pos (r : Reply) : 1 ≤ r.values3.length := by
  cases r <;> simp [values3]

theorem length_le_valuesTo (m : KvMap) (qs : List Query) : qs.length ≤ (valuesTo m qs).length := by
  induction qs generalizing m with
  | nil => simp
  | cons q qs ih =>
    have hq := (q.apply m).2.length_values3_pos
    have hqs := ih (q.apply m).1
    rw [valuesTo_cons, List.length_append, List.length_cons]
    omega

theorem Query.length_values3 (h : ¬ q.IsCounter) (m : KvMap) : (q.apply m).2.values3.length = 1 := by
  cases q with
  | get key => cases hval : m key <;> simp [Query.apply, hval, Reply.values3]
  | setNx key val => cases hval : m key <;> simp [Query.apply, hval, Reply.values3]
  | setXx key val => cases hval : m key <;> simp [Query.apply, hval, Reply.values3]
  | rename key new => cases hval : m key <;> simp [Query.apply, hval, Reply.values3]
  | incr key => exact absurd trivial h
  | decr key => exact absurd trivial h
  | _ => rfl

/-- One value for each query that is not a counter. -/
theorem length_valuesTo (h : ∀ q ∈ qs, ¬ q.IsCounter) (m : KvMap) : (valuesTo m qs).length = qs.length := by
  induction qs generalizing m with
  | nil => rfl
  | cons q qs ih =>
    obtain ⟨hq, hqs⟩ := List.forall_mem_cons.mp h
    rw [valuesTo_cons, List.length_append, Query.length_values3 hq, ih hqs, List.length_cons, Nat.add_comm]

/-- The lengths and numbers of a reply are as small as the client takes them. -/
def Reply.Small : Reply → Prop
  | value val => val.length < 2 ^ 63
  | number n => n < 2 ^ 63
  | values vals => vals.length < 2 ^ 63 ∧ ∀ val, some val ∈ vals → val.length < 2 ^ 63
  | counter n => -2 ^ 63 ≤ n ∧ n < 2 ^ 63
  | _ => True

theorem Reply.Small.written {r : Reply} (h : r.Small) : ∀ w ∈ r.values3, Written w := by
  cases r with
  | pong => exact List.forall_mem_singleton.mpr (written_respWriteSimple (by decide) (by decide))
  | done => exact List.forall_mem_singleton.mpr (@Written.simple (str "OK") (by decide) (by decide))
  | null => exact List.forall_mem_singleton.mpr (.null true)
  | value val => exact List.forall_mem_singleton.mpr (.bulk h)
  | number n => exact List.forall_mem_singleton.mpr (.integer ⟨by omega, by exact_mod_cast h⟩)
  | values vals =>
    have harray := Written.array (vals.map fun o => o.elim (respWriteNullCompat true) respWriteBulk)
      (by simpa using h.1) (by
        intro w hw
        obtain ⟨o, ho, rfl⟩ := List.mem_map.mp hw
        cases o with
        | none => exact .null true
        | some val => exact .bulk (h.2 val ho))
    simpa [values3, text, List.flatMap_def] using harray
  | counter n =>
    have htyped : Written (respWriteVcInt64 n) := by
      rw [respWriteVcInt64, respWriteVcTyped_eq]
      exact .bulk (by simp [vcWireMagic, int64Bytes, length_leBytes, str]; decide)
    simp only [values3, List.forall_mem_cons]
    exact ⟨htyped, .integer h, by simp⟩
  | noSuchKey => exact List.forall_mem_singleton.mpr (written_respWriteError (by decide) (by decide))

theorem KvMap.bump_small (m : KvMap) (key : List UInt8) (delta : Int) : (m.bump key delta).2.Small :=
  toInt64_bounds _

theorem Query.Fits.small (hq : q.Fits K L) (hm : m.Sized L) (hL : L ≤ valMax) : (q.apply m).2.Small := by
  have hargs := hq.args
  have hval {k v : List UInt8} (hv : m k = some v) : v.length < 2 ^ 63 :=
    Nat.lt_of_le_of_lt ((hm k v hv).2.trans hL) (by decide)
  have hmax : vcMaxArgs < 2 ^ 63 := by decide
  cases q with
  | get key =>
    rw [Query.apply]
    cases hv : m key with
    | none => trivial
    | some v => exact hval hv
  | setNx key val => rw [Query.apply]; split <;> trivial
  | setXx key val => rw [Query.apply]; split <;> trivial
  | del key keys =>
    have hcard : (m.present (key :: keys)).card ≤ (key :: keys).length :=
      (Finset.card_filter_le _ _).trans (List.toFinset_card_le _)
    have hlen : (key :: keys).length + 1 ≤ vcMaxArgs := by simpa [Query.args] using hargs
    show (m.present (key :: keys)).card < 2 ^ 63
    omega
  | count key keys =>
    have hcount : (key :: keys).countP (fun k => (m k).isSome) ≤ (key :: keys).length := List.countP_le_length
    have hlen : (key :: keys).length + 1 ≤ vcMaxArgs := by simpa [Query.args] using hargs
    show (key :: keys).countP (fun k => (m k).isSome) < 2 ^ 63
    omega
  | mget key keys =>
    have hlen : (key :: keys).length + 1 ≤ vcMaxArgs := by simpa [Query.args] using hargs
    refine ⟨by rw [List.length_map]; omega, fun val hval' => ?_⟩
    obtain ⟨k, -, hk⟩ := List.mem_map.mp hval'
    exact hval hk
  | incr key => exact m.bump_small key 1
  | decr key => exact m.bump_small key (-1)
  | rename key new =>
    rw [Query.apply]
    cases m key <;> trivial
  | _ => trivial

theorem valuesTo_written (hqs : ∀ q ∈ qs, q.Fits K L) (hm : m.Sized L) (hL : L ≤ valMax) :
    ∀ w ∈ valuesTo m qs, Written w := by
  induction qs generalizing m with
  | nil => simp [valuesTo, Machine.trace]
  | cons q qs ih =>
    obtain ⟨hq, hqs⟩ := List.forall_mem_cons.mp hqs
    intro w hw
    rcases List.mem_append.mp (valuesTo_cons m q qs ▸ hw) with hw | hw
    · exact (hq.small hm hL).written w hw
    · exact ih hqs (hq.sized hm) w hw

end Values

/-! ## The server's side -/

/-- `HELLO 3` as the parser returns it. -/
def helloVcCmd : VcCmd := (VcCmd.pushAll ⟨[], 0⟩ 0 [str "HELLO", str "3"]).upper

def helloReply (srv : Srv) : List UInt8 := respWriteHello vcServerVersion (cstr srv.nodeId) true

theorem parse_hello (x : List UInt8) :
    respParseCommand (helloCmd ++ x) = .ok helloVcCmd helloCmd.length := by
  have hwire : helloCmd = respArray [str "HELLO", str "3"] := by decide
  rw [hwire]
  exact respParseCommand_respArray (by decide) (by decide) x

theorem dispatched_hello (s : Session) (beyond : Nat → Nat → Nat → UInt8) :
    s.dispatched helloVcCmd beyond =
      (s.host, some ⟨s.srv.counted, { s.conn with resp3 := true }, helloReply s.srv⟩) := by
  have hargs : helloVcCmd.args (beyond s.log.length) = [str "HELLO", str "3"] := by
    rw [helloVcCmd, args_pushAll]
    rfl
  have hlookup : lookupCmd [str "HELLO", str "3"] = some ⟨"HELLO", cmdHello, 0⟩ := by rfl
  rw [Session.dispatched, hargs,
    vcDispatch_of_executed (executed_eq_some.mpr ⟨by simp, hlookup, .inl rfl⟩)]
  rfl

/-- A connection that the client has just made, to a server that has a name. -/
structure Session.Dialled (K : Finset (List UInt8)) (L : Nat) (m : KvMap) (s : Session) : Prop where
  new : s.IsNew
  silent : s.output = []
  shaken : s.Shaken
  roomy : s.host.Roomy K L
  sized : m.Sized L
  reflects : s.host.world.cache.Reflects m
  named : 0 < (cstr s.srv.nodeId).length ∧ (cstr s.srv.nodeId).length < 2 ^ 63

/-- The server between the events on a connection that was `s₀`: of the queries `asked` and the
greeting it has replied the values `heard`, and `up` is still to come in. -/
inductive Serves (K : Finset (List UInt8)) (L : Nat) (m : KvMap) (s₀ : Session) :
    List Query → List (List UInt8) → List UInt8 → Session → Prop where
  | ended {asked : List Query} {heard : List (List UInt8)} {up : List UInt8} {s : Session}
      (hended : s.ended ≠ none) (hheard : heard <+: helloReply s₀.srv :: valuesTo m asked) :
      Serves K L m s₀ asked heard up s
  | greets {up : List UInt8} {s : Session} (hsame : Continues s.rbuf.contents s₀ s)
      (hinput : s.rbuf.contents ++ up = helloCmd) (hshort : s.rbuf.contents.length < helloCmd.length) :
      Serves K L m s₀ [] [] up s
  | answers {done rest : List Query} {up : List UInt8} {s : Session} (hopen : s.ended = none)
      (hasks : Asks K L (Machine.run Query.apply m done) rest s) (hauth : s.srv.auth = s₀.srv.auth)
      (hconn : s.conn = { s₀.conn with resp3 := true })
      (hinput : s.rbuf.contents ++ up = rest.flatMap Query.wire)
      (hshort : ∀ q ∈ rest.head?, s.rbuf.contents.length < q.wire.length) :
      Serves K L m s₀ (done ++ rest) (helloReply s₀.srv :: valuesTo m done) up s

section Serving

variable {K : Finset (List UInt8)} {L : Nat} {m : KvMap} {s₀ s s' : Session} {asked : List Query}
  {heard : List (List UInt8)} {up : List UInt8}

theorem Serves.heard_among (h : Serves K L m s₀ asked heard up s) :
    heard <+: helloReply s₀.srv :: valuesTo m asked := by
  cases h with
  | ended _ hheard => exact hheard
  | greets => exact List.nil_prefix
  | answers => exact List.prefix_cons_inj _ |>.mpr (valuesTo_mono ..)

/-- The server has replied the values `heard'`, and those that were there before have not changed. -/
structure Serves.Next (K : Finset (List UInt8)) (L : Nat) (m : KvMap) (s₀ : Session) (asked : List Query)
    (heard : List (List UInt8)) (up : List UInt8) (s s' : Session) (heard' : List (List UInt8)) : Prop where
  serves : Serves K L m s₀ asked heard' up s'
  more : heard <+: heard'
  output : s'.output = heard'.flatten
  sent : s.sent <+: s'.sent

/-- The loop over the commands on a part of `HELLO`, or on all of it. -/
theorem parseLoop_hello (beyond : Nat → Nat → Nat → UInt8) {fuel : Nat}
    (hopen : s.conn.state ≠ .closing) (hin : s.rbuf.contents <+: helloCmd)
    (hfuel : s.rbuf.contents.length ≤ fuel) :
    parseLoop beyond fuel s = (s, .waiting) ∧ s.rbuf.contents.length < helloCmd.length ∨
      s.rbuf.contents = helloCmd ∧ parseLoop beyond fuel s =
        (s.after helloVcCmd helloCmd.length s.host
          ⟨s.srv.counted, { s.conn with resp3 := true }, helloReply s.srv⟩, .waiting) := by
  by_cases hlen : s.rbuf.contents.length < helloCmd.length
  · left
    refine ⟨?_, hlen⟩
    have hwhole := parse_hello []
    rw [List.append_nil] at hwhole
    cases fuel with
    | zero => rfl
    | succ fuel =>
      rw [parseLoop, respParseCommand_more hwhole hin hlen]
      split <;> rfl
  · right
    have hall : s.rbuf.contents = helloCmd := hin.eq_of_length_le (Nat.le_of_not_lt hlen)
    refine ⟨hall, ?_⟩
    have hwhole := parse_hello []
    rw [List.append_nil] at hwhole
    have hpos : 0 < helloCmd.length := by decide
    obtain ⟨fuel, rfl⟩ : ∃ n, fuel = n + 1 := Nat.exists_eq_succ_of_ne_zero (by omega)
    rw [parseLoop, if_neg (by rw [hall]; decide), hall, hwhole]
    simp only [dispatched_hello]
    generalize hs₁ : s.after helloVcCmd helloCmd.length s.host _ = s₁
    have hstate : s₁.conn.state ≠ .closing := by rw [← hs₁]; exact hopen
    have hempty : s₁.rbuf.contents = [] := by
      rw [← hs₁, Session.after, contents_vcBufConsume, hall, List.drop_length]
    rw [if_neg hstate]
    cases fuel with
    | zero => rfl
    | succ fuel => rw [parseLoop, if_pos hempty]

/-- The server has answered `HELLO`, and nothing else has come in. -/
structure Greeted (s₀ s s' : Session) : Prop where
  auth : s'.srv.auth = s₀.srv.auth
  host : s'.host = s₀.host
  conn : s'.conn = { s₀.conn with resp3 := true }
  ended : s'.ended = s₀.ended
  input : s'.rbuf.contents = []
  output : s'.output = [helloReply s₀.srv].flatten
  sent : s.sent <+: s'.sent

theorem Greeted.after_hello {s₁ : Session} {read bytes : List UInt8} (hsame : Continues read s₀ s)
    (hread : Continues bytes s s₁) (hsilent : s.output = []) (hall : s₁.rbuf.contents = helloCmd) :
    Greeted s₀ s (s₁.after helloVcCmd helloCmd.length s₁.host
      ⟨s₁.srv.counted, { s₁.conn with resp3 := true }, helloReply s₁.srv⟩) where
  auth := by
    have hsrv := hread.srv.trans hsame.srv
    rw [← hsrv]
    rfl
  host := hread.host.trans hsame.host
  conn := by
    have hconn := hread.conn.trans hsame.conn
    rw [← hconn]
    rfl
  ended := hread.ended.trans hsame.ended
  input := by rw [Session.after, contents_vcBufConsume, hall, List.drop_length]
  output := by
    have hsrv := hread.srv.trans hsame.srv
    have hout : s₁.sent ++ s₁.wbuf.pending = [] := hread.output.trans hsilent
    rw [← hsrv]
    simp [Session.output, Session.after, ← List.append_assoc, hout]
  sent := hread.sent

theorem Greeted.continues {s₁ : Session} (h : Greeted s₀ s s₁) (hc : Continues [] s₁ s') :
    Greeted s₀ s s' where
  auth := by rw [hc.srv]; exact h.auth
  host := hc.host.trans h.host
  conn := hc.conn.trans h.conn
  ended := hc.ended.trans h.ended
  input := by rw [hc.input, h.input, List.append_nil]
  output := hc.output.trans h.output
  sent := h.sent.trans hc.sent

theorem Greeted.next (h : Greeted s₀ s s') (h₀ : s₀.Dialled K L m) :
    Serves.Next K L m s₀ [] [] [] s s' [helloReply s₀.srv] := by
  have hasks : Asks K L m [] s' := by
    refine ⟨by simp, by simp, ?_, h₀.sized, h.host ▸ h₀.roomy, h.host ▸ h₀.reflects⟩
    rw [h.conn]
    exact h₀.new.state
  refine ⟨?_, List.nil_prefix, h.output, h.sent⟩
  exact @Serves.answers K L m s₀ [] [] [] s' (h.ended.trans h₀.new.ended) hasks h.auth h.conn
    (by simp [h.input]) (by simp)

theorem Serves.greets_event (h₀ : s₀.Dialled K L m) (hsame : Continues s.rbuf.contents s₀ s)
    (hinput : s.rbuf.contents ++ up = helloCmd) (hshort : s.rbuf.contents.length < helloCmd.length)
    {ev : Event} (hev : ev.bytes <+: up) :
    ∃ heard', Serves.Next K L m s₀ [] [] (up.drop ev.bytes.length) s (workerEvent s ev) heard' := by
  have hended : s.ended = none := hsame.ended.trans h₀.new.ended
  have hshaken : s.Shaken := by rw [Session.Shaken, hsame.conn]; exact h₀.shaken
  have hsilent : s.output = [] := hsame.output.trans h₀.silent
  obtain ⟨left, rfl⟩ := hev
  have houtcome := workerEvent_outcome hended hshaken ev
  generalize workerEvent s ev = s' at houtcome ⊢
  rw [List.drop_left]
  -- `HELLO` is still not complete
  have hwaits {bytes : List UInt8} {s' : Session} (hc : Continues bytes s s')
      (hin : s.rbuf.contents ++ bytes ++ left = helloCmd)
      (hless : (s.rbuf.contents ++ bytes).length < helloCmd.length) :
      Serves.Next K L m s₀ [] [] left s s' [] := by
    rw [← hc.input] at hin hless
    refine ⟨.greets ?_ hin hless, List.prefix_rfl, hc.output.trans hsilent, hc.sent⟩
    rw [hc.input]
    exact hsame.trans hc
  have hcloses {bytes : List UInt8} {s' : Session} {cause : Cause} (hc : Continues bytes s s') :
      Serves.Next K L m s₀ [] [] left s (s'.close cause) [] :=
    ⟨.ended (by simp [Session.close]) List.nil_prefix, List.prefix_rfl, hc.output.trans hsilent, hc.sent⟩
  cases houtcome with
  | closed hread => exact ⟨[], hcloses hread⟩
  | idle hidle hbytes =>
    rw [hbytes, List.nil_append] at hinput
    exact ⟨[], @hwaits [] s' (by simpa using hidle) (by simpa using hinput) (by simpa using hshort)⟩
  | @parsed s₁ s₂ s' loopEnd beyond fuel hread hfuel hloop hflush =>
    have hconn : s₁.conn = s₀.conn := hread.conn.trans hsame.conn
    have hin : s₁.rbuf.contents <+: helloCmd := ⟨left, by rw [hread.input, List.append_assoc, hinput]⟩
    rcases parseLoop_hello beyond (by rw [hconn]; exact h₀.new.state) hin hfuel with
      ⟨hwait, hless⟩ | ⟨hall, hdone⟩
    · obtain ⟨rfl, rfl⟩ := Prod.mk.inj (hloop.symm.trans hwait)
      rw [hread.input] at hless
      rcases hflush rfl with hgoes | ⟨s₃, hgoes, rfl⟩
      · exact ⟨[], hwaits (by simpa using hread.trans hgoes) (by simpa using hinput) hless⟩
      · exact ⟨[], hcloses (hread.trans hgoes)⟩
    · obtain ⟨hs₂, rfl⟩ := Prod.mk.inj (hloop.symm.trans hdone)
      have hgreeted : Greeted s₀ s s₂ := hs₂ ▸ .after_hello hsame hread hsilent hall
      have hleft : left = [] := by
        rw [← List.append_assoc, ← hread.input, hall] at hinput
        simpa using hinput
      rcases hflush rfl with hgoes | ⟨s₃, hgoes, rfl⟩
      · exact ⟨_, hleft ▸ (hgreeted.continues hgoes).next h₀⟩
      · exact ⟨_, .ended (by simp [Session.close]) (by simp), List.nil_prefix,
          (hgreeted.continues hgoes).output, (hgreeted.continues hgoes).sent⟩

theorem Asks.after_did {done rest : List Query} (h : Asks K L m (done ++ rest) s) (hd : Did K L m done s s')
    (hconn : s'.conn = s.conn) : Asks K L (Machine.run Query.apply m done) rest s' where
  fits q hq := h.fits q (List.mem_append_right _ hq)
  may q hq := by
    rw [needAuth_congr hd.auth, hconn]
    exact h.may q (List.mem_append_right _ hq)
  open_ := hconn ▸ h.open_
  sized := sized_run h.sized fun q hq => h.fits q (List.mem_append_left _ hq)
  roomy := hd.roomy
  reflects := hd.reflects

/-- What an event makes of the server. -/
theorem Serves.event (h₀ : s₀.Dialled K L m) (h : Serves K L m s₀ asked heard up s)
    (hout : s.output = heard.flatten) {ev : Event} (hev : ev.bytes <+: up) :
    ∃ heard', Serves.Next K L m s₀ asked heard (up.drop ev.bytes.length) s (workerEvent s ev) heard' := by
  cases h with
  | ended hended hheard =>
    have hstop : workerEvent s ev = s := if_pos hended
    rw [hstop]
    exact ⟨heard, .ended hended hheard, List.prefix_rfl, hout, List.prefix_rfl⟩
  | greets hsame hinput hshort => exact Serves.greets_event h₀ hsame hinput hshort hev
  | @answers done rest _ _ hopen hasks hauth hconn hinput hshort =>
    obtain ⟨left, rfl⟩ := hev
    have hshaken : s.Shaken := by
      rw [Session.Shaken, hconn]
      exact h₀.shaken
    have hin : s.rbuf.contents ++ ev.bytes <+: rest.flatMap Query.wire :=
      ⟨left, by rw [List.append_assoc, hinput]⟩
    obtain ⟨more, rest, rfl, hdid, hstays⟩ := hasks.workerEvent hopen hshaken hshort hin
    generalize workerEvent s ev = s' at hdid hstays ⊢
    have houtput : s'.output = (helloReply s₀.srv :: valuesTo m (done ++ more)).flatten := by
      rw [hdid.output, hout, valuesTo_append, hconn, ← flatten_valuesTo]
      simp
    refine ⟨helloReply s₀.srv :: valuesTo m (done ++ more), ?_, ?_, houtput, hdid.sent⟩
    · rw [List.drop_left, ← List.append_assoc]
      by_cases hend : s'.ended = none
      · obtain ⟨hsame, hinput', hshort'⟩ := hstays hend
        refine .answers hend ?_ (hdid.auth.trans hauth) (hsame.trans hconn) ?_ hshort'
        · rw [Machine.run_append]
          exact hasks.after_did hdid hsame
        · rw [← List.append_assoc, hinput', List.flatMap_append, List.append_assoc] at hinput
          exact List.append_cancel_left hinput
      · refine .ended hend ?_
        exact (List.prefix_cons_inj _).mpr (valuesTo_mono ..)
    · exact (List.prefix_cons_inj _).mpr (valuesTo_mono ..)

/-- The client sends one more query. -/
theorem Serves.ask {q : Query} (h₀ : s₀.Dialled K L m) (h : Serves K L m s₀ asked heard up s)
    (hheard : s.ended = none → heard ≠ [])
    (hq : q.Fits K L) (hmay : needAuth s₀.srv s₀.conn q.entry.aclNeeded = none) :
    Serves K L m s₀ (asked ++ [q]) heard (up ++ q.wire) s := by
  cases h with
  | ended hended hpre =>
    exact .ended hended (hpre.trans ((List.prefix_cons_inj _).mpr (valuesTo_mono ..)))
  | greets hsame => exact absurd rfl (hheard (hsame.ended.trans h₀.new.ended))
  | @answers done rest _ _ hopen hasks hauth hconn hinput hshort =>
    rw [List.append_assoc]
    refine .answers hopen ⟨?_, ?_, hasks.open_, hasks.sized, hasks.roomy, hasks.reflects⟩ hauth hconn ?_ ?_
    · simpa [or_imp, forall_and, hq] using hasks.fits
    · have hnow : needAuth s.srv s.conn q.entry.aclNeeded = none := by
        rw [needAuth_congr hauth, hconn]
        exact hmay
      simpa [or_imp, forall_and, hnow] using hasks.may
    · simp [← List.append_assoc, hinput]
    · cases rest with
      | nil =>
        have hempty : s.rbuf.contents = [] := (List.append_eq_nil_iff.mp hinput).1
        simpa [hempty] using List.length_pos_iff.mpr q.wire_ne_nil
      | cons q' rest => exact hshort

end Serving

/-! ## The client's side -/

/-- What a line of input says: nothing that is sent, or a query that the connection `s₀` may ask. -/
inductive Types (K : Finset (List UInt8)) (L : Nat) (s₀ : Session) (line : List UInt8) :
    Option Query → Prop where
  | blank (h : tokenize vcMaxArgs line = []) : Types K L s₀ line none
  | tooLong (h : cmdBufSize ≤ (respArray ((tokenize vcMaxArgs line).map cstr)).length) :
      Types K L s₀ line none
  | query {q : Query} (htoks : tokenize vcMaxArgs line = q.args) (hnul : ∀ a ∈ q.args, (0 : UInt8) ∉ a)
      (hlen : q.wire.length < cmdBufSize) (hfits : q.Fits K L)
      (hmay : needAuth s₀.srv s₀.conn q.entry.aclNeeded = none) : Types K L s₀ line (some q)

/-- The values that the client has taken, the greeting among them. -/
def Dialogue.took (hello : List UInt8) (d : Dialogue) : List (List UInt8) :=
  if d.phase = .greeting then [] else hello :: d.taken

/-- The client has taken the first of the values, one for each query that it does not wait for. -/
structure Dialogue.Follows (hello : List UInt8) (asked : List Query) (heard : List (List UInt8))
    (d : Dialogue) : Prop where
  took : d.took hello <+: heard
  sent : (d.took hello).flatten <+: d.sess.sent
  got : d.got = (d.took hello).flatten.length
  count : d.taken.length + (if d.phase = .waiting then 1 else 0) = asked.length
  fresh : d.phase = .greeting → d.taken = []

/-- The client has found the connection closed. -/
structure Dialogue.Lost (d : Dialogue) : Prop where
  ended : d.sess.ended ≠ none
  got : d.got = d.sess.sent.length
  phase : d.phase ≠ .greeting

structure Dialogue.Talks (K : Finset (List UInt8)) (L : Nat) (m : KvMap) (s₀ : Session)
    (asked : List Query) (heard : List (List UInt8)) (d : Dialogue) : Prop where
  fits : ∀ q ∈ asked, q.Fits K L
  serves : Serves K L m s₀ asked heard d.up d.sess
  output : d.sess.output = heard.flatten
  taken : d.taken <+: valuesTo m asked
  client : d.Follows (helloReply s₀.srv) asked heard ∨ d.Lost

section Client

variable {K : Finset (List UInt8)} {L : Nat} {m : KvMap} {s₀ : Session} {asked : List Query}
  {heard ahead : List (List UInt8)} {hello : List UInt8} {d : Dialogue}

/-- What the client has not taken yet belongs to the values that come next. -/
theorem Dialogue.Follows.down (h : d.Follows hello asked heard) (hout : d.sess.output = heard.flatten) :
    d.sess.sent = (d.took hello).flatten ++ d.down ∧
      ∃ ahead, heard = d.took hello ++ ahead ∧ d.down <+: ahead.flatten := by
  have hdown : d.sess.sent = (d.took hello).flatten ++ d.down := by
    obtain ⟨t, ht⟩ := h.sent
    rw [Dialogue.down, h.got, ← ht, List.drop_left]
  obtain ⟨ahead, hahead⟩ := h.took
  refine ⟨hdown, ahead, hahead.symm, ?_⟩
  have hsent : d.sess.sent <+: heard.flatten := ⟨_, hout⟩
  rw [hdown, ← hahead, List.flatten_append] at hsent
  exact (List.prefix_append_right_inj _).mp hsent

/-- A reader on a stream of values takes the first one, or waits for it. -/
theorem takes_first {p : List UInt8 → Option (List UInt8)} {down : List UInt8} (hnil : p [] = none)
    (hreads : ∀ v ∈ ahead.head?, Reads p v) (hdown : down <+: ahead.flatten) :
    p down = none ∨ ∃ v ahead' t, ahead = v :: ahead' ∧ down = v ++ t ∧ p down = some t := by
  cases ahead with
  | nil =>
    left
    rw [List.prefix_nil.mp hdown]
    exact hnil
  | cons v ahead =>
    rcases (hreads v rfl).of_part hdown with ⟨hwait, -⟩ | ⟨t, ht, hp⟩
    · exact .inl hwait
    · exact .inr ⟨v, ahead, t, rfl, ht, hp⟩

theorem Dialogue.Follows.atEof (h : d.Follows hello asked heard) :
    d.atEof.Follows hello asked heard ∨ d.atEof.Lost := by
  unfold Dialogue.atEof
  split_ifs with hended
  · exact .inl h
  · exact .inr ⟨hended, rfl, by simp⟩

theorem Dialogue.Lost.atEof (h : d.Lost) : d.atEof.Lost := by
  rw [Dialogue.atEof, if_neg h.ended]
  exact ⟨h.ended, rfl, by simp⟩

theorem Dialogue.Talks.atEof (h : d.Talks K L m s₀ asked heard) : d.atEof.Talks K L m s₀ asked heard := by
  have hclient : d.atEof.Follows (helloReply s₀.srv) asked heard ∨ d.atEof.Lost := by
    rcases h.client with hfollows | hlost
    · exact hfollows.atEof
    · exact .inr hlost.atEof
  have hsame : d.atEof.up = d.up ∧ d.atEof.sess = d.sess ∧ d.atEof.taken = d.taken := by
    unfold Dialogue.atEof
    split_ifs <;> exact ⟨rfl, rfl, rfl⟩
  refine ⟨h.fits, ?_, ?_, ?_, hclient⟩
  · rw [hsame.1, hsame.2.1]
    exact h.serves
  · rw [hsame.2.1]
    exact h.output
  · rw [hsame.2.2]
    exact h.taken

/-- The client takes one more value. -/
theorem Dialogue.follows_take {v t : List UInt8}
    {taken : List (List UInt8)} (hsent : d.sess.sent = (d.took hello).flatten ++ (v ++ t))
    (hheard : heard = d.took hello ++ v :: ahead) (htaken : hello :: taken = d.took hello ++ [v])
    (hcount : taken.length = asked.length) :
    Dialogue.Follows hello asked heard
      { d with phase := .reading, got := d.sess.sent.length - t.length, taken := taken } := by
  have hflat : (hello :: taken).flatten = (d.took hello).flatten ++ v := by
    rw [htaken, List.flatten_append, List.flatten_singleton]
  have hall : d.sess.sent = (hello :: taken).flatten ++ t := by rw [hsent, hflat, List.append_assoc]
  refine ⟨⟨ahead, ?_⟩, ⟨t, hall.symm⟩, ?_, hcount, by simp⟩
  · rw [hheard, List.append_cons, ← htaken]
    rfl
  · show d.sess.sent.length - t.length = (hello :: taken).flatten.length
    rw [hall, List.length_append, Nat.add_sub_cancel]

/-- The first value that the client takes is the greeting. -/
theorem Dialogue.Talks.reads_hello (h : d.Talks K L m s₀ asked heard) (h₀ : s₀.Dialled K L m)
    (hphase : d.phase = .greeting) (hheard : heard = d.took (helloReply s₀.srv) ++ ahead) :
    ∀ v ∈ ahead.head?, v = helloReply s₀.srv ∧ Reads dropHello v := by
  intro v hv
  have hnone : d.took (helloReply s₀.srv) = [] := if_pos hphase
  obtain ⟨more, hmore⟩ := h.serves.heard_among
  rw [hheard, hnone] at hmore
  cases ahead with
  | nil => simp at hv
  | cons v' ahead =>
    obtain rfl : v' = v := by simpa using hv
    obtain rfl : v' = helloReply s₀.srv := (List.cons.inj hmore).1
    exact ⟨rfl, dropHello_reads (by decide) h₀.named⟩

/-- The values after it are replies to queries. -/
theorem Dialogue.Talks.reads_reply (h : d.Talks K L m s₀ asked heard) (h₀ : s₀.Dialled K L m)
    (hphase : d.phase ≠ .greeting) (hheard : heard = d.took (helloReply s₀.srv) ++ ahead) :
    d.taken ++ ahead <+: valuesTo m asked ∧ ∀ v ∈ ahead.head?, Reads printReply v := by
  have htook : d.took (helloReply s₀.srv) = helloReply s₀.srv :: d.taken := if_neg hphase
  have hvalues : d.taken ++ ahead <+: valuesTo m asked := by
    have hpre := h.serves.heard_among
    rw [hheard, htook] at hpre
    exact (List.prefix_cons_inj _).mp hpre
  refine ⟨hvalues, fun v hv => ?_⟩
  have hmem : v ∈ valuesTo m asked := hvalues.subset (by simp [List.mem_of_head? hv])
  exact (valuesTo_written h.fits h₀.sized h₀.roomy.ample.enough.len v hmem).reads

theorem Dialogue.Talks.greet (h : d.Talks K L m s₀ asked heard) (h₀ : s₀.Dialled K L m)
    (hphase : d.phase = .greeting) : d.greet.Talks K L m s₀ asked heard := by
  rcases h.client with hfollows | hlost
  swap
  · exact absurd hphase hlost.phase
  obtain ⟨hsent, ahead, hheard, hdown⟩ := hfollows.down h.output
  have hfirst := h.reads_hello h₀ hphase hheard
  unfold Dialogue.greet
  rcases takes_first rfl (fun v hv => (hfirst v hv).2) hdown with hwait | ⟨v, ahead, t, rfl, ht, hread⟩
  · rw [hwait]
    exact h.atEof
  · rw [hread]
    have hcount : d.taken.length = asked.length := by simpa [hphase] using hfollows.count
    refine ⟨h.fits, h.serves, h.output, h.taken,
      .inl (Dialogue.follows_take (ht ▸ hsent) hheard ?_ hcount)⟩
    rw [(hfirst v rfl).1, hfollows.fresh hphase, Dialogue.took, if_pos hphase]
    rfl

theorem Dialogue.Talks.awaitReply (h : d.Talks K L m s₀ asked heard) (h₀ : s₀.Dialled K L m)
    (hphase : d.phase = .waiting) : d.awaitReply.Talks K L m s₀ asked heard := by
  unfold Dialogue.awaitReply
  rcases h.client with hfollows | hlost
  swap
  · have hempty : d.down = [] := by rw [Dialogue.down, hlost.got, List.drop_length]
    have hwait : printReply d.down = none := by rw [hempty]; rfl
    rw [hwait]
    exact h.atEof
  obtain ⟨hsent, ahead, hheard, hdown⟩ := hfollows.down h.output
  obtain ⟨hvalues, hreads⟩ := h.reads_reply h₀ (by simp [hphase]) hheard
  rcases takes_first rfl hreads hdown with hwait | ⟨v, ahead, t, rfl, ht, hread⟩
  · rw [hwait]
    exact h.atEof
  · rw [hread]
    have htake : d.down.take (d.down.length - t.length) = v := by
      rw [ht, List.length_append, Nat.add_sub_cancel, List.take_left]
    have hcount : (d.taken ++ [v]).length = asked.length := by simpa [hphase] using hfollows.count
    dsimp only
    rw [htake]
    refine ⟨h.fits, h.serves, h.output, ?_, .inl (Dialogue.follows_take (ht ▸ hsent) hheard ?_ hcount)⟩
    · rw [← List.singleton_append, ← List.append_assoc] at hvalues
      exact (List.prefix_append ..).trans hvalues
    · rw [Dialogue.took, if_neg (by simp [hphase])]
      rfl

/-- The client sends the query of its next line. -/
theorem Dialogue.Talks.ask (h : d.Talks K L m s₀ asked heard) (h₀ : s₀.Dialled K L m) (hphase : d.phase = .reading) {q : Query}
    (hq : q.Fits K L) (hmay : needAuth s₀.srv s₀.conn q.entry.aclNeeded = none) (lines : List (List UInt8)) :
    Dialogue.Talks K L m s₀ (asked ++ [q]) heard
      { d with lines := lines, up := d.up ++ q.wire, phase := .waiting } := by
  have hclient : Dialogue.Follows (helloReply s₀.srv) (asked ++ [q]) heard
        { d with lines := lines, up := d.up ++ q.wire, phase := .waiting } ∨
      Dialogue.Lost { d with lines := lines, up := d.up ++ q.wire, phase := .waiting } := by
    rcases h.client with hfollows | hlost
    · left
      have htook : d.took (helloReply s₀.srv) = helloReply s₀.srv :: d.taken := if_neg (by simp [hphase])
      obtain ⟨hpre, hsent, hgot, hcount, -⟩ := hfollows
      rw [htook] at hpre hsent hgot
      exact ⟨hpre, hsent, hgot, by simpa [hphase] using hcount, by simp⟩
    · exact .inr ⟨hlost.ended, hlost.got, by simp⟩
  refine ⟨?_, ?_, h.output, h.taken.trans (valuesTo_mono ..), hclient⟩
  · simpa [or_imp, forall_and, hq] using h.fits
  · refine h.serves.ask h₀ (fun hopen => ?_) hq hmay
    rcases h.client with hfollows | hlost
    · have htook := hfollows.took
      rw [Dialogue.took, if_neg (by simp [hphase])] at htook
      exact List.ne_nil_of_length_pos (Nat.lt_of_lt_of_le (Nat.succ_pos _) htook.length_le)
    · exact absurd hopen hlost.ended

theorem Dialogue.Talks.skip (h : d.Talks K L m s₀ asked heard) (lines : List (List UInt8)) :
    Dialogue.Talks K L m s₀ asked heard { d with lines := lines } :=
  ⟨h.fits, h.serves, h.output, h.taken, h.client.imp
    (fun hf => ⟨hf.took, hf.sent, hf.got, hf.count, hf.fresh⟩) fun hl => ⟨hl.ended, hl.got, hl.phase⟩⟩

/-- `do_command` with a command that does not fit into its buffer. -/
theorem Dialogue.doCommand_tooLong (d : Dialogue) {argv : List (List UInt8)} (hmax : argv.length ≤ vcMaxArgs)
    (hlen : cmdBufSize ≤ (respArray (argv.map cstr)).length) (mem : Nat → UInt8) :
    d.doCommand argv mem = d := by
  have hout := (encodeCommand_spec hmax mem (by decide)).1 hlen
  rw [Dialogue.doCommand, if_pos (by rw [hout]; decide)]

theorem Dialogue.doCommand_query (d : Dialogue) {q : Query} (hq : q.Fits K L)
    (hnul : ∀ a ∈ q.args, (0 : UInt8) ∉ a) (hlen : q.wire.length < cmdBufSize) (mem : Nat → UInt8) :
    d.doCommand q.args mem = { d with up := d.up ++ q.wire, phase := .waiting } := by
  have hargs : q.args.map cstr = q.args :=
    (List.map_congr_left fun a ha => cstr_eq_self (hnul a ha)).trans (List.map_id _)
  have hspec := (encodeCommand_spec hq.args mem (show 16 ≤ cmdBufSize by decide)).2
  rw [hargs] at hspec
  obtain ⟨hret, hwindow⟩ := hspec hlen
  simp only [Dialogue.doCommand, hret, Int.toNat_natCast, hwindow]
  rw [if_neg (by omega)]
  rfl

/-- The dialogue is somewhere in the script: the client has done the lines `before`. -/
def Dialogue.Plays (K : Finset (List UInt8)) (L : Nat) (m : KvMap) (s₀ : Session)
    (script : List (List UInt8 × Option Query)) (d : Dialogue) : Prop :=
  ∃ before after heard, script = before ++ after ∧ d.lines = after.map Prod.fst ∧
    d.Talks K L m s₀ (before.filterMap Prod.snd) heard

variable {script : List (List UInt8 × Option Query)}

theorem Dialogue.Plays.nextLine (h₀ : s₀.Dialled K L m)
    (hscript : ∀ p ∈ script, Types K L s₀ p.1 p.2) (h : d.Plays K L m s₀ script)
    (hphase : d.phase = .reading) (mem : Nat → UInt8) : (d.nextLine mem).Plays K L m s₀ script := by
  obtain ⟨before, after, heard, hsplit, hlines, htalks⟩ := h
  unfold Dialogue.nextLine
  cases after with
  | nil =>
    rw [hlines]
    exact ⟨before, [], heard, hsplit, hlines, htalks⟩
  | cons p after =>
    obtain ⟨line, o⟩ := p
    have htypes : Types K L s₀ line o := hscript (line, o) (by simp [hsplit])
    have hnext : script = before ++ [(line, o)] ++ after := by simp [hsplit]
    rw [hlines]
    simp only [List.map_cons]
    generalize hd₁ : { d with lines := after.map Prod.fst } = d₁
    have hskip : d₁.Talks K L m s₀ (before.filterMap Prod.snd) heard := hd₁ ▸ htalks.skip _
    have hlines₁ : d₁.lines = after.map Prod.fst := hd₁ ▸ rfl
    cases htypes with
    | blank hblank =>
      rw [if_pos hblank]
      exact ⟨_, after, heard, hnext, hlines₁, by simpa using hskip⟩
    | tooLong hlong =>
      have hsame := d₁.doCommand_tooLong (length_tokenize_le _ _) hlong mem
      rw [hsame, ite_self]
      exact ⟨_, after, heard, hnext, hlines₁, by simpa using hskip⟩
    | @query q htoks hnul hlen hfits hmay =>
      have hne : q.args ≠ [] := by cases q <;> simp [Query.args]
      rw [htoks, if_neg hne, d₁.doCommand_query hfits hnul hlen mem]
      refine ⟨_, after, heard, hnext, hlines₁, ?_⟩
      have hask := hskip.ask h₀ (hd₁ ▸ hphase) hfits hmay d₁.lines
      simpa using hask

theorem Dialogue.Plays.client (h₀ : s₀.Dialled K L m) (hscript : ∀ p ∈ script, Types K L s₀ p.1 p.2)
    (h : d.Plays K L m s₀ script) (mem : Nat → UInt8) : (d.client mem).Plays K L m s₀ script := by
  have heof : d.atEof.lines = d.lines := by
    unfold Dialogue.atEof
    split_ifs <;> rfl
  unfold Dialogue.client
  cases hphase : d.phase with
  | reading => exact h.nextLine h₀ hscript hphase mem
  | greeting =>
    obtain ⟨before, after, heard, hsplit, hlines, htalks⟩ := h
    refine ⟨before, after, heard, hsplit, ?_, htalks.greet h₀ hphase⟩
    rw [← hlines]
    unfold Dialogue.greet
    cases dropHello d.down with
    | none => exact heof
    | some rest => rfl
  | waiting =>
    obtain ⟨before, after, heard, hsplit, hlines, htalks⟩ := h
    refine ⟨before, after, heard, hsplit, ?_, htalks.awaitReply h₀ hphase⟩
    rw [← hlines]
    unfold Dialogue.awaitReply
    cases printReply d.down with
    | none => exact heof
    | some rest => rfl

theorem Dialogue.Plays.server (h₀ : s₀.Dialled K L m) (h : d.Plays K L m s₀ script) {ev : Event}
    (hev : ev.bytes <+: d.up) : (d.server ev).Plays K L m s₀ script := by
  obtain ⟨before, after, heard, hsplit, hlines, htalks⟩ := h
  obtain ⟨heard', hserves, hmore, hout, hsent⟩ := htalks.serves.event h₀ htalks.output hev
  refine ⟨before, after, heard', hsplit, hlines, htalks.fits, hserves, hout, htalks.taken, ?_⟩
  rcases htalks.client with hfollows | hlost
  · exact .inl ⟨hfollows.took.trans hmore, hfollows.sent.trans hsent, hfollows.got, hfollows.count,
      hfollows.fresh⟩
  · have hstop : (d.server ev).sess = d.sess := if_pos hlost.ended
    exact .inr ⟨hstop ▸ hlost.ended, hstop ▸ hlost.got, hlost.phase⟩

theorem Dialogue.Plays.step (h₀ : s₀.Dialled K L m) (hscript : ∀ p ∈ script, Types K L s₀ p.1 p.2)
    (h : d.Plays K L m s₀ script) {a : DialogueAct} (ha : Arrives d a) :
    (dialogueStep d a).1.Plays K L m s₀ script := by
  cases a with
  | client mem => exact h.client h₀ hscript mem
  | server ev => exact h.server h₀ ha

theorem Session.Dialled.plays (h₀ : s₀.Dialled K L m) (script : List (List UInt8 × Option Query)) :
    (Dialogue.start (script.map Prod.fst) s₀).Plays K L m s₀ script := by
  have hsame : Continues s₀.rbuf.contents s₀ s₀ := by
    rw [h₀.new.rbuf]
    exact .refl s₀
  refine ⟨[], script, [], rfl, rfl, by simp, .greets hsame ?_ ?_, h₀.silent, List.nil_prefix, .inl ?_⟩
  · simp [Dialogue.start, h₀.new.rbuf]
  · simp only [Dialogue.start, h₀.new.rbuf]
    decide
  · exact ⟨List.prefix_rfl, List.nil_prefix, rfl, rfl, fun _ => rfl⟩

/-- All has come in: the server has answered all queries. -/
theorem Serves.all_answered {s : Session} (h : Serves K L m s₀ asked heard [] s) (hopen : s.ended = none) :
    heard = helloReply s₀.srv :: valuesTo m asked := by
  cases h with
  | ended hended => exact absurd hopen hended
  | greets _ hinput hshort =>
    rw [List.append_nil] at hinput
    exact absurd hshort (by rw [hinput]; exact Nat.lt_irrefl _)
  | @answers done rest _ _ _ hasks _ _ hinput hshort =>
    cases rest with
    | nil => rw [List.append_nil]
    | cons q rest =>
      have hlt := hshort q rfl
      rw [List.append_nil] at hinput
      rw [hinput, List.flatMap_cons, List.length_append] at hlt
      omega

/-- The server has replied all values: it has answered all queries. -/
theorem Serves.reflects {up : List UInt8} {s : Session} (h : Serves K L m s₀ asked heard up s)
    (hopen : s.ended = none) (hall : (valuesTo m asked).length < heard.length) :
    s.host.world.cache.Reflects (Machine.run Query.apply m asked) := by
  cases h with
  | ended hended => exact absurd hopen hended
  | greets => exact absurd hall (by simp)
  | @answers done rest _ _ _ hasks =>
    have hrest := length_le_valuesTo (Machine.run Query.apply m done) rest
    rw [valuesTo_append, List.length_append, List.length_cons] at hall
    obtain rfl : rest = [] := List.length_eq_zero_iff.mp (by omega)
    rw [List.append_nil]
    exact hasks.reflects

/-- When nothing is under way the client goes on. -/
theorem Dialogue.Talks.goes_on (h : d.Talks K L m s₀ asked heard) (h₀ : s₀.Dialled K L m)
    (hopen : d.sess.ended = none) (hphase : d.phase ≠ .reading) (hup : d.up = [])
    (hpending : d.sess.wbuf.pending = []) (mem : Nat → UInt8) : (d.client mem).phase = .reading := by
  have hfollows := h.client.resolve_right fun hlost => hlost.ended hopen
  have hall := Serves.all_answered (hup ▸ h.serves) hopen
  obtain ⟨hsent, ahead, hheard, -⟩ := hfollows.down h.output
  have hdown : d.down = ahead.flatten := by
    have hout := h.output
    rw [Session.output, hpending, List.append_nil, hsent, hheard, List.flatten_append] at hout
    exact List.append_cancel_left hout
  have hmany := length_le_valuesTo m asked
  have hlen : (d.took (helloReply s₀.srv)).length + ahead.length = (valuesTo m asked).length + 1 := by
    rw [← List.length_append, ← hheard, hall, List.length_cons]
  have hcount := hfollows.count
  unfold Dialogue.client
  cases hwhere : d.phase with
  | reading => exact absurd hwhere hphase
  | greeting =>
    rw [Dialogue.took, if_pos hwhere] at hlen
    obtain ⟨v, more, rfl⟩ := List.exists_cons_of_length_pos (l := ahead) (by simp at hlen; omega)
    have hread := (h.reads_hello h₀ hwhere hheard v rfl).2.all more.flatten
    simp only [Dialogue.greet, hdown, List.flatten_cons, hread]
  | waiting =>
    rw [Dialogue.took, if_neg (by simp [hwhere]), List.length_cons] at hlen
    rw [if_pos hwhere] at hcount
    obtain ⟨v, more, rfl⟩ := List.exists_cons_of_length_pos (l := ahead) (by omega)
    have hread := ((h.reads_reply h₀ (by simp [hwhere]) hheard).2 v rfl).all more.flatten
    simp only [Dialogue.awaitReply, hdown, List.flatten_cons, hread]

/-- `vcli` reads its lines and talks to the server, while the bytes between them are cut and delayed
in any way, the steps of the two come in any order, and the server may close the connection at any
time. At every moment the client has done the first lines of its input. What it has taken are the
first of the values that a map replies to the queries of these lines, and as long as the connection
is open it has taken just one value for each query but the one that it waits for. So without
counters, whose replies are two values, each reply is the one to the query that was just sent, and
the tables then hold what the map holds. The client does not wait for ever: when all that was sent
has come in, it goes on to its next line. -/
theorem vcli_in_step (h₀ : s₀.Dialled K L m) (hscript : ∀ p ∈ script, Types K L s₀ p.1 p.2)
    {acts : List DialogueAct}
    (hacts : Machine.Along dialogueStep Arrives (Dialogue.start (script.map Prod.fst) s₀) acts) :
    let d := Machine.run dialogueStep (Dialogue.start (script.map Prod.fst) s₀) acts
    ∃ before after, script = before ++ after ∧ d.lines = after.map Prod.fst ∧
      let asked := before.filterMap Prod.snd
      d.taken <+: valuesTo m asked ∧
        (d.sess.ended = none →
          d.taken.length + (if d.phase = .waiting then 1 else 0) = asked.length ∧
          (d.phase = .reading → (∀ q ∈ asked, ¬ q.IsCounter) → d.taken = valuesTo m asked ∧
            d.sess.host.world.cache.Reflects (Machine.run Query.apply m asked)) ∧
          (d.phase ≠ .reading → d.up = [] → d.sess.wbuf.pending = [] →
            ∀ mem, (d.client mem).phase = .reading)) := by
  intro d
  have hplays : d.Plays K L m s₀ script :=
    Machine.run_inv (I := Dialogue.Plays K L m s₀ script) (fun _ _ h ha => h.step h₀ hscript ha)
      (h₀.plays script) hacts
  obtain ⟨before, after, heard, hsplit, hlines, htalks⟩ := hplays
  refine ⟨before, after, hsplit, hlines, htalks.taken, fun hopen => ?_⟩
  have hfollows := htalks.client.resolve_right fun hlost => hlost.ended hopen
  refine ⟨hfollows.count, fun hphase hplain => ?_, fun hphase hup hpending mem =>
    htalks.goes_on h₀ hopen hphase hup hpending mem⟩
  have hone := length_valuesTo hplain m
  have hcount := hfollows.count
  rw [if_neg (by simp [hphase]), Nat.add_zero] at hcount
  have htaken : d.taken = valuesTo m (before.filterMap Prod.snd) :=
    htalks.taken.eq_of_length (hcount.trans hone.symm)
  have htook := hfollows.took.length_le
  rw [Dialogue.took, if_neg (by simp [hphase]), List.length_cons, htaken] at htook
  exact ⟨htaken, htalks.serves.reflects hopen htook⟩

end Client

section Example

instance (d : Dialogue) : (a : DialogueAct) → Decidable (Arrives d a)
  | .client _ => .isTrue trivial
  | .server ev => inferInstanceAs (Decidable (ev.bytes <+: d.up))

/-- A read of some bytes on a connection that takes all replies. -/
def echoEvent (bytes : List UInt8) : Event :=
  ⟨true, false, false, false, false, .again, fun _ _ => .wouldBlock,
    ⟨[bytes], .wouldBlock, fun _ offered => .wrote (Fin.last offered), fun _ _ _ => 0⟩⟩

def quotedKey : List UInt8 := str "a key"

def quotedVal : List UInt8 := str "say \"hi\""

/-- A line with quotes, a blank one, and one that asks for the value. -/
def threeLines : List (List UInt8 × Option Query) :=
  [(str "SET \"a key\" 'say \"hi\"'", some (.set quotedKey quotedVal)), (str "  ", none),
    (str "GET 'a key'", some (.get quotedKey))]

/-- The server reads the `SET` in two parts, and the client looks for the reply between them. -/
def twoExchanges : List DialogueAct :=
  let wire := (Query.set quotedKey quotedVal).wire
  [.server (echoEvent helloCmd), .client fun _ => 0, .client fun _ => 0, .server (echoEvent (wire.take 10)),
    .client fun _ => 0, .server (echoEvent (wire.drop 10)), .client fun _ => 0, .client fun _ => 0,
    .client fun _ => 0]

def newSession : Session := .start openServer newHost 7 (str "127.0.0.1") 50000

theorem quoted_lines_in_step :
    let d := Machine.run dialogueStep (Dialogue.start (threeLines.map Prod.fst) newSession) twoExchanges
    ∃ before after, threeLines = before ++ after ∧ d.lines = after.map Prod.fst ∧
      let asked := before.filterMap Prod.snd
      d.taken <+: valuesTo (fun _ => none) asked ∧
        (d.sess.ended = none →
          d.taken.length + (if d.phase = .waiting then 1 else 0) = asked.length ∧
          (d.phase = .reading → (∀ q ∈ asked, ¬ q.IsCounter) → d.taken = valuesTo (fun _ => none) asked ∧
            d.sess.host.world.cache.Reflects (Machine.run Query.apply (fun _ => none) asked)) ∧
          (d.phase ≠ .reading → d.up = [] → d.sess.wbuf.pending = [] →
            ∀ mem, (d.client mem).phase = .reading)) := by
  have henough : Enough {quotedKey} 13 (newCache none 8) :=
    ⟨fun si _ => (by decide : 1 * 100 / 8 < 85), by decide, by decide⟩
  have hcreate : vcCreate none 8 = some (newCache none 8) := rfl
  have hdialled : newSession.Dialled {quotedKey} 13 fun _ => none :=
    ⟨Session.start_isNew .., rfl, by simp [Session.Shaken, newSession, Session.start],
      ⟨.create hcreate henough 0, fun _ => rfl, fun _ _ => rfl⟩, fun _ _ h => absurd h (by simp),
      newHost_reflects, by decide⟩
  have hset : (Query.set quotedKey quotedVal).Fits {quotedKey} 13 :=
    ⟨by decide, by decide, by decide, by decide, by decide⟩
  have hget : (Query.get quotedKey).Fits {quotedKey} 13 :=
    ⟨by decide, by decide, by decide, by decide, by decide⟩
  have hscript : ∀ p ∈ threeLines, Types {quotedKey} 13 newSession p.1 p.2 := by
    simp only [threeLines, List.forall_mem_cons]
    exact ⟨.query (by decide) (by decide) (by decide) hset rfl, .blank (by decide),
      .query (by decide) (by decide) (by decide) hget rfl, by simp⟩
  exact vcli_in_step hdialled hscript (by decide +kernel)

end Example

end VoidCache
