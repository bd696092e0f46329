import VoidCache.Net.Queries
import VoidCache.Net.Worker

/-!
# The server is a key-value map

One worker thread serves any number of connections. However the streams of the clients are cut into
reads, in whatever order the events come and however much the sockets take, each client gets the
replies of one map that is asked one query after the other: in the order of the events, and for each
client in the order in which it has sent them.
-/
namespace VoidCache

/-! ## What an event does to a connection -/

/-- All bytes for the client so far, sent or not. -/
def Session.output (s : Session) : List UInt8 := s.sent ++ s.wbuf.pending

/-- From `s` to `s'` the bytes were read, and perhaps some output was sent; nothing else. -/
structure Continues (bytes : List UInt8) (s s' : Session) : Prop where
  srv : s'.srv = s.srv
  host : s'.host = s.host
  conn : s'.conn = s.conn
  ended : s'.ended = s.ended
  output : s'.output = s.output
  sent : s.sent <+: s'.sent
  input : s'.rbuf.contents = s.rbuf.contents ++ bytes

/-- What an event that brings in `bytes` makes of an open connection. -/
inductive EventOutcome (bytes : List UInt8) (s : Session) : Session → Prop where
  /-- It is closed before anything is dispatched. -/
  | closed {read : List UInt8} {s₁ : Session} {cause : Cause} (h : Continues read s s₁) :
      EventOutcome bytes s (s₁.close cause)
  /-- Nothing is read. -/
  | idle {s' : Session} (h : Continues [] s s') (hbytes : bytes = []) : EventOutcome bytes s s'
  /-- The loop over the commands is run, then the output is flushed. -/
  | parsed {s₁ s₂ s' : Session} {loopEnd : LoopEnd} (beyond : Nat → Nat → Nat → UInt8) {fuel : Nat}
      (h : Continues bytes s s₁) (hfuel : s₁.rbuf.contents.length ≤ fuel)
      (hloop : parseLoop beyond fuel s₁ = (s₂, loopEnd))
      (hflush : loopEnd = .waiting → Continues [] s₂ s' ∨ ∃ s₃, Continues [] s₂ s₃ ∧ s' = s₃.close .writeError) :
      EventOutcome bytes s s'

/-- What an event brings in. -/
def Event.bytes (ev : Event) : List UInt8 := if ev.epollIn then ev.batch.bytes else []

section Outcome

variable {s s₁ s' : Session} {bytes more : List UInt8}

theorem Continues.refl (s : Session) : Continues [] s s :=
  ⟨rfl, rfl, rfl, rfl, rfl, List.prefix_rfl, (List.append_nil _).symm⟩

theorem Continues.trans (h : Continues bytes s s₁) (h' : Continues more s₁ s') :
    Continues (bytes ++ more) s s' where
  srv := h'.srv.trans h.srv
  host := h'.host.trans h.host
  conn := h'.conn.trans h.conn
  ended := h'.ended.trans h.ended
  output := h'.output.trans h.output
  sent := h.sent.trans h'.sent
  input := by rw [h'.input, h.input, List.append_assoc]

theorem Session.flush_continues (s : Session) (sock : Socket) : Continues [] s (s.flush sock).1 where
  srv := rfl
  host := rfl
  conn := rfl
  ended := rfl
  output := by
    rw [Session.output, Session.output, ← (connFlush_keeps sock s.wbuf).1, ← List.append_assoc]
    rfl
  sent := List.prefix_append ..
  input := (List.append_nil _).symm

theorem Session.read_continues (s : Session) (b : Batch) :
    Continues b.bytes s { s with rbuf := readLoop s.rbuf b.chunks } :=
  ⟨rfl, rfl, rfl, rfl, rfl, List.prefix_rfl, contents_readLoop ..⟩

theorem processConn_outcome (hended : s.ended = none) (b : Batch) :
    EventOutcome b.bytes s (processConn s b) := by
  have hread := s.read_continues b
  rw [processConn, if_neg (not_not.mpr hended)]
  cases b.readEnd with
  | eof => exact .closed hread
  | failed => exact .closed hread
  | wouldBlock =>
    dsimp only
    cases hloop : parseLoop b.beyond (readLoop s.rbuf b.chunks).len _ with
    | mk s₂ loopEnd =>
      refine .parsed b.beyond hread (Nat.le_of_eq (length_contents _)) hloop ?_
      rintro rfl
      dsimp only
      split
      · exact .inl (.refl s₂)
      · have hflush := s₂.flush_continues b.sock
        generalize s₂.flush b.sock = out at hflush ⊢
        obtain ⟨s₃, r⟩ := out
        cases r with
        | error => exact .inr ⟨s₃, hflush, rfl⟩
        | done => exact .inl hflush
        | wouldBlock => exact .inl hflush

theorem Session.resume_cases (s : Session) (sock : Socket) :
    s.resume sock = (s.flush sock).1 ∨ s.resume sock = (s.flush sock).1.close .writeError := by
  unfold Session.resume
  generalize s.flush sock = out
  obtain ⟨s₁, r⟩ := out
  cases r with
  | error => exact .inr rfl
  | done => exact .inl rfl
  | wouldBlock => exact .inl rfl

theorem EventOutcome.of_continues (h : Continues [] s s₁) (h' : EventOutcome bytes s₁ s') :
    EventOutcome bytes s s' := by
  cases h' with
  | closed hread => exact .closed (h.trans hread)
  | idle hidle hbytes => exact .idle (h.trans hidle) hbytes
  | parsed beyond hread hfuel hloop hflush => exact .parsed beyond (h.trans hread) hfuel hloop hflush

theorem workerEvent_outcome (hended : s.ended = none) (hshaken : s.Shaken) (ev : Event) :
    EventOutcome ev.bytes s (workerEvent s ev) := by
  have hinput (s₁ : Session) (h : Continues [] s s₁) :
      EventOutcome ev.bytes s (if ev.epollIn then processConn s₁ ev.batch else s₁) := by
    unfold Event.bytes
    split_ifs
    · exact .of_continues h (processConn_outcome (h.ended.trans hended) ev.batch)
    · exact .idle h rfl
  rw [workerEvent, if_neg (not_not.mpr hended)]
  by_cases hup : ev.hangsUp = true
  · rw [if_pos hup]
    exact .closed (.refl s)
  rw [if_neg hup, if_neg hshaken]
  by_cases hout : ev.epollOut = true
  · rw [if_pos hout]
    have hflush := s.flush_continues ev.sock
    rcases s.resume_cases ev.sock with hresume | hresume
    · rw [hresume]
      exact hinput _ hflush
    · -- the write has failed: nothing is read any more
      have hstop : processConn (s.resume ev.sock) ev.batch = s.resume ev.sock := by
        rw [processConn, if_pos (by simp [hresume, Session.close])]
      dsimp only
      rw [hstop, ite_self, hresume]
      exact .closed hflush
  · rw [if_neg hout]
    exact hinput s (.refl s)

end Outcome

/-- A buffer that holds only a part of a command. -/
theorem respParseCommand_more {w p : List UInt8} {cmd : VcCmd} (hw : respParseCommand w = .ok cmd w.length)
    (hp : p <+: w) (hlen : p.length < w.length) : respParseCommand p = .more := by
  obtain ⟨x, hx⟩ := hp
  rw [← hx] at hw
  cases hparse : respParseCommand p with
  | more => rfl
  | err =>
    rw [respParseCommand_incremental.err_append hparse x] at hw
    cases hw
  | ok cmd' n =>
    have hused := respParseCommand_incremental.used_le hparse
    rw [respParseCommand_incremental.ok_append hparse x] at hw
    injection hw with _ hn
    rw [hx] at hn
    omega

/-! ## One connection -/

/-- The replies of a map to the queries, one after the other. -/
def answersTo (resp3 : Bool) (m : KvMap) (qs : List Query) : List UInt8 :=
  (Machine.trace Query.apply m qs).flatMap fun t => t.2.text resp3

/-- The connection stands ready for the queries: they fit, it may ask them, and the cache holds `m`. -/
structure Asks (K : Finset (List UInt8)) (L : Nat) (m : KvMap) (qs : List Query) (s : Session) : Prop where
  fits : ∀ q ∈ qs, q.Fits K L
  may : ∀ q ∈ qs, needAuth s.srv s.conn q.entry.aclNeeded = none
  open_ : s.conn.state ≠ .closing
  sized : m.Sized L
  roomy : s.host.Roomy K L
  reflects : s.host.world.cache.Reflects m

/-- From `s` to `s'` the queries `done` were answered. -/
structure Did (K : Finset (List UInt8)) (L : Nat) (m : KvMap) (done : List Query) (s s' : Session) :
    Prop where
  auth : s'.srv.auth = s.srv.auth
  resp3 : s'.conn.resp3 = s.conn.resp3
  output : s'.output = s.output ++ answersTo s.conn.resp3 m done
  sent : s.sent <+: s'.sent
  roomy : s'.host.Roomy K L
  reflects : s'.host.world.cache.Reflects (Machine.run Query.apply m done)

/-- The connection goes on: of its input and the bytes read, `done` has been taken out, and the next
query is not complete. -/
structure Stays (done rest : List Query) (bytes : List UInt8) (s s' : Session) : Prop where
  conn : s'.conn = s.conn
  input : s.rbuf.contents ++ bytes = done.flatMap Query.wire ++ s'.rbuf.contents
  short : ∀ q ∈ rest.head?, s'.rbuf.contents.length < q.wire.length

/-- From `s` to `s'` the first of the queries were answered, up to those that are not complete. -/
def Replied (K : Finset (List UInt8)) (L : Nat) (m : KvMap) (qs : List Query) (bytes : List UInt8)
    (s s' : Session) : Prop :=
  ∃ done rest, qs = done ++ rest ∧ Did K L m done s s' ∧
    (s'.ended = none → Stays done rest bytes s s')

section Session

variable {K : Finset (List UInt8)} {L : Nat} {m : KvMap} {q : Query} {qs done rest : List Query}
  {s s₁ s' : Session}

theorem Did.refl (hr : s.host.Roomy K L) (hm : s.host.world.cache.Reflects m) : Did K L m [] s s :=
  ⟨rfl, rfl, (List.append_nil _).symm, List.prefix_rfl, hr, hm⟩

/-- What comes after a connection has dispatched one query. -/
theorem Did.cons (hq : Did K L m [q] s s₁) (h : Did K L (q.apply m).1 done s₁ s') :
    Did K L m (q :: done) s s' where
  auth := h.auth.trans hq.auth
  resp3 := h.resp3.trans hq.resp3
  output := by
    rw [h.output, hq.output, hq.resp3, List.append_assoc]
    simp [answersTo, Machine.trace]
  sent := hq.sent.trans h.sent
  roomy := h.roomy
  reflects := h.reflects

/-- A buffer that holds only a part of a query. -/
theorem Query.Fits.parse_more (hq : q.Fits K L) {p : List UInt8} (hp : p <+: q.wire)
    (hlen : p.length < q.wire.length) : respParseCommand p = .more := by
  have hwhole := hq.parse []
  rw [List.append_nil] at hwhole
  exact respParseCommand_more hwhole hp hlen

/-- One query, from the buffer to the reply. -/
theorem Asks.dispatched (h : Asks K L m (q :: qs) s) (beyond : Nat → Nat → Nat → UInt8) :
    ∃ host, let d : Dispatched := ⟨s.srv.counted, s.conn, (q.apply m).2.text s.conn.resp3⟩
      s.dispatched q.cmd beyond = (host, some d) ∧
        Did K L m [q] s (s.after q.cmd q.wire.length host d) ∧
        Asks K L (q.apply m).1 qs (s.after q.cmd q.wire.length host d) := by
  obtain ⟨hq, hqs⟩ := List.forall_mem_cons.mp h.fits
  obtain ⟨hmay, hmays⟩ := List.forall_mem_cons.mp h.may
  obtain ⟨host, hrun, hroomy, hreflects⟩ := hq.dispatch h.sized hmay h.roomy h.reflects
  refine ⟨host, ?_, ⟨rfl, rfl, ?_, List.prefix_rfl, hroomy, hreflects⟩,
    ⟨hqs, hmays, h.open_, hq.sized h.sized, hroomy, hreflects⟩⟩
  · rw [Session.dispatched, hq.args_cmd, hrun]
  · simp [Session.output, Session.after, answersTo, Machine.trace]

/-- As long as the next query is not complete there is nothing to do. -/
theorem Asks.waits (h : Asks K L m qs s) (hshort : ∀ q ∈ qs.head?, s.rbuf.contents.length < q.wire.length) :
    Replied K L m qs [] s s :=
  ⟨[], qs, rfl, .refl h.roomy h.reflects, fun _ => ⟨rfl, List.append_nil _, hshort⟩⟩

/-- The loop over the commands answers the queries that are complete, and waits. -/
theorem Asks.parseLoop (h : Asks K L m qs s) (hended : s.ended = none)
    (hin : s.rbuf.contents <+: qs.flatMap Query.wire) (beyond : Nat → Nat → Nat → UInt8) {fuel : Nat}
    (hfuel : s.rbuf.contents.length ≤ fuel) :
    (VoidCache.parseLoop beyond fuel s).2 = .waiting ∧
      (VoidCache.parseLoop beyond fuel s).1.ended = none ∧
      Replied K L m qs [] s (VoidCache.parseLoop beyond fuel s).1 := by
  induction qs generalizing s m fuel with
  | nil =>
    have hempty : s.rbuf.contents = [] := List.prefix_nil.mp hin
    have hloop : VoidCache.parseLoop beyond fuel s = (s, .waiting) := by
      cases fuel with
      | zero => rfl
      | succ fuel => rw [VoidCache.parseLoop, if_pos hempty]
    rw [hloop]
    exact ⟨rfl, hended, h.waits (by simp)⟩
  | cons q qs ih =>
    have hq := h.fits q (by simp)
    rw [List.flatMap_cons] at hin
    by_cases hlen : s.rbuf.contents.length < q.wire.length
    · have hpart : s.rbuf.contents <+: q.wire :=
        List.prefix_of_prefix_length_le hin (List.prefix_append ..) hlen.le
      have hloop : VoidCache.parseLoop beyond fuel s = (s, .waiting) := by
        cases fuel with
        | zero => rfl
        | succ fuel =>
          rw [VoidCache.parseLoop, hq.parse_more hpart hlen]
          split <;> rfl
      rw [hloop]
      exact ⟨rfl, hended, h.waits (by simpa using hlen)⟩
    · obtain ⟨c, hc⟩ : q.wire <+: s.rbuf.contents :=
        List.prefix_of_prefix_length_le (List.prefix_append ..) hin (Nat.le_of_not_lt hlen)
      have hpos : 0 < q.wire.length := List.length_pos_iff.mpr q.wire_ne_nil
      obtain ⟨fuel, rfl⟩ : ∃ n, fuel = n + 1 := Nat.exists_eq_succ_of_ne_zero (by omega)
      obtain ⟨host, hd, hdid, hasks⟩ := h.dispatched beyond
      have hloop : VoidCache.parseLoop beyond (fuel + 1) s = VoidCache.parseLoop beyond fuel
          (s.after q.cmd q.wire.length host
            ⟨s.srv.counted, s.conn, (q.apply m).2.text s.conn.resp3⟩) := by
        have hne : s.rbuf.contents ≠ [] := by
          rw [← hc]
          simp [q.wire_ne_nil]
        rw [VoidCache.parseLoop, if_neg hne, ← hc, hq.parse c]
        simp only [hd]
        exact if_neg h.open_
      rw [hloop]
      generalize hs₁ : s.after q.cmd q.wire.length host _ = s₁ at hdid hasks ⊢
      have hrest : s₁.rbuf.contents = c := by
        rw [← hs₁, Session.after, contents_vcBufConsume, ← hc, List.drop_left]
      have hconn : s₁.conn = s.conn := by rw [← hs₁]; rfl
      have hended₁ : s₁.ended = none := by rw [← hs₁]; exact hended
      have hin₁ : s₁.rbuf.contents <+: qs.flatMap Query.wire := by
        rw [← hc] at hin
        rw [hrest]
        exact (List.prefix_append_right_inj _).mp hin
      have hfuel₁ : s₁.rbuf.contents.length ≤ fuel := by
        rw [← hc, List.length_append] at hfuel
        rw [hrest]
        omega
      obtain ⟨hwaits, hend, done, rest, rfl, hmore, hstays⟩ := ih hasks hended₁ hin₁ hfuel₁
      refine ⟨hwaits, hend, q :: done, rest, rfl, hdid.cons hmore, fun hopen => ?_⟩
      obtain ⟨hconn', hinput, hshort⟩ := hstays hopen
      refine ⟨hconn'.trans hconn, ?_, hshort⟩
      rw [List.append_nil] at hinput ⊢
      rw [← hc, ← hrest, hinput, List.flatMap_cons, List.append_assoc]

theorem Asks.of_continues {bytes : List UInt8} (h : Asks K L m qs s) (hc : Continues bytes s s₁) :
    Asks K L m qs s₁ where
  fits := h.fits
  may := by rw [hc.srv, hc.conn]; exact h.may
  open_ := by rw [hc.conn]; exact h.open_
  sized := h.sized
  roomy := by rw [hc.host]; exact h.roomy
  reflects := by rw [hc.host]; exact h.reflects

theorem Did.continues {bytes : List UInt8} (h : Did K L m done s s₁) (hc : Continues bytes s₁ s') :
    Did K L m done s s' where
  auth := by rw [hc.srv]; exact h.auth
  resp3 := by rw [hc.conn]; exact h.resp3
  output := hc.output.trans h.output
  sent := h.sent.trans hc.sent
  roomy := by rw [hc.host]; exact h.roomy
  reflects := by rw [hc.host]; exact h.reflects

theorem Did.of_continues {bytes : List UInt8} (hc : Continues bytes s s₁) (h : Did K L m done s₁ s') :
    Did K L m done s s' where
  auth := by rw [h.auth, hc.srv]
  resp3 := by rw [h.resp3, hc.conn]
  output := by rw [h.output, hc.output, hc.conn]
  sent := hc.sent.trans h.sent
  roomy := h.roomy
  reflects := h.reflects

theorem Did.close (h : Did K L m done s s₁) (cause : Cause) : Did K L m done s (s₁.close cause) :=
  ⟨h.auth, h.resp3, h.output, h.sent, h.roomy, h.reflects⟩

theorem Asks.workerEvent (h : Asks K L m qs s) (hended : s.ended = none) (hshaken : s.Shaken)
    (hshort : ∀ q ∈ qs.head?, s.rbuf.contents.length < q.wire.length) {ev : Event}
    (hin : s.rbuf.contents ++ ev.bytes <+: qs.flatMap Query.wire) :
    Replied K L m qs ev.bytes s (workerEvent s ev) := by
  have hstart : Did K L m [] s s := .refl h.roomy h.reflects
  have houtcome := workerEvent_outcome hended hshaken ev
  generalize VoidCache.workerEvent s ev = s' at houtcome ⊢
  cases houtcome with
  | closed hread =>
    exact ⟨[], qs, rfl, (hstart.continues hread).close _, by simp [Session.close]⟩
  | idle hidle hbytes =>
    refine ⟨[], qs, rfl, hstart.continues hidle, fun _ => ⟨hidle.conn, ?_, ?_⟩⟩
    · rw [hbytes]
      exact hidle.input.symm
    · rw [hidle.input, List.append_nil]
      exact hshort
  | parsed beyond hread hfuel hloop hflush =>
    obtain ⟨hwaits, hend, done, rest, hqs, hdid, hstays⟩ := (h.of_continues hread).parseLoop
      (hread.ended.trans hended) (hread.input ▸ hin) beyond hfuel
    rw [hloop] at hwaits hend hdid hstays
    obtain ⟨hconn, hinput, hrest⟩ := hstays hend
    rw [List.append_nil, hread.input] at hinput
    replace hdid := Did.of_continues hread hdid
    rcases hflush hwaits with hgoes | ⟨s₃, hgoes, hclosed⟩
    · refine ⟨done, rest, hqs, hdid.continues hgoes, fun _ => ⟨?_, ?_, ?_⟩⟩
      · rw [hgoes.conn, hconn, hread.conn]
      · rw [hgoes.input, List.append_nil, hinput]
      · rw [hgoes.input, List.append_nil]
        exact hrest
    · rw [hclosed]
      exact ⟨done, rest, hqs, (hdid.continues hgoes).close _, by simp [Session.close]⟩

end Session

/-! ## All connections of a worker -/

section Worker

variable {ι : Type} [DecidableEq ι]

/-- One worker thread: the server and the cache, and its connections. -/
structure Serving (ι : Type) where
  srv : Srv
  host : Host
  sess : ι → Session

/-- A connection as its next event finds it. -/
def Serving.session (w : Serving ι) (i : ι) : Session := { w.sess i with srv := w.srv, host := w.host }

def Serving.event (w : Serving ι) (a : ι × Event) : Serving ι :=
  let s := workerEvent (w.session a.1) a.2
  ⟨s.srv, s.host, Function.update w.sess a.1 s⟩

/-- One event after the other. -/
def Serving.run (w : Serving ι) (acts : List (ι × Event)) : Serving ι := acts.foldl Serving.event w

/-- The bytes that the events bring in on a connection. -/
def received (i : ι) (acts : List (ι × Event)) : List UInt8 :=
  acts.flatMap fun a => if a.1 = i then a.2.bytes else []

/-- The queries of all connections, in the order of the events that handle them. -/
def orderOf (acts : List (ι × Event)) (handled : List (List Query)) : List (ι × Query) :=
  (List.zipWith (fun a qs => qs.map (Prod.mk a.1)) acts handled).flatten

def queriesOf (i : ι) (order : List (ι × Query)) : List Query :=
  (order.filter fun p => p.1 = i).map Prod.snd

/-- One map for all connections. -/
def mapServe (m : KvMap) (p : ι × Query) : KvMap × Reply := p.2.apply m

/-- The replies of the map to connection `i`. -/
def repliesTo (i : ι) (resp3 : Bool) (m : KvMap) (order : List (ι × Query)) : List UInt8 :=
  ((Machine.trace mapServe m order).filter fun t => t.1.1 = i).flatMap fun t => t.2.text resp3

section Order

variable (i j : ι) (resp3 : Bool) (m : KvMap) (order order' : List (ι × Query)) (qs : List Query)

theorem queriesOf_append : queriesOf i (order ++ order') = queriesOf i order ++ queriesOf i order' := by
  simp [queriesOf]

theorem queriesOf_batch : queriesOf i (qs.map (Prod.mk j)) = if j = i then qs else [] := by
  induction qs with
  | nil => simp [queriesOf]
  | cons q qs ih =>
    rw [queriesOf] at ih
    by_cases hj : j = i <;> simp_all [queriesOf]

theorem repliesTo_append : repliesTo i resp3 m (order ++ order') =
    repliesTo i resp3 m order ++ repliesTo i resp3 (Machine.run mapServe m order) order' := by
  simp [repliesTo, Machine.trace_append]

omit [DecidableEq ι] in
theorem run_batch : Machine.run mapServe m (qs.map (Prod.mk j)) = Machine.run Query.apply m qs := by
  induction qs generalizing m with
  | nil => rfl
  | cons q qs ih => exact ih _

theorem repliesTo_batch :
    repliesTo i resp3 m (qs.map (Prod.mk j)) = if j = i then answersTo resp3 m qs else [] := by
  induction qs generalizing m with
  | nil => simp [repliesTo, answersTo, Machine.trace]
  | cons q qs ih =>
    have hcons : repliesTo i resp3 m ((q :: qs).map (Prod.mk j)) =
        (if j = i then (q.apply m).2.text resp3 else []) ++
          repliesTo i resp3 (q.apply m).1 (qs.map (Prod.mk j)) := by
      by_cases hj : j = i <;> simp [repliesTo, Machine.trace, mapServe, hj]
    rw [hcons, ih]
    split
    · rfl
    · rfl

end Order

variable {K : Finset (List UInt8)} {L : Nat} {m : KvMap} {srv : Srv} {conn : ι → Conn}
  {qs : ι → List Query} {seen : ι → List UInt8} {order : List (ι × Query)} {w : Serving ι}

/-- An open connection has got `seen`: the queries asked so far, and what is in its input buffer. -/
structure Going (conn : Conn) (asked rest : List Query) (seen : List UInt8) (s : Session) : Prop where
  conn : s.conn = conn
  seen : seen = asked.flatMap Query.wire ++ s.rbuf.contents
  short : ∀ q ∈ rest.head?, s.rbuf.contents.length < q.wire.length

/-- The worker after it has answered the queries of `order` from the map `m`. -/
structure Serving.Answers (K : Finset (List UInt8)) (L : Nat) (m : KvMap) (srv : Srv) (conn : ι → Conn)
    (qs : ι → List Query) (seen : ι → List UInt8) (order : List (ι × Query)) (w : Serving ι) : Prop where
  auth : w.srv.auth = srv.auth
  roomy : w.host.Roomy K L
  sized : KvMap.Sized L (Machine.run mapServe m order)
  reflects : w.host.world.cache.Reflects (Machine.run mapServe m order)
  resp3 : ∀ i, (w.sess i).conn.resp3 = (conn i).resp3
  output : ∀ i, (w.sess i).output = repliesTo i (conn i).resp3 m order
  asked : ∀ i, ∃ rest, qs i = queriesOf i order ++ rest ∧
    ((w.sess i).ended = none → Going (conn i) (queriesOf i order) rest (seen i) (w.sess i))

/-- The clients' queries fit, and they may ask them on connections that are open. -/
structure Clients (K : Finset (List UInt8)) (L : Nat) (srv : Srv) (conn : ι → Conn)
    (qs : ι → List Query) : Prop where
  fits : ∀ i, ∀ q ∈ qs i, q.Fits K L
  may : ∀ i, ∀ q ∈ qs i, needAuth srv (conn i) q.entry.aclNeeded = none
  open_ : ∀ i, (conn i).state ≠ .closing ∧ (conn i).state ≠ .tlsHand

theorem needAuth_congr {srv srv' : Srv} (h : srv.auth = srv'.auth) (conn : Conn) (acl : UInt32) :
    needAuth srv conn acl = needAuth srv' conn acl := by
  simp only [needAuth, h]

theorem sized_run {m : KvMap} {done : List Query} (hm : m.Sized L) (hfits : ∀ q ∈ done, q.Fits K L) :
    KvMap.Sized L (Machine.run Query.apply m done) := by
  induction done generalizing m with
  | nil => exact hm
  | cons q done ih =>
    obtain ⟨hq, hfits⟩ := List.forall_mem_cons.mp hfits
    exact ih (hq.sized hm) hfits

namespace Serving.Answers

theorem asks (h : w.Answers K L m srv conn qs seen order) (hc : Clients K L srv conn qs) {i : ι}
    {rest : List Query} (hrest : qs i = queriesOf i order ++ rest)
    (hgoing : Going (conn i) (queriesOf i order) rest (seen i) (w.sess i)) :
    Asks K L (Machine.run mapServe m order) rest (w.session i) := by
  have hmem {q : Query} (hq : q ∈ rest) : q ∈ qs i := hrest ▸ List.mem_append_right _ hq
  refine ⟨fun q hq => hc.fits i q (hmem hq), fun q hq => ?_, ?_, h.sized, h.roomy, h.reflects⟩
  · show needAuth w.srv (w.sess i).conn _ = none
    rw [needAuth_congr h.auth, hgoing.conn]
    exact hc.may i q (hmem hq)
  · show (w.sess i).conn.state ≠ .closing
    rw [hgoing.conn]
    exact (hc.open_ i).1

/-- One connection has answered some more queries. -/
theorem after (h : w.Answers K L m srv conn qs seen order) {i : ι} {s' : Session} {done rest : List Query}
    {seen' : List UInt8} (hdid : Did K L (Machine.run mapServe m order) done (w.session i) s')
    (hfits : ∀ q ∈ done, q.Fits K L) (hrest : qs i = queriesOf i order ++ (done ++ rest))
    (hgoing : s'.ended = none → Going (conn i) (queriesOf i order ++ done) rest seen' s') :
    Answers K L m srv conn qs (Function.update seen i seen') (order ++ done.map (Prod.mk i))
      ⟨s'.srv, s'.host, Function.update w.sess i s'⟩ where
  auth := hdid.auth.trans h.auth
  roomy := hdid.roomy
  sized := by
    rw [Machine.run_append, run_batch]
    exact sized_run h.sized hfits
  reflects := by
    rw [Machine.run_append, run_batch]
    exact hdid.reflects
  resp3 := by
    intro j
    dsimp only
    by_cases hj : j = i
    · subst hj
      rw [Function.update_self]
      exact hdid.resp3.trans (h.resp3 j)
    · rw [Function.update_of_ne hj]
      exact h.resp3 j
  output := by
    intro j
    dsimp only
    rw [repliesTo_append, repliesTo_batch, ← h.output j]
    by_cases hj : j = i
    · subst hj
      rw [Function.update_self, if_pos rfl, hdid.output, ← h.resp3 j]
      rfl
    · rw [Function.update_of_ne hj, if_neg (Ne.symm hj), List.append_nil]
  asked := by
    intro j
    dsimp only
    rw [queriesOf_append, queriesOf_batch]
    by_cases hj : j = i
    · subst hj
      rw [if_pos rfl, Function.update_self, Function.update_self]
      exact ⟨rest, hrest.trans (List.append_assoc ..).symm, hgoing⟩
    · rw [if_neg (Ne.symm hj), List.append_nil, Function.update_of_ne hj, Function.update_of_ne hj]
      exact h.asked j

/-- One event: the queries that it completes are answered, after all earlier ones. -/
theorem event (h : w.Answers K L m srv conn qs seen order) (hc : Clients K L srv conn qs)
    (i : ι) (ev : Event) (hin : seen i ++ ev.bytes <+: (qs i).flatMap Query.wire) :
    ∃ done : List Query, (w.event (i, ev)).Answers K L m srv conn qs
      (Function.update seen i (seen i ++ ev.bytes)) (order ++ done.map (Prod.mk i)) := by
  obtain ⟨rest, hrest, hgoing⟩ := h.asked i
  by_cases hended : (w.sess i).ended = none
  · obtain ⟨hconn, hseen, hshort⟩ := hgoing hended
    have hasks := h.asks hc hrest (hgoing hended)
    have hshaken : (w.session i).Shaken := by
      rw [Session.Shaken, Serving.session, hconn]
      exact (hc.open_ i).2
    have hbytes : (w.session i).rbuf.contents ++ ev.bytes <+: rest.flatMap Query.wire := by
      rw [hseen, hrest, List.flatMap_append, List.append_assoc] at hin
      exact (List.prefix_append_right_inj _).mp hin
    obtain ⟨done, rest', rfl, hdid, hstays⟩ := hasks.workerEvent hended hshaken hshort hbytes
    refine ⟨done, h.after hdid (fun q hq => hasks.fits q (by simp [hq])) hrest fun hopen => ?_⟩
    obtain ⟨hsame, hinput, hshort'⟩ := hstays hopen
    refine ⟨hsame.trans hconn, ?_, hshort'⟩
    rw [hseen, List.append_assoc, List.flatMap_append, List.append_assoc]
    exact congrArg _ hinput
  · have hstop : workerEvent (w.session i) ev = w.session i := if_pos hended
    refine ⟨[], ?_⟩
    rw [Serving.event, hstop]
    exact h.after (.refl h.roomy h.reflects) (by simp) hrest fun hopen => absurd hopen hended

theorem run (h : w.Answers K L m srv conn qs seen order) (hc : Clients K L srv conn qs)
    (acts : List (ι × Event)) (hin : ∀ i, seen i ++ received i acts <+: (qs i).flatMap Query.wire) :
    ∃ handled, handled.length = acts.length ∧ (w.run acts).Answers K L m srv conn qs
      (fun i => seen i ++ received i acts) (order ++ orderOf acts handled) := by
  induction acts generalizing w seen order with
  | nil =>
    refine ⟨[], rfl, ?_⟩
    simpa [received, orderOf, Serving.run] using h
  | cons a acts ih =>
    obtain ⟨i, ev⟩ := a
    have hseen (j : ι) : Function.update seen i (seen i ++ ev.bytes) j ++ received j acts =
        seen j ++ received j ((i, ev) :: acts) := by
      by_cases hj : j = i
      · subst hj
        simp [received]
      · simp [received, hj, Ne.symm hj]
    have hnow : seen i ++ ev.bytes <+: (qs i).flatMap Query.wire := by
      have hall := hin i
      rw [← hseen, Function.update_self] at hall
      exact (List.prefix_append ..).trans hall
    obtain ⟨done, hnext⟩ := h.event hc i ev hnow
    obtain ⟨handled, hlen, hend⟩ := ih hnext fun j => by rw [hseen]; exact hin j
    refine ⟨done :: handled, by simp [hlen], ?_⟩
    simp only [hseen] at hend
    simpa [orderOf, Serving.run] using hend

end Serving.Answers

/-- A worker whose connections are all new. -/
structure Serving.Starts (K : Finset (List UInt8)) (L : Nat) (m : KvMap) (w : Serving ι) : Prop where
  roomy : w.host.Roomy K L
  sized : m.Sized L
  reflects : w.host.world.cache.Reflects m
  new : ∀ i, (w.sess i).IsNew
  silent : ∀ i, (w.sess i).output = []

theorem Serving.Starts.answers (h : w.Starts K L m) (qs : ι → List Query) :
    w.Answers K L m w.srv (fun i => (w.sess i).conn) qs (fun _ => []) [] where
  auth := rfl
  roomy := h.roomy
  sized := h.sized
  reflects := h.reflects
  resp3 _ := rfl
  output := h.silent
  asked i := by
    refine ⟨qs i, rfl, fun _ => ⟨rfl, (h.new i).rbuf.symm, fun q _ => ?_⟩⟩
    rw [(h.new i).rbuf]
    exact List.length_pos_iff.mpr q.wire_ne_nil

/-- One worker thread with any number of connections, on which clients send queries that fit the
cache and that they may ask. Whatever the order of the events, however the streams are cut into
reads and whatever the sockets take, there is one order of the queries, which keeps the order of the
events and the order of each client, such that every client is written the replies of a map to its
queries in that order, and the tables hold what the map holds in the end. A connection that is still
open has got replies to all queries that have come in. -/
theorem server_is_a_map (hstart : w.Starts K L m)
    (hclients : Clients K L w.srv (fun i => (w.sess i).conn) qs) (acts : List (ι × Event))
    (hsent : ∀ i, received i acts <+: (qs i).flatMap Query.wire) :
    ∃ handled, handled.length = acts.length ∧
      (w.run acts).host.world.cache.Reflects (Machine.run mapServe m (orderOf acts handled)) ∧
      ∀ i, queriesOf i (orderOf acts handled) <+: qs i ∧
        ((w.run acts).sess i).output =
          repliesTo i (w.sess i).conn.resp3 m (orderOf acts handled) ∧
        (((w.run acts).sess i).ended = none → received i acts = (qs i).flatMap Query.wire →
          queriesOf i (orderOf acts handled) = qs i) := by
  obtain ⟨handled, hlen, hend⟩ := (hstart.answers qs).run hclients acts (by simpa using hsent)
  simp only [List.nil_append] at hend
  refine ⟨handled, hlen, hend.reflects, fun i => ?_⟩
  obtain ⟨rest, hrest, hgoing⟩ := hend.asked i
  refine ⟨⟨rest, hrest.symm⟩, hend.output i, fun hopen hall => ?_⟩
  obtain ⟨-, hseen, hshort⟩ := hgoing hopen
  -- a query that is left would be in the input buffer, all of it
  have hinput : rest.flatMap Query.wire = ((w.run acts).sess i).rbuf.contents := by
    rw [hall, hrest, List.flatMap_append] at hseen
    exact List.append_cancel_left hseen
  cases rest with
  | nil => rw [hrest, List.append_nil]
  | cons q rest =>
    have hlt := hshort q rfl
    rw [← hinput, List.flatMap_cons, List.length_append] at hlt
    omega

end Worker

section Example

/-- A read of some bytes on an open connection. -/
def readEvent (bytes : List UInt8) : Event :=
  ⟨true, false, false, false, false, .again, fun _ _ => .wouldBlock,
    ⟨[bytes], .wouldBlock, fun _ _ => .wouldBlock, fun _ _ _ => 0⟩⟩

/-- Two connections to an open server with an empty cache. -/
def twoClients : Serving Bool :=
  ⟨openServer, newHost, fun _ => .start openServer newHost 7 (str "127.0.0.1") 50000⟩

/-- The first one counts with `INCR`, the second one sets the counter. -/
def twoStreams : Bool → List Query
  | false => [.incr [107], .incr [107]]
  | true => [.set [107] [52]]

/-- The second `INCR` comes in two parts, around the `SET`. -/
def threeReads : List (Bool × Event) :=
  [(false, readEvent ((twoStreams false).flatMap Query.wire |>.take 25)),
    (true, readEvent ((twoStreams true).flatMap Query.wire)),
    (false, readEvent ((twoStreams false).flatMap Query.wire |>.drop 25))]

theorem two_clients_share_a_map :
    ∃ handled, handled.length = 3 ∧
      (twoClients.run threeReads).host.world.cache.Reflects
        (Machine.run mapServe (fun _ => none) (orderOf threeReads handled)) ∧
      ∀ i, queriesOf i (orderOf threeReads handled) <+: twoStreams i ∧
        ((twoClients.run threeReads).sess i).output =
          repliesTo i false (fun _ => none) (orderOf threeReads handled) ∧
        (((twoClients.run threeReads).sess i).ended = none →
          received i threeReads = (twoStreams i).flatMap Query.wire →
          queriesOf i (orderOf threeReads handled) = twoStreams i) := by
  have henough : Enough {[107]} 13 (newCache none 8) :=
    ⟨fun si _ => (by decide : 1 * 100 / 8 < 85), by decide, by decide⟩
  have hcreate : vcCreate none 8 = some (newCache none 8) := rfl
  have hstart : twoClients.Starts {[107]} 13 fun _ => none :=
    ⟨⟨.create hcreate henough 0, fun _ => rfl, fun _ _ => rfl⟩, fun _ _ h => absurd h (by simp),
      newHost_reflects, fun _ => Session.start_isNew .., fun _ => rfl⟩
  have hincr : (Query.incr [107]).Fits {[107]} 13 := ⟨by decide, by decide, by decide, by decide, by decide⟩
  have hset : (Query.set [107] [52]).Fits {[107]} 13 :=
    ⟨by decide, by decide, by decide, by decide, by decide⟩
  have hclients : Clients {[107]} 13 twoClients.srv (fun i => (twoClients.sess i).conn) twoStreams := by
    refine ⟨fun i => ?_, fun i q _ => rfl, by decide⟩
    cases i <;> simp [twoStreams, hincr, hset]
  exact server_is_a_map hstart hclients threeReads (by decide +kernel)

end Example

end VoidCache
