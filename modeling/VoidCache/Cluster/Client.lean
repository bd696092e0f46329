import VoidCache.Cluster.Topology
import VoidCache.Lib.Calls

/-!
# The cluster client

`vc_cluster_cmd`, `vc_cluster_refresh` and a round of `health_thread` are programs: their calls
are the accesses to what all threads of the client share, that is the flags of the nodes, the
slot map, the pools and the sockets. What runs under a lock is one access, and so is what is
done with a socket that one caller has for itself. `clusterExec` says what an access does. The
environment chooses what becomes of each connection attempt, command and reply, and which nodes
other threads mark alive or dead meanwhile.
-/
namespace VoidCache

/-! ## Nodes and their pools -/

def Cluster.modifyNode (cl : Cluster) (i : Nat) (f : Node → Node) : Cluster :=
  { cl with
    nodes := cl.nodes.modify i f
    nodes_le := by rw [List.length_modify]; exact cl.nodes_le }

/-- `cl->nodes[i].conns[j]` -/
def Cluster.conn (cl : Cluster) (i j : Nat) : NodeConn := cl.nodes[i]?.elim .closed fun n => n.conns j

def Cluster.setConn (cl : Cluster) (i j : Nat) (c : NodeConn) : Cluster :=
  cl.modifyNode i fun n => { n with conns := Function.update n.conns j c }

/-- The flags after other threads have changed some. -/
def Cluster.mark (cl : Cluster) (marks : Nat → Option Bool) : Cluster :=
  { cl with
    nodes := cl.nodes.mapIdx fun i n => { n with alive := (marks i).getD n.alive }
    nodes_le := by rw [List.length_mapIdx]; exact cl.nodes_le }

section Conn

variable (cl : Cluster) (i j i' j' : Nat)

@[simp] theorem conn_mark (marks : Nat → Option Bool) : (cl.mark marks).conn i j = cl.conn i j := by
  simp only [Cluster.conn, Cluster.mark, List.getElem?_mapIdx]
  cases cl.nodes[i]? <;> rfl

@[simp] theorem length_mark (marks : Nat → Option Bool) :
    (cl.mark marks).nodes.length = cl.nodes.length := List.length_mapIdx

theorem conn_modifyNode {f : Node → Node} (hf : ∀ n, (f n).conns = n.conns) :
    (cl.modifyNode i' f).conn i j = cl.conn i j := by
  simp only [Cluster.conn, Cluster.modifyNode, List.getElem?_modify]
  cases cl.nodes[i]? with
  | none => rfl
  | some n =>
    by_cases h : i' = i
    · simp [h, hf]
    · simp [h]

@[simp] theorem length_setConn (c : NodeConn) : (cl.setConn i j c).nodes.length = cl.nodes.length :=
  List.length_modify ..

theorem conn_setConn_self {cl : Cluster} {i : Nat} (h : i < cl.nodes.length) (j : Nat) (c : NodeConn) :
    (cl.setConn i j c).conn i j = c := by
  simp [Cluster.conn, Cluster.setConn, Cluster.modifyNode, h]

theorem conn_setConn_of_ne {i j i' j' : Nat} (h : (i', j') ≠ (i, j)) (c : NodeConn) :
    (cl.setConn i j c).conn i' j' = cl.conn i' j' := by
  simp only [Cluster.conn, Cluster.setConn, Cluster.modifyNode, List.getElem?_modify]
  cases cl.nodes[i']? with
  | none => rfl
  | some n =>
    by_cases hi : i = i'
    · subst hi
      have hj : j' ≠ j := fun hj => h (by rw [hj])
      simp [Function.update_of_ne hj]
    · simp [hi]

/-- A node that does not exist has no connections. -/
theorem conn_of_le {cl : Cluster} {i : Nat} (h : cl.nodes.length ≤ i) (j : Nat) :
    cl.conn i j = .closed := by
  rw [Cluster.conn, List.getElem?_eq_none h]
  rfl

/-- New nodes come without connections. -/
theorem conn_nodeFindOrAdd (host : List UInt8) (port : Nat) :
    (nodeFindOrAdd cl host port).2.conn i j = cl.conn i j := by
  unfold nodeFindOrAdd
  split
  · rfl
  · split_ifs with h
    · rfl
    · simp only [Cluster.conn, List.getElem?_append]
      split_ifs with hi
      · rfl
      · rw [List.getElem?_eq_none (Nat.le_of_not_lt hi)]
        cases hk : [newNode host port][i - cl.nodes.length]? with
        | none => rfl
        | some n =>
          obtain rfl : n = newNode host port := by simpa using List.mem_of_getElem? hk
          rfl

end Conn

/-- Nodes may have been added; all connections are as they were. -/
structure Cluster.Grown (cl cl' : Cluster) : Prop where
  conn : ∀ i j, cl'.conn i j = cl.conn i j
  length : cl.nodes.length ≤ cl'.nodes.length

namespace Cluster.Grown

variable {cl cl' cl'' : Cluster}

theorem refl (cl : Cluster) : cl.Grown cl := ⟨fun _ _ => rfl, le_refl _⟩

theorem trans (h : cl.Grown cl') (h' : cl'.Grown cl'') : cl.Grown cl'' :=
  ⟨fun i j => (h'.conn i j).trans (h.conn i j), h.length.trans h'.length⟩

theorem nodeFindOrAdd (cl : Cluster) (host : List UInt8) (port : Nat) :
    cl.Grown (nodeFindOrAdd cl host port).2 := by
  refine ⟨fun i j => conn_nodeFindOrAdd cl i j host port, ?_⟩
  unfold VoidCache.nodeFindOrAdd
  split
  · exact le_refl _
  · split_ifs
    · exact le_refl _
    · simp

/-- Reading the map adds nodes and changes no connection. -/
theorem readAddrs {junk : List UInt8} {n : Nat} {first : Bool} {owner owner' : Int}
    {l s s' : List UInt8} (h : readAddrs junk n first cl owner l s = some (cl', owner', s')) :
    cl.Grown cl' := by
  induction n generalizing first cl owner l s with
  | zero =>
    cases h
    exact refl _
  | succ n ih =>
    unfold VoidCache.readAddrs at h
    dsimp only at h
    split_ifs at h
    · cases h
      exact refl _
    · split at h
      · cases h
      · exact (nodeFindOrAdd cl _ _).trans (ih h)

theorem assign (cl : Cluster) (slotStart slotEnd owner : Int) :
    cl.Grown (cl.assign slotStart slotEnd owner) := ⟨fun _ _ => rfl, le_refl _⟩

theorem readRange {junk s : List UInt8} {r : RangeRead} (h : readRange junk cl s = some r) :
    cl.Grown r.cl := by
  unfold VoidCache.readRange at h
  dsimp only at h
  split_ifs at h
  case neg =>
    obtain ⟨⟨cl₁, owner, s₁⟩, hread, rfl⟩ := Option.map_eq_some_iff.mp h
    refine (readAddrs hread).trans ?_
    dsimp only
    split_ifs
    · exact assign _ _ _ _
    · exact refl _
  all_goals
    cases h
    exact refl cl

theorem readRanges {junk s s' : List UInt8} {n : Nat}
    (h : readRanges junk n cl s = some (cl', s')) : cl.Grown cl' := by
  induction n generalizing cl s with
  | zero =>
    cases h
    exact refl _
  | succ n ih =>
    unfold VoidCache.readRanges at h
    split at h
    · cases h
    · rename_i r hr
      split_ifs at h
      · exact (readRange hr).trans (ih h)
      · cases h
        exact readRange hr

theorem readSlots {junk s s' : List UInt8} {nranges : Int}
    (h : readSlots junk cl nranges s = some (cl', s')) : cl.Grown cl' := by
  have hempty : cl.Grown { cl with slotMap := fun _ => -1 } := ⟨fun _ _ => rfl, le_refl _⟩
  exact hempty.trans (readRanges h)

end Cluster.Grown

/-! ## The network -/

/-- What the client sends: a command it was given, `CLUSTER SLOTS`, `PING`, or `AUTH`. -/
inductive Msg where
  | cmd (text : List UInt8)
  | slots
  | ping
  | auth (text : List UInt8)
  deriving DecidableEq, Repr

/-- What becomes of something that was sent completely. A node that receives it executes it and
replies, or replies with a redirection. -/
inductive Delivery where
  | lost
  | redirected (text : List UInt8)
  | executed (reply : List UInt8)
  deriving DecidableEq, Repr

def Delivery.reply : Delivery → List UInt8
  | lost => []
  | redirected text => 45 :: str "MOVED " ++ text ++ crlf
  | executed reply => reply

/-- The executions that a delivery to node `i` causes. -/
def Delivery.log (i : Nat) (msg : Msg) : Delivery → List (Nat × Msg)
  | executed _ => [(i, msg)]
  | _ => []

/-- What an access meets: the flags that other threads have changed, whether connecting and
sending succeed, what becomes of what is sent, how many bytes arrive before a read fails,
`malloc`, what uninitialised arrays hold, and the clock. -/
structure NetEnv where
  marks : Nat → Option Bool
  connects : Bool
  sendOk : Bool
  delivery : Delivery
  arrives : Nat
  mallocOk : Nat → Bool
  junk : List UInt8
  now : Int

structure ClusterWorld where
  cl : Cluster
  envs : Nat → NetEnv
  calls : Nat
  /-- What the nodes have executed, in order. -/
  executed : List (Nat × Msg)

def ClusterWorld.env (w : ClusterWorld) : NetEnv := w.envs w.calls

/-- The world as the next access finds it. -/
def ClusterWorld.next (w : ClusterWorld) : ClusterWorld :=
  { w with cl := w.cl.mark w.env.marks, calls := w.calls + 1 }

def ClusterWorld.withCl (w : ClusterWorld) (cl : Cluster) : ClusterWorld := { w with cl := cl }

/-- A connection of which a reader was given the first `n` bytes and has left `rest`. -/
def NodeConn.read (c : NodeConn) (n : Nat) (rest : List UInt8) : NodeConn :=
  { c with unread := rest ++ c.unread.drop n }

/-! ## Getting a connection -/

/-- The text of `AUTH` for the credentials of the cluster. -/
def authCmd (cl : Cluster) : List UInt8 :=
  if cl.username.headD 0 ≠ 0 then
    str "*3\r\n$4\r\nAUTH\r\n$" ++ decimal (cstr cl.username).length ++ crlf ++ cstr cl.username ++
      str "\r\n$" ++ decimal (cstr cl.password).length ++ crlf ++ cstr cl.password ++ crlf
  else
    str "*2\r\n$4\r\nAUTH\r\n$" ++ decimal (cstr cl.password).length ++ crlf ++ cstr cl.password ++ crlf

/-- Whether a new connection authenticates, and the node gets to see it. -/
def authSent (cl : Cluster) (env : NetEnv) : Bool := cl.password.headD 0 ≠ 0 && env.sendOk

def authReply (cl : Cluster) (env : NetEnv) : List UInt8 :=
  if authSent cl env then env.delivery.reply else []

/-- A new connection. Of the reply to `AUTH` one line is read, into 64 bytes. -/
def freshNodeConn (cl : Cluster) (env : NetEnv) : NodeConn :=
  let reply := authReply cl env
  NodeConn.read ⟨true, true, reply⟩ env.arrives (sockReadline 64 env.junk (reply.take env.arrives)).rest

/-- The first idle connection of node `i`. -/
def idleConn (cl : Cluster) (i : Nat) : Option Nat :=
  (List.range vcClusterMaxConns).find? fun j => !(cl.conn i j).inUse && (cl.conn i j).isOpen

/-- The first slot of node `i` without a connection. -/
def freeSlot (cl : Cluster) (i : Nat) : Option Nat :=
  (List.range vcClusterMaxConns).find? fun j => !(cl.conn i j).isOpen

/-- A new connection in slot `j`. -/
def ClusterWorld.openConn (w : ClusterWorld) (i j : Nat) : ClusterWorld :=
  { w.next with
    cl := w.next.cl.setConn i j (freshNodeConn w.cl w.env)
    executed := w.executed ++ if authSent w.cl w.env then w.env.delivery.log i (.auth (authCmd w.cl)) else [] }

/-- `node_conn_get` -/
def ClusterWorld.nodeConnGet (w : ClusterWorld) (i : Nat) : ClusterWorld × Option Nat :=
  if w.cl.nodes.length ≤ i then (w.next, none)
  else
    match idleConn w.cl i with
    | some j => (w.next.withCl (w.next.cl.setConn i j { w.cl.conn i j with inUse := true }), some j)
    | none =>
      match freeSlot w.cl i with
      | none => (w.next, none)
      | some j => if w.env.connects then (w.openConn i j, some j) else (w.next, none)

/-- `sock_sendall`, and what becomes of what was sent. -/
def ClusterWorld.send (w : ClusterWorld) (i j : Nat) (msg : Msg) : ClusterWorld × Bool :=
  if w.env.sendOk then
    ({ w.next with
        cl := w.next.cl.setConn i j
          { w.cl.conn i j with unread := (w.cl.conn i j).unread ++ w.env.delivery.reply }
        executed := w.executed ++ w.env.delivery.log i msg }, true)
  else (w.next, false)

/-- The bytes that a reader of the connection is given. -/
def ClusterWorld.stream (w : ClusterWorld) (i j : Nat) : List UInt8 :=
  (w.cl.conn i j).unread.take w.env.arrives

/-- The world after a reader has left `rest` of the stream of a connection. -/
def ClusterWorld.readTo (w : ClusterWorld) (cl : Cluster) (i j : Nat) (rest : List UInt8) : ClusterWorld :=
  w.next.withCl (cl.setConn i j ((w.cl.conn i j).read w.env.arrives rest))

def ClusterWorld.readMap (w : ClusterWorld) (i j : Nat) (nranges : Int) : ClusterWorld × Bool :=
  match readSlots w.env.junk w.next.cl nranges (w.stream i j) with
  | none => (w.next, false)
  | some (cl, rest) => (w.readTo cl i j rest, true)

/-- What `node_conn_get` can do. -/
inductive GotConn (w : ClusterWorld) (i : Nat) : ClusterWorld × Option Nat → Prop where
  | nothing : GotConn w i (w.next, none)
  | idle (j : Nat) (hi : i < w.cl.nodes.length) (hopen : (w.cl.conn i j).isOpen = true)
      (hidle : (w.cl.conn i j).inUse = false) :
      GotConn w i (w.next.withCl (w.next.cl.setConn i j { w.cl.conn i j with inUse := true }), some j)
  | opened (j : Nat) (hi : i < w.cl.nodes.length) (hbusy : idleConn w.cl i = none)
      (hfree : freeSlot w.cl i = some j) (hclosed : (w.cl.conn i j).isOpen = false) :
      GotConn w i (w.openConn i j, some j)

theorem nodeConnGet_cases (w : ClusterWorld) (i : Nat) : GotConn w i (w.nodeConnGet i) := by
  unfold ClusterWorld.nodeConnGet
  by_cases hi : w.cl.nodes.length ≤ i
  · rw [if_pos hi]
    exact .nothing
  rw [if_neg hi]
  cases hidle : idleConn w.cl i with
  | some j =>
    have hj := List.find?_some hidle
    simp only [Bool.and_eq_true, Bool.not_eq_true'] at hj
    exact .idle j (Nat.lt_of_not_le hi) hj.2 hj.1
  | none =>
    dsimp only
    cases hfree : freeSlot w.cl i with
    | none => exact .nothing
    | some j =>
      have hj : (w.cl.conn i j).isOpen = false := by simpa using List.find?_some hfree
      dsimp only
      split_ifs
      · exact .opened j (Nat.lt_of_not_le hi) hidle hfree hj
      · exact .nothing

/-! ## Accesses -/

inductive ClusterReq where
  /-- `vc_cluster_node_for_slot` -/
  | nodeForSlot (slot : Nat)
  /-- Whether node `i` is alive, if `i` is below `node_count`. -/
  | alive (i : Nat)
  | setAlive (i : Nat) (b : Bool)
  /-- Whether the health check leaves node `i` alone for now, if there is one. -/
  | backedOff (i : Nat)
  /-- The health check finds node `i` dead, and with `seen` notes the time. -/
  | noteDown (i : Nat) (seen : Bool)
  | noteUp (i : Nat)
  | findOrAdd (host : List UInt8) (port : Nat)
  | connGet (i : Nat)
  /-- `sock_sendall` -/
  | send (i j : Nat) (msg : Msg)
  /-- `resp_read_reply` -/
  | readReply (i j : Nat)
  /-- `sock_readline` of the first line of a reply -/
  | readHeader (i j : Nat)
  /-- The ranges of the reply to `CLUSTER SLOTS`, read under the lock of the map. -/
  | readSlots (i j : Nat) (nranges : Int)
  /-- `close(nc->fd); nc->fd = -1` -/
  | closeFd (i j : Nat)
  /-- `nc->in_use = false` -/
  | setIdle (i j : Nat)
  deriving DecidableEq

def ClusterReq.Resp : ClusterReq → Type
  | nodeForSlot _ => Int
  | alive _ => Option Bool
  | setAlive .. => Unit
  | backedOff _ => Option Bool
  | noteDown .. => Unit
  | noteUp _ => Unit
  | findOrAdd .. => Int
  | connGet _ => Option Nat
  | send .. => Bool
  | readReply .. => Option (List UInt8)
  | readHeader .. => Option (List UInt8)
  | readSlots .. => Bool
  | closeFd .. => Unit
  | setIdle .. => Unit

def clusterExec (w : ClusterWorld) : (a : ClusterReq) → ClusterWorld × a.Resp
  | .nodeForSlot slot => (w.next, w.next.cl.slotMap slot)
  | .alive i => (w.next, w.next.cl.nodes[i]?.map fun n => n.alive)
  | .setAlive i b => (w.next.withCl (w.next.cl.modifyNode i fun n => { n with alive := b }), ())
  | .backedOff i =>
    (w.next, w.next.cl.nodes[i]?.map fun n => !n.alive && w.env.now - n.lastSeenNs < n.backoffNs)
  | .noteDown i seen =>
    (w.next.withCl (w.next.cl.modifyNode i fun n =>
      { n with
        alive := false
        backoffNs := if n.backoffNs < 3200000000 then n.backoffNs * 2 else 3200000000
        lastSeenNs := if seen then w.env.now else n.lastSeenNs }), ())
  | .noteUp i =>
    (w.next.withCl (w.next.cl.modifyNode i fun n =>
      { n with alive := true, lastSeenNs := w.env.now, backoffNs := 100000000 }), ())
  | .findOrAdd host port =>
    (w.next.withCl (nodeFindOrAdd w.next.cl host port).2, (nodeFindOrAdd w.next.cl host port).1)
  | .connGet i => w.nodeConnGet i
  | .send i j msg => w.send i j msg
  | .readReply i j =>
    let r := respReadReply w.env.mallocOk (w.stream i j)
    (w.readTo w.next.cl i j r.2, r.1)
  | .readHeader i j =>
    let l := sockReadline 256 w.env.junk (w.stream i j)
    (w.readTo w.next.cl i j l.rest, if l.ok then some l.buf else none)
  | .readSlots i j nranges => w.readMap i j nranges
  | .closeFd i j =>
    (w.next.withCl (w.next.cl.setConn i j { w.cl.conn i j with isOpen := false, unread := [] }), ())
  | .setIdle i j =>
    (w.next.withCl (w.next.cl.setConn i j { w.cl.conn i j with inUse := false }), ())

/-! ## The programs -/

abbrev ClusterProg := Calls ClusterReq.Resp

def vcClusterNodeForSlot (slot : Nat) : ClusterProg Int := Calls.ask (ClusterReq.nodeForSlot slot)
def readAlive (i : Nat) : ClusterProg (Option Bool) := Calls.ask (ClusterReq.alive i)
def setAlive (i : Nat) (b : Bool) : ClusterProg Unit := Calls.ask (ClusterReq.setAlive i b)
def backedOff (i : Nat) : ClusterProg (Option Bool) := Calls.ask (ClusterReq.backedOff i)
def noteDown (i : Nat) (seen : Bool) : ClusterProg Unit := Calls.ask (ClusterReq.noteDown i seen)
def noteUp (i : Nat) : ClusterProg Unit := Calls.ask (ClusterReq.noteUp i)
def findOrAdd (host : List UInt8) (port : Nat) : ClusterProg Int :=
  Calls.ask (ClusterReq.findOrAdd host port)
def connGet (i : Nat) : ClusterProg (Option Nat) := Calls.ask (ClusterReq.connGet i)
def sendMsg (i j : Nat) (msg : Msg) : ClusterProg Bool := Calls.ask (ClusterReq.send i j msg)
def readReply (i j : Nat) : ClusterProg (Option (List UInt8)) := Calls.ask (ClusterReq.readReply i j)
def readHeader (i j : Nat) : ClusterProg (Option (List UInt8)) := Calls.ask (ClusterReq.readHeader i j)
def readMap (i j : Nat) (nranges : Int) : ClusterProg Bool := Calls.ask (ClusterReq.readSlots i j nranges)

def nodeConnRelease (i j : Nat) : ClusterProg Unit := Calls.ask (ClusterReq.setIdle i j)

/-- `node_conn_close` takes no lock: others may come between its two steps. -/
def nodeConnClose (i j : Nat) : ClusterProg Unit :=
  Calls.ask (ClusterReq.closeFd i j) >>= fun _ => Calls.ask (ClusterReq.setIdle i j)

/-- `vc_cluster_refresh` from node `ni` on. `none` stands for a write outside an array. -/
def refreshFrom : Nat → Nat → ClusterProg (Option Int)
  | 0, _ => pure (some (-1))
  | fuel + 1, ni => do
    match ← readAlive ni with
    | none => pure (some (-1))
    | some false => refreshFrom fuel (ni + 1)
    | some true =>
      match ← connGet ni with
      | none => refreshFrom fuel (ni + 1)
      | some j =>
        if !(← sendMsg ni j .slots) then
          nodeConnClose ni j
          setAlive ni false
          refreshFrom fuel (ni + 1)
        else
          match ← readHeader ni j with
          | none =>
            nodeConnClose ni j
            refreshFrom fuel (ni + 1)
          | some line =>
            if line.headD 0 ≠ 42 then
              nodeConnRelease ni j
              refreshFrom fuel (ni + 1)
            else if ← readMap ni j (atoi line.tail) then
              nodeConnRelease ni j
              pure (some 0)
            else pure none

def vcClusterRefresh : ClusterProg (Option Int) := refreshFrom vcClusterMaxNodes 0

/-- One round of `health_thread`, from node `i` on. -/
def healthFrom : Nat → Nat → ClusterProg (Option Unit)
  | 0, _ => pure (some ())
  | fuel + 1, i => do
    match ← backedOff i with
    | none => pure (some ())
    | some true => healthFrom fuel (i + 1)
    | some false =>
      match ← connGet i with
      | none =>
        noteDown i true
        match ← vcClusterRefresh with
        | none => pure none
        | some _ => healthFrom fuel (i + 1)
      | some j =>
        if !(← sendMsg i j .ping) then
          nodeConnClose i j
          noteDown i false
          match ← vcClusterRefresh with
          | none => pure none
          | some _ => healthFrom fuel (i + 1)
        else
          let _ ← readReply i j
          noteUp i
          nodeConnRelease i j
          healthFrom fuel (i + 1)

def healthRound : ClusterProg (Option Unit) := healthFrom vcClusterMaxNodes 0

inductive VcClusterErr where
  | noNode | net
  deriving DecidableEq, Repr

/-- The first node from `j` on that is alive. -/
def firstAlive : Nat → Nat → ClusterProg (Option Nat)
  | 0, _ => pure none
  | fuel + 1, j => do
    match ← readAlive j with
    | none => pure none
    | some true => pure (some j)
    | some false => firstAlive fuel (j + 1)

/-- The node that an attempt for node `ni` goes to. -/
def chooseNode (ni : Nat) : ClusterProg (Option Nat) := do
  match ← readAlive ni with
  | none => pure none
  | some true => pure (some ni)
  | some false =>
    let node := (← firstAlive vcClusterMaxNodes 0).getD ni
    match ← readAlive node with
    | some true => pure (some node)
    | _ => pure none

/-- How an attempt ends; `broken` stands for a write outside an array. -/
inductive Attempt where
  | done (reply : List UInt8)
  | again (ni : Int)
  | broken

/-- `strncmp(rep, "MOVED ", 6) == 0` -/
def isMoved (rep : List UInt8) : Bool := str "MOVED " <+: rep

/-- The address in `MOVED <slot> <host>:<port>`. -/
def movedAddr (rep : List UInt8) : Option (List UInt8 × Nat) :=
  match (cstr (rep.drop 6)).dropWhile (· ≠ 32) with
  | [] => none
  | _ :: addr => parseHostport addr

/-- One attempt to have node `ni` execute the command. -/
def cmdAttempt (cmd : List UInt8) (ni : Nat) : ClusterProg Attempt := do
  match ← connGet ni with
  | none =>
    setAlive ni false
    pure (.again ni)
  | some j =>
    if !(← sendMsg ni j (.cmd cmd)) then
      nodeConnClose ni j
      setAlive ni false
      pure (.again ni)
    else
      let rep ← readReply ni j
      nodeConnRelease ni j
      match rep with
      | none =>
        setAlive ni false
        pure (.again ni)
      | some rep =>
        if isMoved rep then
          match movedAddr rep with
          | none => pure (.again ni)
          | some (host, port) =>
            let ni ← findOrAdd host port
            match ← vcClusterRefresh with
            | none => pure .broken
            | some _ => pure (.again ni)
        else pure (.done rep)

def vcClusterMaxRetries : Nat := 3

/-- The retry loop of `vc_cluster_cmd`. -/
def cmdLoop (cmd : List UInt8) : Nat → Int → ClusterProg (Option (Except VcClusterErr (List UInt8)))
  | 0, _ => pure (some (.error .net))
  | n + 1, ni =>
    if ni < 0 then pure (some (.error .noNode))
    else do
      match ← chooseNode ni.toNat with
      | none => pure (some (.error .noNode))
      | some node =>
        match ← cmdAttempt cmd node with
        | .done rep => pure (some (.ok rep))
        | .again ni => cmdLoop cmd n ni
        | .broken => pure none

/-- The slot of a key; commands without a key go to the first one. -/
def slotOf (key : Option (List UInt8)) : Nat := key.elim 0 vcKeySlot

def vcClusterCmd (key : Option (List UInt8)) (cmd : List UInt8) :
    ClusterProg (Option (Except VcClusterErr (List UInt8))) := do
  let ni ← vcClusterNodeForSlot (slotOf key)
  if ni < 0 then pure (some (.error .noNode)) else cmdLoop cmd vcClusterMaxRetries ni

end VoidCache
