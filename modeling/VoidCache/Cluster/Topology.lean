import VoidCache.Cluster.Slots
import VoidCache.Cluster.Socket
import VoidCache.Net.Handlers

/-!
# The topology of a cluster

The nodes that the client knows, the map from slots to nodes, and the part of
`vc_cluster_refresh` that reads them from the reply to `CLUSTER SLOTS`. The server and this
reader disagree on what the array around an address counts, so a refresh from a server of this
repository never leads to its address (`slots_reply_misread`).
-/
namespace VoidCache

def vcClusterMaxNodes : Nat := 64
def vcClusterMaxConns : Nat := 8

/-- A connection of a pool. Of the replies to the commands that its node has received, `unread`
is what has not been read yet. -/
structure NodeConn where
  isOpen : Bool
  inUse : Bool
  unread : List UInt8
  deriving DecidableEq, Repr

def NodeConn.closed : NodeConn := ⟨false, false, []⟩

structure Node where
  host : List UInt8
  port : Nat
  alive : Bool
  lastSeenNs : Int
  backoffNs : Int
  conns : Nat → NodeConn

/-- `cl->nodes[0 .. node_count - 1]`, the map with -1 for a slot without node, and the credentials. -/
structure Cluster where
  nodes : List Node
  nodes_le : nodes.length ≤ vcClusterMaxNodes
  slotMap : Nat → Int
  username : List UInt8
  password : List UInt8

/-! ## Nodes -/

/-- `atoi`, as a cast of what `strtol` returns. -/
def atoi (s : List UInt8) : Int := toInt32 (atoll s)

/-- `(uint16_t)` of a number in a text. -/
def portOf (s : List UInt8) : Nat := (atoll s % 2 ^ 16).toNat

/-- `parse_hostport` into a host of 64 bytes. -/
def parseHostport (s : List UInt8) : Option (List UInt8 × Nat) :=
  let s := cstr s
  let port := (s.reverse.takeWhile (· ≠ 58)).reverse
  let host := s.take (s.length - port.length - 1)
  if 58 ∉ s ∨ 64 ≤ host.length ∨ portOf port = 0 then none else some (host, portOf port)

def newNode (host : List UInt8) (port : Nat) : Node where
  host := host.take 63
  port := port
  alive := true
  lastSeenNs := 0
  backoffNs := 100000000
  conns := fun _ => .closed

def nodeFindOrAdd (cl : Cluster) (host : List UInt8) (port : Nat) : Int × Cluster :=
  match cl.nodes.findIdx? fun n => n.port = port ∧ n.host = host with
  | some i => (i, cl)
  | none =>
    if h : vcClusterMaxNodes ≤ cl.nodes.length then (-1, cl)
    else
      (cl.nodes.length,
        { cl with
          nodes := cl.nodes ++ [newNode host port]
          nodes_le := by rw [List.length_append]; exact Nat.lt_of_not_le h })

/-! ## Reading the slots -/

/-- One address, whose first line is in `l`: its host and port, the buffer and the rest of the
stream. `junk` is what `tmp` and `hbuf` hold before they are written, and `none` stands for a
write past the end of `hbuf`. -/
def readAddr (junk l s : List UInt8) : Option (List UInt8 × Nat × List UInt8 × List UInt8) :=
  if l.headD 0 = 42 then
    let t := sockReadline 256 junk s
    let hlen := (atoll t.buf.tail % 2 ^ 64).toNat
    let r := sockReadn ((hlen + 2) % 2 ^ 64) t.rest
    if 256 < r.got.length ∨ 256 ≤ hlen then none
    else
      let hbuf := r.got ++ junk.drop r.got.length
      let p := sockReadline 256 t.buf r.rest
      some ((cstr (hbuf.take hlen)).take 63, portOf p.buf.tail, l, p.rest)
  else
    let p := sockReadline 256 l s
    some ((cstr l.tail).take 63, portOf p.buf.tail, p.buf, p.rest)

/-- The addresses of a range. The first one that gets a node owns the range, if it comes first. -/
def readAddrs (junk : List UInt8) :
    Nat → Bool → Cluster → Int → List UInt8 → List UInt8 → Option (Cluster × Int × List UInt8)
  | 0, _, cl, owner, _, s => some (cl, owner, s)
  | n + 1, first, cl, owner, l, s =>
    let a := sockReadline 256 l s
    if !a.ok then some (cl, owner, a.rest)
    else
      match readAddr junk a.buf a.rest with
      | none => none
      | some (host, port, l, s) =>
        let (idx, cl) := nodeFindOrAdd cl host port
        readAddrs junk n false cl (if 0 ≤ idx ∧ first then idx else owner) l s

def Cluster.assign (cl : Cluster) (slotStart slotEnd owner : Int) : Cluster :=
  let s := if 0 < slotStart then slotStart else 0
  let e := if slotEnd < vcClusterSlots then slotEnd else vcClusterSlots - 1
  { cl with slotMap := fun k => if s ≤ k ∧ k ≤ e then owner else cl.slotMap k }

/-- What a range leaves, and whether the loop over the ranges goes on. -/
structure RangeRead where
  cl : Cluster
  rest : List UInt8
  goesOn : Bool

/-- One range: two slots and its addresses. A line before them that cannot be read is the last. -/
def readRange (junk : List UInt8) (cl : Cluster) (s : List UInt8) : Option RangeRead :=
  let l1 := sockReadline 256 junk s
  if !l1.ok then some ⟨cl, l1.rest, false⟩
  else
    let l2 := sockReadline 256 l1.buf l1.rest
    if !l2.ok then some ⟨cl, l2.rest, false⟩
    else
      let l3 := sockReadline 256 l2.buf l2.rest
      if !l3.ok then some ⟨cl, l3.rest, false⟩
      else
        let l4 := sockReadline 256 l3.buf l3.rest
        if !l4.ok then some ⟨cl, l4.rest, false⟩
        else
          (readAddrs junk (atoi l4.buf.tail).toNat true cl (-1) l4.buf l4.rest).map
            fun (cl, owner, s) =>
              ⟨if 0 ≤ owner then cl.assign (atoi l2.buf.tail) (atoi l3.buf.tail) owner else cl, s, true⟩

def readRanges (junk : List UInt8) : Nat → Cluster → List UInt8 → Option (Cluster × List UInt8)
  | 0, cl, s => some (cl, s)
  | r + 1, cl, s =>
    match readRange junk cl s with
    | none => none
    | some range => if range.goesOn then readRanges junk r range.cl range.rest else some (range.cl, range.rest)

/-- What `vc_cluster_refresh` does with the map after the header. -/
def readSlots (junk : List UInt8) (cl : Cluster) (nranges : Int) (s : List UInt8) :
    Option (Cluster × List UInt8) :=
  readRanges junk nranges.toNat { cl with slotMap := fun _ => -1 } s

/-- All that `vc_cluster_refresh` reads when it returns 0: the cluster and the rest of the stream. -/
def readTopology (junk : List UInt8) (cl : Cluster) (s : List UInt8) : Option (Cluster × List UInt8) :=
  let h := sockReadline 256 junk s
  if !h.ok ∨ h.buf.headD 0 ≠ 42 then none else readSlots junk cl (atoi h.buf.tail) h.rest

/-! ## The reply of the server -/

section Find

variable {cl : Cluster} {host : List UInt8} {port : Nat}

/-- Nodes are only added, at the end. -/
theorem nodeFindOrAdd_keeps (cl : Cluster) (host : List UInt8) (port : Nat) {i : Nat} {n : Node}
    (h : cl.nodes[i]? = some n) : (nodeFindOrAdd cl host port).2.nodes[i]? = some n := by
  unfold nodeFindOrAdd
  split
  · exact h
  · split_ifs
    · exact h
    · exact List.getElem?_append_left (List.getElem?_eq_some_iff.mp h).1 ▸ h

theorem nodeFindOrAdd_slotMap (cl : Cluster) (host : List UInt8) (port : Nat) :
    (nodeFindOrAdd cl host port).2.slotMap = cl.slotMap := by
  unfold nodeFindOrAdd
  split
  · rfl
  · split_ifs <;> rfl

/-- A node that was found or added has the host and the port. -/
theorem nodeFindOrAdd_node (hhost : host.length ≤ 63) (h : 0 ≤ (nodeFindOrAdd cl host port).1) :
    ∃ n, (nodeFindOrAdd cl host port).2.nodes[(nodeFindOrAdd cl host port).1.toNat]? = some n ∧
      n.host = host ∧ n.port = port := by
  unfold nodeFindOrAdd at h ⊢
  cases hfind : cl.nodes.findIdx? fun n => n.port = port ∧ n.host = host with
  | some i =>
    obtain ⟨hi, hp, -⟩ := List.findIdx?_eq_some_iff_getElem.mp hfind
    have hpair : cl.nodes[i].port = port ∧ cl.nodes[i].host = host := by simpa using hp
    exact ⟨cl.nodes[i], by simp [hi], hpair.2, hpair.1⟩
  | none =>
    rw [hfind] at h
    dsimp only at h ⊢
    split_ifs at h ⊢
    · simp at h
    · exact ⟨newNode host port, by simp, by simp [newNode, List.take_of_length_le hhost], rfl⟩

theorem nodeFindOrAdd_index (cl : Cluster) (host : List UInt8) (port : Nat) :
    (nodeFindOrAdd cl host port).1 = -1 ∨ 0 ≤ (nodeFindOrAdd cl host port).1 := by
  unfold nodeFindOrAdd
  split
  · exact .inr (by simp)
  · split_ifs
    · exact .inl rfl
    · exact .inr (by simp)

end Find

/-- The slot is mapped to a node with this host and port. -/
def Cluster.RoutesTo (cl : Cluster) (slot : Nat) (host : List UInt8) (port : Nat) : Prop :=
  ∃ n, 0 ≤ cl.slotMap slot ∧ cl.nodes[(cl.slotMap slot).toNat]? = some n ∧ n.host = host ∧ n.port = port

/-- What the server writes for `CLUSTER SLOTS`. -/
def slotsReply (srv : Srv) : List UInt8 :=
  respWriteArrayHeader 1 ++ respWriteArrayHeader 3 ++ respWriteInteger 0 ++
    respWriteInteger 16383 ++ respWriteArrayHeader 2 ++ respWriteBulk (announced srv) ++
    respWriteInteger srv.port

theorem cmdCluster_slots (srv : Srv) (conn : Conn) :
    cmdCluster srv conn [str "CLUSTER", str "SLOTS"] = conn.answer (slotsReply srv) := rfl

/-- The lines of the reply, as the client reads them. -/
theorem slotsReply_lines (srv : Srv) (more : List UInt8) :
    slotsReply srv ++ more = 42 :: decimal 1 ++ crlf ++ (42 :: decimal 3 ++ crlf ++
      (58 :: decimal 0 ++ crlf ++ (58 :: decimal 16383 ++ crlf ++ (42 :: decimal 2 ++ crlf ++
        (36 :: decimal (announced srv).length ++ crlf ++ (announced srv ++ crlf ++
          (58 :: decimal srv.port ++ crlf ++ more))))))) := by
  have h0 : decimalInt 0 = decimal 0 := rfl
  have hend : decimalInt 16383 = decimal 16383 := rfl
  have hport : decimalInt srv.port = decimal srv.port := by simp [decimalInt]
  simp only [slotsReply, respWriteArrayHeader, respWriteInteger, respWriteBulk, h0, hend, hport,
    List.append_assoc, List.cons_append]

theorem atoi_line (c : UInt8) {n : Nat} (hn : n < 2 ^ 31) (tl : List UInt8) :
    atoi (c :: decimal n ++ 0 :: tl).tail = n := by
  have hzero : ∀ b ∈ (0 :: tl).head?, isDigit b = false := by
    rintro b ⟨⟩
    decide
  show atoi (decimal n ++ 0 :: tl) = n
  rw [atoi, atoll, strtoll_decimal_append (by omega) hzero, toInt32]
  dsimp only
  split_ifs <;> omega

/-- A line that the client has room for when it reads the map. -/
def ShortLine (line : List UInt8) : Prop := NoCrlf line ∧ line.length + 2 < 256

theorem ShortLine.decimal {c : UInt8} (hc : c ≠ 13) {n : Nat} (hn : n < 2 ^ 63) :
    ShortLine (c :: decimal n) := by
  have hdec : (VoidCache.decimal n).length ≤ 19 := length_decimal_le (by decide) (by omega)
  exact ⟨noCrlf_of_plain (cr_notMem_decimal hc n), by simp; omega⟩

theorem ShortLine.read {line : List UInt8} (h : ShortLine line) (buf rest : List UInt8) :
    sockReadline 256 buf (line ++ crlf ++ rest) =
      ⟨true, line ++ 0 :: 10 :: buf.drop (line.length + 2), rest⟩ :=
  sockReadline_line buf rest h.2 h.1

/-- The four lines of a range before its addresses. -/
theorem readRange_short {a b c : List UInt8} (ha : ShortLine a) (hb : ShortLine b) (hc : ShortLine c)
    {t : UInt8} (ht : t ≠ 13) {n : Nat} (hn : n < 2 ^ 31) (junk : List UInt8) (cl : Cluster)
    (rest : List UInt8) :
    ∃ l x y, readRange junk cl (a ++ crlf ++ (b ++ crlf ++ (c ++ crlf ++ (t :: decimal n ++ crlf ++ rest)))) =
      (readAddrs junk n true cl (-1) l rest).map fun (cl, owner, s) =>
        ⟨if 0 ≤ owner then cl.assign (atoi (b ++ 0 :: x).tail) (atoi (c ++ 0 :: y).tail) owner else cl,
          s, true⟩ := by
  have ht := (ShortLine.decimal ht (lt_trans hn (by decide))).read
  unfold readRange
  simp only [ha.read, hb.read, hc.read, ht, Bool.not_true, Bool.false_eq_true, if_false, atoi_line _ hn,
    Int.toNat_natCast]
  exact ⟨_, _, _, rfl⟩

theorem readRange_lines {k a b n : Nat} (hk : k < 2 ^ 63) (ha : a < 2 ^ 31) (hb : b < 2 ^ 31)
    (hn : n < 2 ^ 31) (junk : List UInt8) (cl : Cluster) (rest : List UInt8) :
    ∃ l, readRange junk cl (42 :: decimal k ++ crlf ++ (58 :: decimal a ++ crlf ++
        (58 :: decimal b ++ crlf ++ (42 :: decimal n ++ crlf ++ rest)))) =
      (readAddrs junk n true cl (-1) l rest).map fun (cl, owner, s) =>
        ⟨if 0 ≤ owner then cl.assign a b owner else cl, s, true⟩ := by
  obtain ⟨l, x, y, h⟩ := readRange_short (.decimal (c := 42) (by decide) hk)
    (.decimal (c := 58) (by decide) (lt_trans ha (by decide)))
    (.decimal (c := 58) (by decide) (lt_trans hb (by decide))) (t := 42) (by decide) hn junk cl rest
  rw [atoi_line _ ha, atoi_line _ hb] at h
  exact ⟨l, h⟩

/-- Up to the address, the client reads what the server means. -/
theorem readTopology_slotsReply (srv : Srv) (junk : List UInt8) (cl : Cluster) (more : List UInt8) :
    ∃ l, readTopology junk cl (slotsReply srv ++ more) =
      (readAddrs junk 2 true { cl with slotMap := fun _ => -1 } (-1) l
        (36 :: decimal (announced srv).length ++ crlf ++ (announced srv ++ crlf ++
          (58 :: decimal srv.port ++ crlf ++ more)))).map fun (cl, owner, s) =>
        (if 0 ≤ owner then cl.assign 0 16383 owner else cl, s) := by
  obtain ⟨l, hl⟩ := readRange_lines (k := 3) (a := 0) (b := 16383) (n := 2) (by decide) (by decide)
    (by decide) (by decide) junk { cl with slotMap := fun _ => -1 }
    (36 :: decimal (announced srv).length ++ crlf ++ (announced srv ++ crlf ++
      (58 :: decimal srv.port ++ crlf ++ more)))
  refine ⟨l, ?_⟩
  rw [slotsReply_lines, readTopology, (ShortLine.decimal (by decide) (by decide)).read]
  dsimp only
  rw [if_neg (by simp), atoi_line _ (by decide), readSlots, Int.toNat_natCast]
  unfold readRanges
  rw [hl]
  cases readAddrs junk 2 true { cl with slotMap := fun _ => -1 } (-1) l _ with
  | none => rfl
  | some x => rfl

/-- A line that does not start an array is the host of an address, and the next line its port. -/
theorem readAddrs_plain (junk l s : List UInt8) {host : List UInt8} (cl : Cluster) (owner : Int)
    (first : Bool) (n : Nat) (hstar : host.headD 0 ≠ 42) (hline : ShortLine host) :
    ∃ buf, readAddrs junk (n + 1) first cl owner l (host ++ crlf ++ s) =
      let p := sockReadline 256 (host ++ 0 :: buf) s
      let node := nodeFindOrAdd cl ((cstr (host ++ 0 :: buf).tail).take 63) (portOf p.buf.tail)
      readAddrs junk n false node.2 (if 0 ≤ node.1 ∧ first then node.1 else owner) p.buf p.rest := by
  refine ⟨10 :: l.drop (host.length + 2), ?_⟩
  have hhead : (host ++ 0 :: 10 :: l.drop (host.length + 2)).headD 0 ≠ 42 := by
    cases host with
    | nil => exact (by decide : (0 : UInt8) ≠ 42)
    | cons c text => exact hstar
  rw [readAddrs, hline.read]
  dsimp only
  rw [if_neg (by decide), readAddr, if_neg hhead]

/-- The two elements of an address are taken for two addresses, the length of the host for the
host of the first, and the host for its port. -/
theorem readAddrs_pair (junk l rest : List UInt8) (cl : Cluster) {host port : List UInt8} (hno : NoCrlf host)
    (hlen : host.length < 64) (hport : NoCrlf (58 :: port)) (hplen : port.length < 64) :
    ∃ (buf : List UInt8) (cl' : Cluster) (s : List UInt8),
      let node := nodeFindOrAdd cl (decimal host.length) (portOf (host ++ 0 :: buf).tail)
      readAddrs junk 2 true cl (-1) l
          (36 :: decimal host.length ++ crlf ++ (host ++ crlf ++ (58 :: port ++ crlf ++ rest))) =
        some (cl', node.1, s) ∧ cl'.slotMap = cl.slotMap ∧
      ∀ (i : Nat) n, node.2.nodes[i]? = some n → cl'.nodes[i]? = some n := by
  have hdec : (decimal host.length).length ≤ 2 := length_decimal_le (by decide) (by omega)
  have hnum : ∀ b ∈ decimal host.length, b ≠ 0 := by
    rintro b hb rfl
    exact absurd (isDigit_of_mem_decimal hb) (by decide)
  have hlenline : ShortLine (36 :: decimal host.length) := .decimal (by decide) (by omega)
  obtain ⟨b1, h1⟩ := readAddrs_plain junk l (host ++ crlf ++ (58 :: port ++ crlf ++ rest)) cl (-1) true 1
    (by simp) hlenline
  have hhost : cstr (36 :: decimal host.length ++ 0 :: b1).tail = decimal host.length :=
    cstr_append_zero (fun h0 => hnum 0 h0 rfl) _
  rw [h1, sockReadline_line _ _ (by omega) hno, hhost, List.take_of_length_le (by omega)]
  dsimp only
  generalize hbuf : 10 :: List.drop (host.length + 2) (36 :: decimal host.length ++ 0 :: b1) = buf
  refine ⟨buf, ?_⟩
  have howner := nodeFindOrAdd_index cl (decimal host.length) (portOf (host ++ 0 :: buf).tail)
  have hslots := nodeFindOrAdd_slotMap cl (decimal host.length) (portOf (host ++ 0 :: buf).tail)
  generalize nodeFindOrAdd cl (decimal host.length) (portOf (host ++ 0 :: buf).tail) = node at howner hslots ⊢
  have hidx : (if 0 ≤ node.1 ∧ true = true then node.1 else -1) = node.1 := by
    rcases howner with h | h <;> simp [h]
  obtain ⟨b2, h2⟩ := readAddrs_plain junk (host ++ 0 :: buf) rest node.2 node.1 false 0 (by simp)
    ⟨hport, by simp; omega⟩
  rw [hidx, h2]
  simp only [readAddrs, Bool.false_eq_true, and_false, if_false]
  exact ⟨_, _, rfl, (nodeFindOrAdd_slotMap _ _ _).trans hslots, fun i n hi => nodeFindOrAdd_keeps _ _ _ hi⟩

/-- A host that is the text of its own length is `1`. -/
theorem eq_one_of_decimal_length {host : List UInt8} (hne : host ≠ []) (hlen : host.length < 64)
    (h : host = decimal host.length) : host = [49] := by
  have hdec : (decimal host.length).length ≤ 2 := length_decimal_le (by decide) (by omega)
  have hpos : 0 < host.length := List.length_pos_iff.mpr hne
  generalize hn : host.length = n at h hdec hpos
  have hlen' : (decimal n).length = n := by rw [← h, hn]
  obtain rfl | rfl : n = 1 ∨ n = 2 := by omega
  · rw [h]
    decide
  · exact absurd hlen' (by decide)

theorem portOf_zero (tl : List UInt8) : portOf (0 :: tl) = 0 := by
  have hspace : isSpace 0 = false := by decide
  have hdigit : isDigit 0 = false := by decide
  simp [portOf, atoll, strtoll, signOf, hspace, hdigit]

/-- The client takes the reply of the server to be about its address. -/
def Adopted (srv : Srv) (junk : List UInt8) (cl : Cluster) (reply more : List UInt8) : Prop :=
  ∃ cl', readTopology junk cl (reply ++ more) = some (cl', more) ∧
    ∀ slot < vcClusterSlots, cl'.RoutesTo slot (announced srv) srv.port

/-- Whatever the server announces, a refresh from its reply does not lead to it. -/
theorem slots_reply_misread {srv : Srv} {conn : Conn} {h : Host} {reply : List UInt8}
    (hreply : ((cmdCluster srv conn [str "CLUSTER", str "SLOTS"]).run hostExec h).2 = some ⟨conn, reply⟩)
    (hne : announced srv ≠ []) (hplain : ∀ b ∈ announced srv, b ≠ 13 ∧ b ≠ 10 ∧ b ≠ 0)
    (hlen : (announced srv).length < 64) (hport : 1 ≤ srv.port ∧ srv.port ≤ 65535)
    (junk : List UInt8) (cl : Cluster) (more : List UInt8) : ¬ Adopted srv junk cl reply more := by
  obtain rfl : slotsReply srv = reply := by
    rw [cmdCluster_slots, run_answer] at hreply
    simpa using hreply
  rintro ⟨cl', hread, hall⟩
  have hno : NoCrlf (announced srv) := noCrlf_of_plain fun b hb => (hplain b hb).1
  have hdec : (decimal srv.port).length ≤ 5 := length_decimal_le (by decide) (by omega)
  obtain ⟨l, htop⟩ := readTopology_slotsReply srv junk cl more
  obtain ⟨buf, cl₁, s, haddrs, hslots, hkeeps⟩ := readAddrs_pair junk l more
    { cl with slotMap := fun _ => -1 } hno hlen
    (noCrlf_of_plain (cr_notMem_decimal (by decide) srv.port)) (by omega)
  rw [htop, haddrs, Option.map_some, Option.some.injEq, Prod.mk.injEq] at hread
  obtain ⟨n, hmapped, hnode, hhost, hnport⟩ := hall 0 (by decide)
  by_cases howner : 0 ≤ (nodeFindOrAdd { cl with slotMap := fun _ => -1 }
      (decimal (announced srv).length) (portOf (announced srv ++ 0 :: buf).tail)).1
  · -- all slots are mapped to a node whose host is a length
    obtain ⟨m, hm, hmhost, hmport⟩ := nodeFindOrAdd_node
      ((length_decimal_le (by decide) (lt_trans hlen (by decide) : _ < 10 ^ 2)).trans (by decide)) howner
    rw [if_pos howner] at hread
    obtain ⟨rfl, -⟩ := hread
    have hsame : some m = some n := (hkeeps _ m hm).symm.trans hnode
    obtain rfl := Option.some.inj hsame
    have hone := eq_one_of_decimal_length hne hlen (hhost.symm.trans hmhost)
    rw [hone] at hmport
    exact absurd (hmport.symm.trans hnport) (by rw [List.singleton_append, List.tail_cons, portOf_zero]; omega)
  · rw [if_neg howner] at hread
    obtain ⟨rfl, -⟩ := hread
    rw [hslots] at hmapped
    exact absurd hmapped (by simp)

/-- A cluster that knows one node and has no map yet. -/
def seedCluster : Cluster where
  nodes := [newNode (str "127.0.0.1") 6379]
  nodes_le := Nat.succ_le_succ (Nat.zero_le _)
  slotMap := fun _ => -1
  username := []
  password := []

theorem default_address_misread :
    ((cmdCluster openServer freshConn [str "CLUSTER", str "SLOTS"]).run hostExec
        (quietHost (newCache none 8))).2 = some ⟨freshConn, slotsReply openServer⟩ ∧
      ¬ Adopted openServer [] seedCluster (slotsReply openServer) [] := by
  have hreply : ((cmdCluster openServer freshConn [str "CLUSTER", str "SLOTS"]).run hostExec
      (quietHost (newCache none 8))).2 = some ⟨freshConn, slotsReply openServer⟩ := rfl
  exact ⟨hreply, slots_reply_misread hreply (by decide +kernel) (by decide +kernel) (by decide +kernel)
    (by decide +kernel) [] seedCluster []⟩

/-- The server at `127.0.0.1:6379` becomes the node `9:27`. -/
theorem slots_lead_elsewhere :
    (readTopology [] seedCluster (slotsReply openServer)).map (fun r =>
        (r.1.nodes.map fun n => (n.host, n.port), r.1.slotMap 0)) =
      some ([(str "127.0.0.1", 6379), (str "9", 27), (str "6379", 6379)], 1) ∧
    ¬ Adopted openServer [] seedCluster (slotsReply openServer) [] := by
  have hread : (readTopology [] seedCluster (slotsReply openServer)).map (fun r =>
      (r.1.nodes.map fun n => (n.host, n.port), r.1.slotMap 0)) =
      some ([(str "127.0.0.1", 6379), (str "9", 27), (str "6379", 6379)], 1) := by decide +kernel
  refine ⟨hread, ?_⟩
  rintro ⟨cl', hcl, hall⟩
  obtain ⟨n, -, hnode, hhost, -⟩ := hall 0 (by decide)
  rw [List.append_nil] at hcl
  rw [hcl, Option.map_some, Option.some.injEq, Prod.mk.injEq] at hread
  have hpair : (cl'.nodes.map fun n => (n.host, n.port))[1]? = some (n.host, n.port) := by
    rw [List.getElem?_map]
    rw [hread.2] at hnode
    rw [show cl'.nodes[1]? = some n from hnode]
    rfl
  rw [hread.1, hhost] at hpair
  have hnine : str "9" = announced openServer := by simpa using congrArg (Option.map Prod.fst) hpair
  exact absurd hnine (by decide)

end VoidCache
