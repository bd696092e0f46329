import VoidCache.Cluster.InStep
import VoidCache.Cluster.TopologyStores
import VoidCache.Lib.BoundedTable
import VoidCache.Lib.Words
import Mathlib.Logic.Relation

/-!
# The routing table

The nodes and the slot map of a client, from `vc_cluster_connect` on. `ClientStep` is one step of
the client: an access of `vc_cluster_connect`, and then an access of a call that a thread is in, or the
beginning or end of a call. Any number of threads make calls at the same time, the health check among
them, and the replies may be any bytes whose hosts have room. Whatever has happened, nodes have only
been added, no two of them have the same address, and the map leads to nodes that exist
(`routing_table_sound`).

An access to a node is proper once the thread has seen that there is such a node, as nodes do not go
away. So what a thread has seen is the state of a protocol, and what others do does not matter.

`node_find_or_add` is one access. In a refresh it runs under the lock of the map; the handling of MOVED
calls it without, and `not_nodup_of_both_looked` says what becomes of the table if two threads look for
an address before either of them adds it.
-/
namespace VoidCache

/-! ## The table -/

def Node.addr (n : Node) : List UInt8 × Nat := (n.host, n.port)

def Cluster.addrs (cl : Cluster) : List (List UInt8 × Nat) := cl.nodes.map Node.addr

/-- -1, or the index of a node. -/
def Cluster.HasIndex (cl : Cluster) (idx : Int) : Prop := idx = -1 ∨ 0 ≤ idx ∧ idx < cl.nodes.length

structure Cluster.Table (cl : Cluster) : Prop where
  count : cl.nodes.length ≤ vcClusterMaxNodes
  distinct : cl.addrs.Nodup
  mapped : ∀ slot, cl.HasIndex (cl.slotMap slot)

@[simp] theorem Cluster.length_addrs (cl : Cluster) : cl.addrs.length = cl.nodes.length :=
  List.length_map ..

/-- An index stays one when nodes are added. -/
theorem Cluster.HasIndex.of_addrs {cl cl' : Cluster} {idx : Int} (h : cl.HasIndex idx)
    (haddrs : cl.addrs <+: cl'.addrs) : cl'.HasIndex idx := by
  have hlen := haddrs.length_le
  rw [cl.length_addrs, cl'.length_addrs] at hlen
  unfold HasIndex at h ⊢
  omega

/-- An index fits in the `int8_t` of a map entry. -/
theorem Cluster.HasIndex.toInt8 {cl : Cluster} {idx : Int} (h : cl.HasIndex idx) : idx.bmod 256 = idx := by
  have hlen : cl.nodes.length ≤ 64 := cl.nodes_le
  unfold HasIndex at h
  exact Int.bmod_eq_of_le (by omega) (by omega)

@[simp] theorem addrs_mark (cl : Cluster) (marks : Nat → Option Bool) : (cl.mark marks).addrs = cl.addrs := by
  refine List.ext_getElem? fun i => ?_
  simp only [Cluster.addrs, Cluster.mark, List.getElem?_map, List.getElem?_mapIdx]
  cases cl.nodes[i]? <;> rfl

theorem addrs_modifyNode (cl : Cluster) (i : Nat) {f : Node → Node} (hf : ∀ n, (f n).addr = n.addr) :
    (cl.modifyNode i f).addrs = cl.addrs := by
  refine List.ext_getElem? fun k => ?_
  simp only [Cluster.addrs, Cluster.modifyNode, List.getElem?_map, List.getElem?_modify]
  cases cl.nodes[k]? with
  | none => rfl
  | some n =>
    by_cases h : i = k
    · simp [h, hf]
    · simp [h]

@[simp] theorem addrs_setConn (cl : Cluster) (i j : Nat) (c : NodeConn) :
    (cl.setConn i j c).addrs = cl.addrs := addrs_modifyNode cl i fun _ => rfl

/-- From one table to the next: nodes may be added, and the table stays in order. -/
structure Cluster.Advances (cl cl' : Cluster) : Prop where
  addrs : cl.addrs <+: cl'.addrs
  table : cl.Table → cl'.Table

namespace Cluster.Advances

variable {cl cl' cl'' : Cluster}

theorem refl (cl : Cluster) : cl.Advances cl := ⟨List.prefix_rfl, id⟩

theorem trans (h : cl.Advances cl') (h' : cl'.Advances cl'') : cl.Advances cl'' :=
  ⟨h.addrs.trans h'.addrs, fun ht => h'.table (h.table ht)⟩

theorem length_le (h : cl.Advances cl') : cl.nodes.length ≤ cl'.nodes.length := by
  simpa using h.addrs.length_le

/-- Addresses and map are as before. -/
theorem of_same (haddrs : cl'.addrs = cl.addrs) (hmap : cl'.slotMap = cl.slotMap) : cl.Advances cl' := by
  refine ⟨haddrs ▸ List.prefix_rfl, fun ht => ⟨cl'.nodes_le, haddrs ▸ ht.distinct, fun slot => ?_⟩⟩
  rw [hmap]
  exact (ht.mapped slot).of_addrs (haddrs ▸ List.prefix_rfl)

theorem mark (cl : Cluster) (marks : Nat → Option Bool) : cl.Advances (cl.mark marks) :=
  .of_same (addrs_mark cl marks) rfl

theorem modifyNode (cl : Cluster) (i : Nat) {f : Node → Node} (hf : ∀ n, (f n).addr = n.addr) :
    cl.Advances (cl.modifyNode i f) := .of_same (addrs_modifyNode cl i hf) rfl

theorem setConn (cl : Cluster) (i j : Nat) (c : NodeConn) : cl.Advances (cl.setConn i j c) :=
  .of_same (addrs_setConn cl i j c) rfl

end Cluster.Advances

/-! ## What changes the table -/

theorem length_added_le {cl : Cluster} (host : List UInt8) (port : Nat)
    (h : ¬ vcClusterMaxNodes ≤ cl.nodes.length) :
    (cl.nodes ++ [newNode host port]).length ≤ vcClusterMaxNodes := by
  rw [List.length_append]
  exact Nat.lt_of_not_le h

/-- `node_find_or_add` from its second half on, for an address that it has not found. -/
def nodeAdd (cl : Cluster) (host : List UInt8) (port : Nat) : Int × Cluster :=
  if h : vcClusterMaxNodes ≤ cl.nodes.length then (-1, cl)
  else
    (cl.nodes.length,
      { cl with nodes := cl.nodes ++ [newNode host port], nodes_le := length_added_le host port h })

theorem nodeFindOrAdd_of_new {cl : Cluster} {host : List UInt8} {port : Nat}
    (hnew : (cl.nodes.findIdx? fun n => n.port = port ∧ n.host = host) = none) :
    nodeFindOrAdd cl host port = nodeAdd cl host port := by
  rw [nodeFindOrAdd, hnew]
  rfl

theorem nodeAdd_addrs {cl : Cluster} (hroom : cl.nodes.length < vcClusterMaxNodes) {host : List UInt8}
    (hhost : host.length ≤ 63) (port : Nat) : (nodeAdd cl host port).2.addrs = cl.addrs ++ [(host, port)] := by
  rw [nodeAdd, dif_neg (Nat.not_le.mpr hroom)]
  simp [Cluster.addrs, Node.addr, newNode, List.take_of_length_le hhost]

/-- The index of an address in the table, or -1 if it has no place. -/
def IndexIn (t : List (List UInt8 × Nat)) (x : List UInt8 × Nat) (idx : Int) : Prop :=
  (0 ≤ idx ∧ t[idx.toNat]? = some x) ∨ (x ∉ t ∧ idx = -1)

/-- `node_find_or_add` gives the address a place, if there is one, and returns it. -/
theorem nodeFindOrAdd_place (cl : Cluster) {host : List UInt8} (port : Nat) (hhost : host.length ≤ 63) :
    (nodeFindOrAdd cl host port).2.addrs = place vcClusterMaxNodes cl.addrs (host, port) ∧
      IndexIn (nodeFindOrAdd cl host port).2.addrs (host, port) (nodeFindOrAdd cl host port).1 := by
  cases hfind : cl.nodes.findIdx? fun n => n.port = port ∧ n.host = host with
  | some i =>
    have hfound : nodeFindOrAdd cl host port = ((i : Int), cl) := by rw [nodeFindOrAdd, hfind]
    obtain ⟨hi, hp, -⟩ := List.findIdx?_eq_some_iff_getElem.mp hfind
    have haddr : cl.addrs[i]? = some (host, port) := by
      obtain ⟨hport, hhost⟩ : cl.nodes[i].port = port ∧ cl.nodes[i].host = host := by simpa using hp
      simp [Cluster.addrs, Node.addr, hi, hport, hhost]
    rw [hfound]
    exact ⟨(place_of_mem (List.mem_of_getElem? haddr)).symm, .inl ⟨Int.natCast_nonneg i, haddr⟩⟩
  | none =>
    have hnew : (host, port) ∉ cl.addrs := by
      intro hmem
      obtain ⟨n, hn, haddr⟩ := List.mem_map.mp hmem
      cases haddr
      simpa using List.findIdx?_eq_none_iff.mp hfind n hn
    rw [nodeFindOrAdd_of_new hfind]
    by_cases hfull : vcClusterMaxNodes ≤ cl.nodes.length
    · rw [nodeAdd, dif_pos hfull]
      exact ⟨(place_of_full (by simpa using hfull) _).symm, .inr ⟨hnew, rfl⟩⟩
    · have hroom := Nat.lt_of_not_le hfull
      have hidx : (nodeAdd cl host port).1 = cl.nodes.length := by rw [nodeAdd, dif_neg hfull]
      rw [hidx, nodeAdd_addrs hroom hhost port, place_of_new hnew (by simpa using hroom)]
      refine ⟨rfl, .inl ⟨Int.natCast_nonneg _, ?_⟩⟩
      rw [Int.toNat_natCast, ← cl.length_addrs]
      exact List.getElem?_concat_length

theorem IndexIn.hasIndex {cl : Cluster} {x : List UInt8 × Nat} {idx : Int} (h : IndexIn cl.addrs x idx) :
    cl.HasIndex idx := by
  rcases h with ⟨hpos, hx⟩ | ⟨-, hidx⟩
  · have hlt := (List.getElem?_eq_some_iff.mp hx).1
    rw [cl.length_addrs] at hlt
    exact .inr ⟨hpos, by omega⟩
  · exact .inl hidx

/-- When two threads have looked for a new address and then add it one after the other, the table has
it twice. -/
theorem not_nodup_of_both_looked {cl : Cluster} {host : List UInt8} {port : Nat} (hhost : host.length ≤ 63)
    (hnew : (cl.nodes.findIdx? fun n => n.port = port ∧ n.host = host) = none)
    (hroom : cl.nodes.length + 1 < vcClusterMaxNodes) :
    ¬ (nodeAdd (nodeFindOrAdd cl host port).2 host port).2.addrs.Nodup := by
  have hfirst : (nodeAdd cl host port).2.addrs = cl.addrs ++ [(host, port)] :=
    nodeAdd_addrs (Nat.lt_of_succ_lt hroom) hhost port
  have hlength : (nodeAdd cl host port).2.nodes.length = cl.nodes.length + 1 := by
    simpa [Cluster.addrs] using congrArg List.length hfirst
  rw [nodeFindOrAdd_of_new hnew, nodeAdd_addrs (hlength ▸ hroom) hhost, hfirst, List.append_assoc]
  intro hnodup
  exact absurd (List.nodup_append.mp hnodup).2.1 (by simp)

theorem nodeFindOrAdd_advances (cl : Cluster) {host : List UInt8} (port : Nat) (hhost : host.length ≤ 63) :
    cl.Advances (nodeFindOrAdd cl host port).2 := by
  have haddrs := (nodeFindOrAdd_place cl port hhost).1
  have hmore : cl.addrs <+: (nodeFindOrAdd cl host port).2.addrs := haddrs ▸ prefix_place _ _ _
  refine ⟨hmore, fun ht => ⟨(nodeFindOrAdd cl host port).2.nodes_le, haddrs ▸ nodup_place ht.distinct _, ?_⟩⟩
  intro slot
  rw [nodeFindOrAdd_slotMap]
  exact (ht.mapped slot).of_addrs hmore

/-- A host that is read has room in a node. -/
theorem readAddr_host {junk l s l' s' host : List UInt8} {port : Nat}
    (h : readAddr junk l s = some (host, port, l', s')) : host.length ≤ 63 := by
  unfold readAddr at h
  dsimp only at h
  split_ifs at h <;>
  · cases h
    exact List.length_take_le _ _

theorem parseHostport_host {s host : List UInt8} {port : Nat} (h : parseHostport s = some (host, port)) :
    host.length ≤ 63 := by
  unfold parseHostport at h
  dsimp only at h
  split_ifs at h with hbad
  cases h
  exact Nat.le_of_lt_succ (Nat.lt_of_not_le fun hlong => hbad (.inr (.inl hlong)))

theorem movedAddr_host {rep : List UInt8} {addr : List UInt8 × Nat} (h : movedAddr rep = some addr) :
    addr.1.length ≤ 63 := by
  unfold movedAddr at h
  split at h
  · cases h
  · exact parseHostport_host h

namespace Cluster.Advances

variable {cl cl' : Cluster}

theorem readAddrs {junk : List UInt8} {n : Nat} {first : Bool} {owner owner' : Int} {l s s' : List UInt8}
    (h : readAddrs junk n first cl owner l s = some (cl', owner', s')) (howner : cl.HasIndex owner) :
    cl.Advances cl' ∧ cl'.HasIndex owner' := by
  induction n generalizing first cl owner l s with
  | zero =>
    cases h
    exact ⟨refl _, howner⟩
  | succ n ih =>
    unfold VoidCache.readAddrs at h
    dsimp only at h
    split_ifs at h
    · cases h
      exact ⟨refl _, howner⟩
    · split at h
      · cases h
      · rename_i host port l₁ s₁ haddr
        have hadd := nodeFindOrAdd_advances cl port (readAddr_host haddr)
        have hidx := (nodeFindOrAdd_place cl port (readAddr_host haddr)).2.hasIndex
        -- the owner so far, or the node just found
        have howner' : (nodeFindOrAdd cl host port).2.HasIndex
            (if 0 ≤ (nodeFindOrAdd cl host port).1 ∧ first = true then (nodeFindOrAdd cl host port).1
              else owner) := by
          split_ifs
          · exact hidx
          · exact howner.of_addrs hadd.addrs
        obtain ⟨hrest, hlast⟩ := ih h howner'
        exact ⟨hadd.trans hrest, hlast⟩

/-- The slots of a range, whatever its bounds, get an index. -/
theorem assign {owner : Int} (howner : cl.HasIndex owner) (slotStart slotEnd : Int) :
    cl.Advances (cl.assign slotStart slotEnd owner) := by
  refine ⟨List.prefix_rfl, fun ht => ⟨cl.nodes_le, ht.distinct, fun slot => ?_⟩⟩
  unfold Cluster.assign
  dsimp only
  generalize (if 0 < slotStart then slotStart else 0) = s
  generalize (if slotEnd < vcClusterSlots then slotEnd else vcClusterSlots - 1) = e
  split_ifs
  · exact howner
  · exact ht.mapped slot

theorem readRange {junk s : List UInt8} {r : RangeRead} (h : readRange junk cl s = some r) :
    cl.Advances r.cl := by
  unfold VoidCache.readRange at h
  dsimp only at h
  split_ifs at h
  case neg =>
    obtain ⟨⟨cl₁, owner, s₁⟩, hread, rfl⟩ := Option.map_eq_some_iff.mp h
    obtain ⟨hadd, howner⟩ := readAddrs hread (.inl rfl)
    refine hadd.trans ?_
    dsimp only
    split_ifs
    · exact assign howner _ _
    · exact refl _
  all_goals
    cases h
    exact refl cl

theorem readRanges {junk s s' : List UInt8} {n : Nat} (h : readRanges junk n cl s = some (cl', s')) :
    cl.Advances cl' := by
  induction n generalizing cl s with
  | zero =>
    cases h
    exact refl _
  | succ n ih =>
    unfold VoidCache.readRanges at h
    split at h
    · cases h
    · rename_i r hr
      split_ifs at h
      · exact (readRange hr).trans (ih h)
      · cases h
        exact readRange hr

theorem readSlots {junk s s' : List UInt8} {nranges : Int}
    (h : readSlots junk cl nranges s = some (cl', s')) : cl.Advances cl' := by
  have hclear : cl.Advances { cl with slotMap := fun _ => -1 } :=
    ⟨List.prefix_rfl, fun ht => ⟨cl.nodes_le, ht.distinct, fun _ => .inl rfl⟩⟩
  exact hclear.trans (readRanges h)

end Cluster.Advances

/-! ## Accesses -/

/-- The host of a node to add has room. -/
def ClusterReq.Sized : ClusterReq → Prop
  | .findOrAdd host _ => host.length ≤ 63
  | _ => True

/-- The access uses no slot and no node outside the table. -/
def ClusterReq.InTable (cl : Cluster) : ClusterReq → Prop
  | .nodeForSlot slot => slot < vcClusterSlots
  -- these look whether there is such a node
  | .alive _ | .backedOff _ | .findOrAdd .. => True
  | .setAlive i _ | .noteDown i _ | .noteUp i | .connGet i | .send i _ _ | .readReply i _ | .readHeader i _ |
    .readSlots i _ _ | .closeFd i _ | .setIdle i _ => i < cl.nodes.length

theorem clusterExec_advances (w : ClusterWorld) {a : ClusterReq} (ha : a.Sized) :
    w.cl.Advances (clusterExec w a).1.cl := by
  have hnext : w.cl.Advances w.next.cl := .mark _ _
  cases a with
  | nodeForSlot | alive | backedOff => exact hnext
  | setAlive i b => exact hnext.trans (.modifyNode _ i fun _ => rfl)
  | noteDown i seen => exact hnext.trans (.modifyNode _ i fun _ => rfl)
  | noteUp i => exact hnext.trans (.modifyNode _ i fun _ => rfl)
  | findOrAdd host port => exact hnext.trans (nodeFindOrAdd_advances _ port ha)
  | connGet i =>
    have hgot := nodeConnGet_cases w i
    show w.cl.Advances (w.nodeConnGet i).1.cl
    generalize w.nodeConnGet i = r at hgot
    cases hgot with
    | nothing => exact hnext
    | idle j => exact hnext.trans (.setConn _ i j _)
    | opened j => exact hnext.trans (.setConn _ i j _)
  | send i j msg =>
    show w.cl.Advances (w.send i j msg).1.cl
    unfold ClusterWorld.send
    split_ifs
    · exact hnext.trans (.setConn _ i j _)
    · exact hnext
  | readReply i j => exact hnext.trans (.setConn _ i j _)
  | readHeader i j => exact hnext.trans (.setConn _ i j _)
  | readSlots i j nranges =>
    show w.cl.Advances (w.readMap i j nranges).1.cl
    unfold ClusterWorld.readMap
    split
    · exact hnext
    · rename_i cl rest hread
      exact (hnext.trans (.readSlots hread)).trans (.setConn cl i j _)
  | closeFd i j => exact hnext.trans (.setConn _ i j _)
  | setIdle i j => exact hnext.trans (.setConn _ i j _)

/-! ## The programs stay in the table -/

/-- How many nodes a program knows of: when it has found node `i`, there are more than `i`. -/
def nodesSeen (n : Nat) : (a : ClusterReq) → a.Resp → Nat
  | .alive i, flag => Option.elim flag n fun _ => max n (i + 1)
  | .backedOff i, off => Option.elim off n fun _ => max n (i + 1)
  | _, _ => n

/-- A program that knows of `n` nodes uses no others. -/
def tableProtocol : Protocol ClusterReq.Resp Nat where
  Allows n a := a.Sized ∧ ∀ cl : Cluster, n ≤ cl.nodes.length → a.InTable cl
  after := nodesSeen

/-- What a program knows stays so. -/
theorem nodesSeen_le {w : ClusterWorld} {n : Nat} (hn : n ≤ w.cl.nodes.length) {a : ClusterReq} (ha : a.Sized) :
    nodesSeen n a (clusterExec w a).2 ≤ (clusterExec w a).1.cl.nodes.length := by
  have hmore : n ≤ (clusterExec w a).1.cl.nodes.length := hn.trans (clusterExec_advances w ha).length_le
  -- a node that was found is there
  have hfound {f : Node → Bool} (i : Nat) :
      Option.elim (w.next.cl.nodes[i]?.map f) n (fun _ => max n (i + 1)) ≤ w.next.cl.nodes.length := by
    have hnext : n ≤ w.next.cl.nodes.length := hn.trans (grown_next w).length
    cases hi : w.next.cl.nodes[i]? with
    | none => exact hnext
    | some node => exact max_le hnext (List.getElem?_eq_some_iff.mp hi).1
  cases a with
  | alive i => exact hfound i
  | backedOff i => exact hfound i
  | _ => exact hmore

section Programs

variable {R : Type} {Q : R → Nat → Prop} {i n : Nat}

/-- An access to a node that the program knows of. -/
theorem allows_known (hi : i < n) {a : ClusterReq} (hsized : a.Sized)
    (hin : ∀ cl : Cluster, i < cl.nodes.length → a.InTable cl) : tableProtocol.Allows n a :=
  ⟨hsized, fun cl hn => hin cl (hi.trans_le hn)⟩

/-- After looking for a node, the program knows of it or goes on without it. -/
theorem readAlive_inTable {f : Option Bool → ClusterProg R} (hnone : (f none).Follows tableProtocol Q n)
    (hsome : ∀ b m, i < m → (f (some b)).Follows tableProtocol Q m) :
    (readAlive i >>= f).Follows tableProtocol Q n := by
  refine .ask_bind ⟨trivial, fun _ _ => trivial⟩ fun flag => ?_
  cases flag with
  | none => exact hnone
  | some b => exact hsome b _ (Nat.lt_of_succ_le (le_max_right n (i + 1)))

theorem backedOff_inTable {f : Option Bool → ClusterProg R} (hnone : (f none).Follows tableProtocol Q n)
    (hsome : ∀ b m, i < m → (f (some b)).Follows tableProtocol Q m) :
    (backedOff i >>= f).Follows tableProtocol Q n := by
  refine .ask_bind ⟨trivial, fun _ _ => trivial⟩ fun off => ?_
  cases off with
  | none => exact hnone
  | some b => exact hsome b _ (Nat.lt_of_succ_le (le_max_right n (i + 1)))

theorem nodeConnClose_inTable (hi : i < n) (j : Nat) :
    (nodeConnClose i j).Follows tableProtocol (fun _ m => m = n) n :=
  .ask_bind (allows_known hi trivial fun _ h => h) fun _ =>
    .ask (allows_known hi trivial fun _ h => h) fun _ => rfl

theorem refreshFrom_inTable (fuel ni n : Nat) :
    (refreshFrom fuel ni).Follows tableProtocol (fun _ _ => True) n := by
  induction fuel generalizing ni n with
  | zero => trivial
  | succ fuel ih =>
    refine readAlive_inTable trivial fun b n hni => ?_
    cases b with
    | false => exact ih (ni + 1) n
    | true =>
      refine .ask_bind (allows_known hni trivial fun _ h => h) fun got => ?_
      cases got with
      | none => exact ih (ni + 1) n
      | some j =>
        refine .ask_bind (allows_known hni trivial fun _ h => h) fun (sent : Bool) => ?_
        cases sent with
        | false =>
          refine .bind (nodeConnClose_inTable hni j) fun _ m hm => ?_
          subst hm
          exact .ask_bind (allows_known hni trivial fun _ h => h) fun _ => ih (ni + 1) _
        | true =>
          refine .ask_bind (allows_known hni trivial fun _ h => h) fun line => ?_
          cases line with
          | none => exact .bind (nodeConnClose_inTable hni j) fun _ m _ => ih (ni + 1) m
          | some line =>
            refine .ite (fun _ => ?_) fun _ => ?_
            · exact .ask_bind (allows_known hni trivial fun _ h => h) fun _ => ih (ni + 1) _
            · refine .ask_bind (allows_known hni trivial fun _ h => h) fun (done : Bool) => ?_
              cases done with
              | false => trivial
              | true => exact .ask_bind (allows_known hni trivial fun _ h => h) fun _ => trivial

/-- A refresh, after which a round goes on unless something was written outside an array. -/
theorem refresh_then_inTable {f : Option Int → ClusterProg (Option Unit)} (hnone : f none = pure none)
    (hsome : ∀ r m, (f (some r)).Follows tableProtocol (fun _ _ => True) m) :
    (vcClusterRefresh >>= f).Follows tableProtocol (fun _ _ => True) n := by
  refine .bind (refreshFrom_inTable _ _ _) fun r m _ => ?_
  cases r with
  | none =>
    rw [hnone]
    trivial
  | some r => exact hsome r m

theorem healthFrom_inTable (fuel i n : Nat) :
    (healthFrom fuel i).Follows tableProtocol (fun _ _ => True) n := by
  induction fuel generalizing i n with
  | zero => trivial
  | succ fuel ih =>
    refine backedOff_inTable trivial fun b n hi => ?_
    cases b with
    | true => exact ih (i + 1) n
    | false =>
      refine .ask_bind (allows_known hi trivial fun _ h => h) fun got => ?_
      cases got with
      | none =>
        refine .ask_bind (allows_known hi trivial fun _ h => h) fun _ => ?_
        exact refresh_then_inTable rfl fun _ => ih (i + 1)
      | some j =>
        refine .ask_bind (allows_known hi trivial fun _ h => h) fun (sent : Bool) => ?_
        cases sent with
        | false =>
          refine .bind (nodeConnClose_inTable hi j) fun _ m hm => ?_
          subst hm
          refine .ask_bind (allows_known hi trivial fun _ h => h) fun _ => ?_
          exact refresh_then_inTable rfl fun _ => ih (i + 1)
        | true =>
          refine .ask_bind (allows_known hi trivial fun _ h => h) fun _ => ?_
          refine .ask_bind (allows_known hi trivial fun _ h => h) fun _ => ?_
          exact .ask_bind (allows_known hi trivial fun _ h => h) fun _ => ih (i + 1) _

theorem firstAlive_inTable (fuel j n : Nat) :
    (firstAlive fuel j).Follows tableProtocol (fun _ _ => True) n := by
  induction fuel generalizing j n with
  | zero => trivial
  | succ fuel ih =>
    refine readAlive_inTable trivial fun b n _ => ?_
    cases b with
    | false => exact ih (j + 1) n
    | true => trivial

/-- The node that an attempt goes to is one of the table, whatever index the map or a redirection
gave. -/
theorem chooseNode_inTable (ni n : Nat) :
    (chooseNode ni).Follows tableProtocol (fun r m => ∀ node, r = some node → node < m) n := by
  have hnothing (m : Nat) (node : Nat) (h : (none : Option Nat) = some node) : node < m := by cases h
  refine readAlive_inTable (hnothing n) fun b n hni => ?_
  cases b with
  | true => exact fun node h => Option.some.inj h ▸ hni
  | false =>
    refine .bind (firstAlive_inTable _ _ _) fun found m _ => ?_
    refine readAlive_inTable (hnothing m) fun b m hfound => ?_
    cases b with
    | false => exact hnothing m
    | true => exact fun node h => Option.some.inj h ▸ hfound

theorem cmdAttempt_inTable (cmd : List UInt8) {ni : Nat} (hni : ni < n) :
    (cmdAttempt cmd ni).Follows tableProtocol (fun _ _ => True) n := by
  refine .ask_bind (allows_known hni trivial fun _ h => h) fun got => ?_
  cases got with
  | none => exact .ask_bind (allows_known hni trivial fun _ h => h) fun _ => trivial
  | some j =>
    refine .ask_bind (allows_known hni trivial fun _ h => h) fun (sent : Bool) => ?_
    cases sent with
    | false =>
      refine .bind (nodeConnClose_inTable hni j) fun _ m hm => ?_
      subst hm
      exact .ask_bind (allows_known hni trivial fun _ h => h) fun _ => trivial
    | true =>
      refine .ask_bind (allows_known hni trivial fun _ h => h) fun (rep : Option (List UInt8)) => ?_
      refine .ask_bind (allows_known hni trivial fun _ h => h) fun _ => ?_
      cases rep with
      | none => exact .ask_bind (allows_known hni trivial fun _ h => h) fun _ => trivial
      | some rep =>
        refine .ite (fun _ => ?_) fun _ => trivial
        cases haddr : movedAddr rep with
        | none => trivial
        | some addr =>
          refine .ask_bind ⟨movedAddr_host haddr, fun _ _ => trivial⟩ fun (ni : Int) => ?_
          refine .bind (refreshFrom_inTable _ _ _) fun r m _ => ?_
          cases r with
          | none => trivial
          | some r => trivial

theorem cmdLoop_inTable (cmd : List UInt8) (tries : Nat) (ni : Int) (n : Nat) :
    (cmdLoop cmd tries ni).Follows tableProtocol (fun _ _ => True) n := by
  induction tries generalizing ni n with
  | zero => trivial
  | succ tries ih =>
    refine .ite (fun _ => trivial) fun _ => ?_
    refine .bind (chooseNode_inTable _ _) fun found m hfound => ?_
    cases found with
    | none => trivial
    | some node =>
      refine .bind (cmdAttempt_inTable cmd (hfound node rfl)) fun att m _ => ?_
      cases att with
      | done rep => trivial
      | again ni => exact ih ni m
      | broken => trivial

theorem vcKeySlot_lt (key : List UInt8) : vcKeySlot key < vcClusterSlots := by
  have hle : vcKeySlot key ≤ (0x3FFF : UInt16).toNat := by
    rw [vcKeySlot, UInt16.toNat_and]
    exact Nat.and_le_right
  exact Nat.lt_succ_of_le hle

theorem slotOf_lt (key : Option (List UInt8)) : slotOf key < vcClusterSlots := by
  cases key with
  | none => exact Nat.succ_pos _
  | some key => exact vcKeySlot_lt key

theorem ClusterOp.inTable (op : ClusterOp) : op.prog.Follows tableProtocol (fun _ _ => True) n := by
  cases op with
  | cmd key text =>
    refine .bind (Q := fun _ _ => True)
      (.ask_bind ⟨trivial, fun _ _ => slotOf_lt key⟩ fun (ni : Int) => ?_) fun _ _ _ => trivial
    exact .ite (fun _ => trivial) fun _ => cmdLoop_inTable text _ ni _
  | refresh => exact .bind (refreshFrom_inTable _ _ _) fun _ _ _ => trivial
  | health => exact .bind (healthFrom_inTable _ _ _) fun _ _ _ => trivial

end Programs

/-! ## The client -/

/-- What is in `seeds_copy`: `strncpy` fills up with zero bytes, but behind 1023 bytes of seeds
comes what is in memory there. -/
def seedsCopy (junk seeds : List UInt8) : List UInt8 :=
  cstr ((cstr seeds).take 1023 ++ List.replicate (1023 - (cstr seeds).length) 0 ++ junk)

/-- The loop of `vc_cluster_connect` over the seeds. -/
def addSeeds : List (List UInt8) → ClusterProg Unit
  | [] => pure ()
  | tok :: toks =>
    match parseHostport tok with
    | none => addSeeds toks
    | some (host, port) => findOrAdd host port >>= fun _ => addSeeds toks

theorem addSeeds_inTable (toks : List (List UInt8)) (n : Nat) :
    (addSeeds toks).Follows tableProtocol (fun _ _ => True) n := by
  induction toks generalizing n with
  | nil => trivial
  | cons tok toks ih =>
    unfold addSeeds
    cases haddr : parseHostport tok with
    | none => exact ih n
    | some addr => exact .ask_bind ⟨parseHostport_host haddr, fun _ _ => trivial⟩ fun _ => ih _

/-- The cluster as it is allocated. -/
def newCluster (username password : Option (List UInt8)) : Cluster where
  nodes := []
  nodes_le := Nat.zero_le _
  slotMap := fun _ => -1
  username := (cstr (username.getD [])).take 63
  password := (cstr (password.getD [])).take 127

/-- `for (int i = 0; i < VC_CLUSTER_SLOTS; i++) cl->slot_map[i] = 0` -/
def Cluster.mapToFirst (cl : Cluster) : Cluster :=
  { cl with slotMap := fun slot => if slot < vcClusterSlots then 0 else cl.slotMap slot }

section Client

variable {ι : Type}

/-- Where a client is: in `vc_cluster_connect`, adding the seeds or fetching the map, or behind it, with
the call that each of its threads is in. -/
inductive ClientPhase (ι : Type) where
  | seeding (p : ClusterProg Unit)
  | fetching (p : ClusterProg (Option Int))
  | connected (calls : ι → Option (ClusterProg Unit))

/-- An access that the client may make next. -/
def ClientPhase.Makes : ClientPhase ι → ClusterReq → Prop
  | seeding p, a => p.next? = some a
  | fetching p, a => p.next? = some a
  | connected calls, a => ∃ k p, calls k = some p ∧ p.next? = some a

/-- The hosts in what is read of a map have room. -/
def HostsFit (w : ClusterWorld) : ClusterReq → Prop
  | .readSlots i j nranges => AllFit (rangesFields w.env.junk nranges.toNat (w.stream i j))
  | _ => True

/-- A call of `vc_cluster_connect` for which memory can be allocated. -/
def vcClusterConnect (junk seeds : List UInt8) (username password : Option (List UInt8))
    (envs : Nat → NetEnv) : ClientPhase ι × ClusterWorld :=
  (.seeding (addSeeds (words (· = 44) (seedsCopy junk seeds))), ⟨newCluster username password, envs, 0, []⟩)

instance (w : ClusterWorld) : (a : ClusterReq) → Decidable (HostsFit w a)
  | .readSlots .. => inferInstanceAs (Decidable (AllFit _))
  | .nodeForSlot _ | .alive _ | .setAlive .. | .backedOff _ | .noteDown .. | .noteUp _ | .findOrAdd ..
  | .connGet _ | .send .. | .readReply .. | .readHeader .. | .closeFd .. | .setIdle .. => isTrue trivial

/-- One step of a client. An access is one step, `node_find_or_add` included. -/
inductive ClientStep [DecidableEq ι] : ClientPhase ι × ClusterWorld → ClientPhase ι × ClusterWorld → Prop where
  | seed {w : ClusterWorld} {a : ClusterReq} {next : a.Resp → ClusterProg Unit} (hfit : HostsFit w a) :
      ClientStep (.seeding (.call a next), w) (.seeding (next (clusterExec w a).2), (clusterExec w a).1)
  -- without a node, `vc_cluster_connect` returns NULL
  | seeded {w : ClusterWorld} (hnode : w.cl.nodes.length ≠ 0) :
      ClientStep (.seeding (.ret ()), w) (.fetching vcClusterRefresh, w)
  | fetch {w : ClusterWorld} {a : ClusterReq} {next : a.Resp → ClusterProg (Option Int)} (hfit : HostsFit w a) :
      ClientStep (.fetching (.call a next), w) (.fetching (next (clusterExec w a).2), (clusterExec w a).1)
  | fetched {w : ClusterWorld} {r : Int} :
      ClientStep (.fetching (.ret (some r)), w)
        (.connected fun _ => none, if r < 0 ∧ w.cl.nodes.length = 1 then w.withCl w.cl.mapToFirst else w)
  | start {w : ClusterWorld} {calls : ι → Option (ClusterProg Unit)} (k : ι) (hidle : calls k = none)
      (op : ClusterOp) : ClientStep (.connected calls, w) (.connected (Function.update calls k (some op.prog)), w)
  | access {w : ClusterWorld} {calls : ι → Option (ClusterProg Unit)} (k : ι) {a : ClusterReq}
      {next : a.Resp → ClusterProg Unit} (hcall : calls k = some (.call a next)) (hfit : HostsFit w a) :
      ClientStep (.connected calls, w)
        (.connected (Function.update calls k (some (next (clusterExec w a).2))), (clusterExec w a).1)
  | finish {w : ClusterWorld} {calls : ι → Option (ClusterProg Unit)} (k : ι) (hcall : calls k = some (.ret ())) :
      ClientStep (.connected calls, w) (.connected (Function.update calls k none), w)

/-- The program uses only nodes that are there. -/
def StaysInTable {R : Type} (p : ClusterProg R) (w : ClusterWorld) : Prop :=
  ∃ n ≤ w.cl.nodes.length, p.Follows tableProtocol (fun _ _ => True) n

namespace StaysInTable

variable {R : Type} {p : ClusterProg R} {w w' : ClusterWorld} {a : ClusterReq} {next : a.Resp → ClusterProg R}

theorem proper (h : StaysInTable p w) (ha : p.next? = some a) : a.Sized ∧ a.InTable w.cl := by
  obtain ⟨n, hn, hp⟩ := h
  obtain ⟨hsized, hin⟩ := hp.allows ha
  exact ⟨hsized, hin w.cl hn⟩

theorem access (h : StaysInTable (.call a next) w) :
    StaysInTable (next (clusterExec w a).2) (clusterExec w a).1 := by
  have hsized := (h.proper rfl).1
  obtain ⟨n, hn, hp⟩ := h
  exact ⟨_, nodesSeen_le hn hsized, hp.2 _⟩

/-- Whatever others do to the table. -/
theorem advances (h : StaysInTable p w) (hadv : w.cl.Advances w'.cl) : StaysInTable p w' := by
  obtain ⟨n, hn, hp⟩ := h
  exact ⟨n, hn.trans hadv.length_le, hp⟩

end StaysInTable

/-- What is left of the calls stays in the table. -/
def ClientPhase.Sound : ClientPhase ι → ClusterWorld → Prop
  | seeding p, w => StaysInTable p w
  | fetching p, w => StaysInTable p w
  | connected calls, w => ∀ k p, calls k = some p → StaysInTable p w

theorem ClientPhase.Sound.inTable {ph : ClientPhase ι} {w : ClusterWorld} (h : ph.Sound w) {a : ClusterReq}
    (ha : ph.Makes a) : a.InTable w.cl := by
  cases ph with
  | seeding p => exact (StaysInTable.proper h ha).2
  | fetching p => exact (StaysInTable.proper h ha).2
  | connected calls =>
    obtain ⟨k, p, hk, ha⟩ := ha
    exact ((h k p hk).proper ha).2

theorem mapToFirst_advances {cl : Cluster} (h : cl.nodes.length = 1) : cl.Advances cl.mapToFirst := by
  refine ⟨List.prefix_rfl, fun ht => ⟨cl.nodes_le, ht.distinct, fun slot => ?_⟩⟩
  unfold Cluster.mapToFirst
  dsimp only
  split_ifs
  · exact .inr ⟨le_refl 0, by simp [h]⟩
  · exact ht.mapped slot

variable [DecidableEq ι]

/-- One thread goes on, and the others may find more nodes than before. -/
theorem ClientPhase.Sound.update {calls : ι → Option (ClusterProg Unit)} {w w' : ClusterWorld}
    (h : (connected calls).Sound w) (hadv : w.cl.Advances w'.cl) {k : ι} {o : Option (ClusterProg Unit)}
    (ho : ∀ p, o = some p → StaysInTable p w') : (connected (Function.update calls k o)).Sound w' := by
  intro l p hl
  by_cases hlk : l = k
  · rw [hlk, Function.update_self] at hl
    exact ho p hl
  · rw [Function.update_of_ne hlk] at hl
    exact (h l p hl).advances hadv

theorem ClientStep.advances {s s' : ClientPhase ι × ClusterWorld} (h : ClientStep s s') (hs : s.1.Sound s.2) :
    s.2.cl.Advances s'.2.cl ∧ s'.1.Sound s'.2 := by
  cases h with
  | seed | fetch =>
    have hstays : StaysInTable _ _ := hs
    exact ⟨clusterExec_advances _ (hstays.proper rfl).1, hstays.access⟩
  | seeded => exact ⟨.refl _, 0, Nat.zero_le _, refreshFrom_inTable _ _ _⟩
  | fetched =>
    refine ⟨?_, fun k p hk => by cases hk⟩
    dsimp only
    split_ifs with hone
    · exact mapToFirst_advances hone.2
    · exact .refl _
  | start k hidle op =>
    refine ⟨.refl _, ClientPhase.Sound.update hs (.refl _) ?_⟩
    rintro _ ⟨⟩
    exact ⟨0, Nat.zero_le _, op.inTable⟩
  | @access w calls k a next hcall hfit =>
    have hstays : StaysInTable (.call a next) w := hs k _ hcall
    have hadv := clusterExec_advances w (hstays.proper rfl).1
    refine ⟨hadv, ClientPhase.Sound.update hs hadv ?_⟩
    rintro _ ⟨⟩
    exact hstays.access
  | finish k hcall => exact ⟨.refl _, ClientPhase.Sound.update hs (.refl _) (by rintro _ ⟨⟩)⟩

theorem client_advances {s s' : ClientPhase ι × ClusterWorld} (h : Relation.ReflTransGen ClientStep s s')
    (hs : s.1.Sound s.2) : s.2.cl.Advances s'.2.cl ∧ s'.1.Sound s'.2 := by
  induction h with
  | refl => exact ⟨.refl _, hs⟩
  | tail _ hstep ih =>
    obtain ⟨hadv, hsound⟩ := hstep.advances ih.2
    exact ⟨ih.1.trans hadv, hsound⟩

/-- In every state of a client whose threads take their steps in any order: at most 64 nodes, no two
with the same address; entries of the map that are -1 or the index of a node, and fit in 8 bits;
whatever comes later, the nodes keep their places and addresses; and the next access of any thread
uses no slot or node outside the table. -/
theorem routing_table_sound {junk seeds : List UInt8} {username password : Option (List UInt8)}
    {envs : Nat → NetEnv} {s : ClientPhase ι × ClusterWorld}
    (h : Relation.ReflTransGen ClientStep (vcClusterConnect junk seeds username password envs) s) :
    s.2.cl.Table ∧ (∀ slot, (s.2.cl.slotMap slot).bmod 256 = s.2.cl.slotMap slot) ∧
      (∀ s', Relation.ReflTransGen ClientStep s s' → s.2.cl.addrs <+: s'.2.cl.addrs) ∧
      ∀ a, s.1.Makes a → a.InTable s.2.cl := by
  obtain ⟨hadv, hsound⟩ := client_advances h ⟨0, Nat.zero_le _, addSeeds_inTable _ _⟩
  have htable : s.2.cl.Table :=
    hadv.table ⟨Nat.zero_le _, List.nodup_nil, fun _ => .inl rfl⟩
  refine ⟨htable, fun slot => (htable.mapped slot).toInt8, fun s' hs' => ?_, fun a ha => hsound.inTable ha⟩
  exact (client_advances hs' hsound).1.addrs

/-- A program of `vc_cluster_connect` that runs to its end. -/
theorem reaches_end {R : Type} (phase : ClusterProg R → ClientPhase ι)
    (hstep : ∀ {w : ClusterWorld} {a : ClusterReq} {next : a.Resp → ClusterProg R}, HostsFit w a →
      ClientStep (phase (.call a next), w) (phase (next (clusterExec w a).2), (clusterExec w a).1))
    {p : ClusterProg R} {w : ClusterWorld} (h : p.Along clusterExec HostsFit w) :
    Relation.ReflTransGen ClientStep (phase p, w)
      (phase (.ret (p.run clusterExec w).2), (p.run clusterExec w).1) := by
  induction p generalizing w with
  | ret r => exact .refl
  | call a next ih => exact .head (hstep h.1) (ih _ h.2)

/-- Threads that are in a call each and take their turns. -/
theorem reaches_turns {p : Pool ClusterReq.Resp Unit ι ClusterWorld} {turns : List ι}
    (h : Machine.Along (poolStep clusterExec) (fun p k => ∀ a ∈ (p.prog k).next?, HostsFit p.state a) p turns) :
    Relation.ReflTransGen ClientStep (.connected (some ∘ p.prog), p.state)
      (.connected (some ∘ (Machine.run (poolStep clusterExec) p turns).prog),
        (Machine.run (poolStep clusterExec) p turns).state) := by
  induction turns generalizing p with
  | nil => exact .refl
  | cons k turns ih =>
    refine .trans ?_ (ih h.2)
    cases hk : p.prog k with
    | ret r => rw [poolStep_of_ret hk]
    | call a next =>
      rw [poolStep_of_call hk, Function.comp_update]
      exact .single (.access k (congrArg some hk) (h.1 a (by rw [hk]; exact Option.mem_def.mpr rfl)))

end Client

def mapReply (host : String) : Delivery :=
  .executed (str ("*1\r\n*3\r\n:0\r\n:16383\r\n*1\r\n+" ++ host ++ "\r\n:7000\r\n"))

/-- A network in which the first node knows the owner of all slots, at first `b` and then `c`, and `b`
redirects a command. -/
def movingNet : Nat → NetEnv
  | 3 => { calmNet with delivery := mapReply "b" }
  | 13 => { calmNet with delivery := .executed (str "-MOVED 7453 c:7000\r\n") }
  | 25 => { calmNet with delivery := mapReply "c" }
  | _ => calmNet

/-- A client of that network, with two threads. -/
def movingClient : ClientPhase Bool × ClusterWorld :=
  vcClusterConnect [] (str "a:7000") none none movingNet

/-- What the client knows when it has added its seed. -/
def seededWorld : ClusterWorld :=
  ((addSeeds [str "a:7000"]).run clusterExec ⟨newCluster none none, movingNet, 0, []⟩).1

/-- What it is connected with. -/
def movingWorld : ClusterWorld := (vcClusterRefresh.run clusterExec seededWorld).1

theorem movingClient_connects :
    Relation.ReflTransGen ClientStep movingClient (.connected fun _ => none, movingWorld) := by
  have hseeds : words (· = 44) (seedsCopy [] (str "a:7000")) = [str "a:7000"] := by decide +kernel
  have hread : (vcClusterRefresh.run clusterExec seededWorld).2 = some 0 := by decide +kernel
  have hfetch : Relation.ReflTransGen (@ClientStep Bool _) (.fetching vcClusterRefresh, seededWorld)
      (.fetching (.ret (some 0)), movingWorld) := by
    rw [← hread]
    exact reaches_end .fetching .fetch (by decide +kernel)
  unfold movingClient vcClusterConnect
  rw [hseeds]
  have hseed := reaches_end (@ClientPhase.seeding Bool) .seed (p := addSeeds [str "a:7000"])
    (w := ⟨newCluster none none, movingNet, 0, []⟩) (by decide +kernel)
  exact hseed.trans (.head (.seeded (by decide +kernel)) (hfetch.tail .fetched))

/-- A command and a health check of a connected client. -/
def movingCalls (k : Bool) : ClusterProg Unit := (if k then ClusterOp.cmd setCall.1 setCall.2 else .health).prog

theorem movingClient_starts : Relation.ReflTransGen ClientStep movingClient
    (.connected (some ∘ movingCalls), movingWorld) := by
  have hboth : Function.update (Function.update (fun _ => none) true (some (movingCalls true))) false
      (some (movingCalls false)) = some ∘ movingCalls := by
    funext k
    cases k <;> rfl
  rw [← hboth]
  exact (movingClient_connects.tail (.start true rfl _)).tail (.start false rfl _)

/-- The client when the command has read the redirection. -/
def movingPool : Pool ClusterReq.Resp Unit Bool ClusterWorld :=
  Machine.run (poolStep clusterExec) (.start movingWorld movingCalls) (List.replicate 6 [true, false]).flatten

/-- The client when the command has refreshed the map. -/
def movedPool : Pool ClusterReq.Resp Unit Bool ClusterWorld :=
  Machine.run (poolStep clusterExec) movingPool ((List.replicate 7 [true, false]).flatten ++ [true])

/-- While the health check goes from node to node, the command is redirected to a node that is new, and
installs the map of its refresh. The health check then goes on to the new node. -/
theorem routing_table_of_moved :
    (movingPool.prog true).next? = some (.findOrAdd (str "c") 7000) ∧ movingPool.state.cl.slotMap 16383 = 1 ∧
      (movedPool.prog false).next? = some (.connGet 2) ∧ movedPool.state.cl.slotMap 16383 = 2 ∧
      movedPool.state.cl.Table ∧ movingPool.state.cl.addrs <+: movedPool.state.cl.addrs ∧
      ClusterReq.InTable movedPool.state.cl (.connGet 2) := by
  have hmoving : Relation.ReflTransGen ClientStep movingClient
      (.connected (some ∘ movingPool.prog), movingPool.state) :=
    movingClient_starts.trans (reaches_turns (p := .start movingWorld movingCalls) (by decide +kernel))
  have hmoved : Relation.ReflTransGen ClientStep (.connected (some ∘ movingPool.prog), movingPool.state)
      (.connected (some ∘ movedPool.prog), movedPool.state) := reaches_turns (by decide +kernel)
  have hnext : (movedPool.prog false).next? = some (.connGet 2) := by decide +kernel
  obtain ⟨-, -, hkeeps, -⟩ := routing_table_sound hmoving
  obtain ⟨htable, -, -, hin⟩ := routing_table_sound (hmoving.trans hmoved)
  exact ⟨by decide +kernel, by decide +kernel, hnext, by decide +kernel, htable, hkeeps _ hmoved,
    hin _ ⟨false, _, rfl, hnext⟩⟩

end VoidCache
