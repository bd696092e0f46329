import VoidCache.Cluster.RoutingTable
import VoidCache.Lib.BoundedTable

/-!
# What a refresh leaves of the map

A refresh should take the whole map of a reply or nothing of it. `MapReply` is what the reader of
the map is made for: ranges of slots, each with its bounds and an array of addresses, the first of
which is that of its owner. Once a reply starts like an array, the old map is gone and the refresh
succeeds, whatever follows: `refresh_all_or_nothing_iff`.
-/
namespace VoidCache

/-! ## The reply of one node -/

/-- What `vc_cluster_refresh` does after the reply of a node: it goes on with the next node, or
returns 0. `broken` stands for a write outside an array. -/
inductive ReplyRead where
  | next | done | broken
  deriving DecidableEq, Repr

/-- `vc_cluster_refresh` from where it has sent `CLUSTER SLOTS` to node `ni`. -/
def refreshReply (ni j : Nat) : ClusterProg ReplyRead := do
  match ← readHeader ni j with
  | none =>
    nodeConnClose ni j
    pure .next
  | some line =>
    if line.headD 0 ≠ 42 then
      nodeConnRelease ni j
      pure .next
    else if ← readMap ni j (atoi line.tail) then
      nodeConnRelease ni j
      pure .done
    else pure .broken

/-- `vc_cluster_refresh`, put together from what it does with one reply. -/
def refreshByReplies : Nat → Nat → ClusterProg (Option Int)
  | 0, _ => pure (some (-1))
  | fuel + 1, ni => do
    match ← readAlive ni with
    | none => pure (some (-1))
    | some false => refreshByReplies fuel (ni + 1)
    | some true =>
      match ← connGet ni with
      | none => refreshByReplies fuel (ni + 1)
      | some j =>
        if !(← sendMsg ni j .slots) then
          nodeConnClose ni j
          setAlive ni false
          refreshByReplies fuel (ni + 1)
        else
          match ← refreshReply ni j with
          | .next => refreshByReplies fuel (ni + 1)
          | .done => pure (some 0)
          | .broken => pure none

theorem refreshFrom_eq_byReplies (fuel ni : Nat) : refreshFrom fuel ni = refreshByReplies fuel ni := by
  induction fuel generalizing ni with
  | zero => rfl
  | succ fuel ih =>
    unfold refreshFrom refreshByReplies
    simp only [ih]
    congr 1
    funext flag
    rcases flag with _ | _ | _
    · rfl
    · rfl
    · refine congrArg (connGet ni >>= ·) (funext fun got => ?_)
      cases got with
      | none => rfl
      | some j =>
        refine congrArg (sendMsg ni j .slots >>= ·) (funext fun (sent : Bool) => ?_)
        cases sent with
        | false => rfl
        | true =>
          refine congrArg (Calls.call (ClusterReq.readHeader ni j)) (funext fun line => ?_)
          cases line with
          | none => rfl
          | some line =>
            by_cases hstar : line.headD 0 ≠ 42
            · simp only [Calls.andThen, if_pos hstar]
              rfl
            · simp only [Calls.andThen, if_neg hstar]
              refine congrArg (readMap ni j (atoi line.tail) >>= ·) (funext fun (ok : Bool) => ?_)
              cases ok <;> rfl

/-! ## Replies that describe a map -/

/-- The address of a node: a host name and a port. -/
structure NodeAddr where
  host : List UInt8
  port : Nat
  host_le : host.length ≤ 253
  no_zero : 0 ∉ host
  port_lt : port < 2 ^ 16

/-- The slots from `start` to `stop` with the node that has them, and the nodes that have copies. -/
structure SlotRange where
  start : Nat
  stop : Nat
  owner : NodeAddr
  copies : List NodeAddr
  start_le : start ≤ stop
  stop_lt : stop < vcClusterSlots
  few : copies.length + 1 < 2 ^ 31

/-- A map: ranges of which no two have a slot in common. -/
structure MapReply where
  ranges : List SlotRange
  apart : ranges.Pairwise fun r r' => r.stop < r'.start ∨ r'.stop < r.start

def NodeAddr.pair (x : NodeAddr) : List UInt8 × Nat := (x.host, x.port)

/-- The address as it is kept: of the host there are at most 63 bytes. -/
def NodeAddr.stored (x : NodeAddr) : List UInt8 × Nat := (x.host.take 63, x.port)

def SlotRange.addrs (r : SlotRange) : List NodeAddr := r.owner :: r.copies

def SlotRange.Covers (r : SlotRange) (slot : Nat) : Prop := r.start ≤ slot ∧ slot ≤ r.stop

instance (r : SlotRange) (slot : Nat) : Decidable (r.Covers slot) := inferInstanceAs (Decidable (_ ∧ _))

def NodeAddr.encode (x : NodeAddr) : List UInt8 :=
  respWriteArrayHeader 2 ++ respWriteBulk x.host ++ respWriteInteger x.port

def SlotRange.encode (r : SlotRange) : List UInt8 :=
  respWriteArrayHeader 3 ++ respWriteInteger r.start ++ respWriteInteger r.stop ++
    respWriteArrayHeader r.addrs.length ++ r.addrs.flatMap NodeAddr.encode

def MapReply.encode (m : MapReply) : List UInt8 :=
  respWriteArrayHeader m.ranges.length ++ m.ranges.flatMap SlotRange.encode

/-- The slots lead to the owners of their ranges, and the others nowhere. -/
def Cluster.HasMap (cl : Cluster) (m : MapReply) : Prop :=
  ∀ slot < vcClusterSlots,
    (∀ r ∈ m.ranges, r.Covers slot → cl.RoutesTo slot r.owner.host r.owner.port) ∧
    ((∀ r ∈ m.ranges, ¬ r.Covers slot) → cl.slotMap slot = -1)

theorem SlotRange.covers_start (r : SlotRange) : r.Covers r.start := ⟨le_refl _, r.start_le⟩

/-- There are no more ranges than slots. -/
theorem MapReply.length_le (m : MapReply) : m.ranges.length ≤ vcClusterSlots := by
  have hnodup : (m.ranges.map SlotRange.start).Nodup := by
    refine List.pairwise_map.mpr (m.apart.imp fun {r r'} h hstart => ?_)
    have := r.start_le
    have := r'.start_le
    omega
  have hsub : m.ranges.map SlotRange.start ⊆ List.range vcClusterSlots := by
    intro slot hslot
    obtain ⟨r, -, rfl⟩ := List.mem_map.mp hslot
    exact List.mem_range.mpr (r.start_le.trans_lt r.stop_lt)
  simpa using (hnodup.subperm hsub).length_le


/-! ## Reading a reply that describes a map -/

section Encoded

variable (junk : List UInt8)

theorem decimalInt_natCast (n : Nat) : decimalInt n = decimal n := by simp [decimalInt]

theorem portOf_line (c : UInt8) {n : Nat} (hn : n < 2 ^ 16) (tl : List UInt8) :
    portOf (c :: decimal n ++ 0 :: tl).tail = n := by
  have hzero : ∀ b ∈ (0 :: tl).head?, isDigit b = false := by
    rintro b ⟨⟩
    decide
  show portOf (decimal n ++ 0 :: tl) = n
  rw [portOf, atoll, strtoll_decimal_append (by omega) hzero]
  dsimp only
  omega

/-- An address whose first line is in `l`. -/
theorem readAddr_encoded (x : NodeAddr) {l : List UInt8} (hstar : l.headD 0 = 42) (more : List UInt8) :
    readAddr junk l (respWriteBulk x.host ++ (respWriteInteger x.port ++ more)) =
      some (x.host.take 63, x.port, l, more) := by
  have hle := x.host_le
  have hlen (tl : List UInt8) : atoll (36 :: decimal x.host.length ++ 0 :: tl).tail = x.host.length := by
    show (strtoll (decimal x.host.length ++ 0 :: tl)).value = x.host.length
    rw [strtoll_decimal_append (by omega) (by simp; decide)]
  have hmod : ((x.host.length : Int) % 2 ^ 64).toNat = x.host.length := by omega
  have hgot (s : List UInt8) : (x.host ++ crlf ++ s).take (x.host.length + 2) = x.host ++ crlf :=
    List.take_left' (by simp [crlf])
  have hrest (s : List UInt8) : (x.host ++ crlf ++ s).drop (x.host.length + 2) = s :=
    List.drop_left' (by simp [crlf])
  have hlines : respWriteBulk x.host ++ (respWriteInteger x.port ++ more) =
      36 :: decimal x.host.length ++ crlf ++ (x.host ++ crlf ++ (58 :: decimal x.port ++ crlf ++ more)) := by
    simp [respWriteBulk, respWriteInteger, decimalInt_natCast]
  have hport : ShortLine (58 :: decimal x.port) := .decimal (by decide) (lt_trans x.port_lt (by decide))
  rw [hlines, readAddr, if_pos hstar, (ShortLine.decimal (by decide) (by omega)).read]
  dsimp only
  rw [hlen, hmod, Nat.mod_eq_of_lt (by omega), sockReadn, hgot, hrest, hport.read]
  dsimp only
  have hbuf (tl : List UInt8) : ((x.host ++ crlf) ++ tl).take x.host.length = x.host := by
    rw [List.append_assoc, List.take_left]
  rw [if_neg (by simp [crlf]; omega), hbuf, cstr_eq_self x.no_zero, portOf_line 58 x.port_lt]

/-- `node_find_or_add` of the address. -/
def Cluster.offer (cl : Cluster) (x : NodeAddr) : Int × Cluster := nodeFindOrAdd cl x.stored.1 x.stored.2

theorem Cluster.offer_place (cl : Cluster) (x : NodeAddr) :
    (cl.offer x).2.addrs = place vcClusterMaxNodes cl.addrs x.stored ∧
      IndexIn (cl.offer x).2.addrs x.stored (cl.offer x).1 :=
  nodeFindOrAdd_place cl x.port (List.length_take_le _ _)

theorem Cluster.offer_slotMap (cl : Cluster) (x : NodeAddr) : (cl.offer x).2.slotMap = cl.slotMap :=
  nodeFindOrAdd_slotMap ..

/-- The reader takes one address after the other. -/
theorem readAddrs_encoded_cons (x : NodeAddr) (n : Nat) (first : Bool) (cl : Cluster) (owner : Int)
    (l more : List UInt8) :
    ∃ l', readAddrs junk (n + 1) first cl owner l (x.encode ++ more) =
      readAddrs junk n false (cl.offer x).2 (if 0 ≤ (cl.offer x).1 ∧ first then (cl.offer x).1 else owner) l' more := by
  have hencode : x.encode ++ more =
      42 :: decimal 2 ++ crlf ++ (respWriteBulk x.host ++ (respWriteInteger x.port ++ more)) := by
    simp [NodeAddr.encode, respWriteArrayHeader]
  have hread := (ShortLine.decimal (c := 42) (by decide) (by decide : 2 < 2 ^ 63)).read l
    (respWriteBulk x.host ++ (respWriteInteger x.port ++ more))
  generalize hbuf : 42 :: decimal 2 ++ 0 :: 10 :: l.drop ((42 :: decimal 2).length + 2) = buf at hread
  have hstar : buf.headD 0 = 42 := by rw [← hbuf]; rfl
  refine ⟨buf, ?_⟩
  rw [hencode, readAddrs, hread]
  dsimp only
  rw [if_neg (by decide), readAddr_encoded junk x hstar]
  rfl

theorem readAddrs_encoded (xs : List NodeAddr) (cl : Cluster) (owner : Int) (l more : List UInt8) :
    ∃ cl', readAddrs junk xs.length false cl owner l (xs.flatMap NodeAddr.encode ++ more) =
        some (cl', owner, more) ∧
      cl'.addrs = placeAll vcClusterMaxNodes cl.addrs (xs.map NodeAddr.stored) ∧ cl'.slotMap = cl.slotMap := by
  induction xs generalizing cl l with
  | nil => exact ⟨cl, rfl, rfl, rfl⟩
  | cons x xs ih =>
    obtain ⟨l', hread⟩ := readAddrs_encoded_cons junk x xs.length false cl owner l (xs.flatMap NodeAddr.encode ++ more)
    obtain ⟨cl', hrest, haddrs, hmap⟩ := ih (cl.offer x).2 l'
    refine ⟨cl', ?_, ?_, hmap.trans (cl.offer_slotMap x)⟩
    · rw [List.flatMap_cons, List.append_assoc, List.length_cons, hread, if_neg (by simp), hrest]
    · rw [haddrs, (cl.offer_place x).1]
      rfl

end Encoded

/-! ## Installing ranges -/

theorem Cluster.routesTo_iff (cl : Cluster) (slot : Nat) (host : List UInt8) (port : Nat) :
    cl.RoutesTo slot host port ↔
      0 ≤ cl.slotMap slot ∧ cl.addrs[(cl.slotMap slot).toNat]? = some (host, port) := by
  unfold Cluster.RoutesTo Cluster.addrs
  rw [List.getElem?_map]
  constructor
  · rintro ⟨n, hpos, hn, rfl, rfl⟩
    exact ⟨hpos, by rw [hn]; rfl⟩
  · rintro ⟨hpos, haddr⟩
    obtain ⟨n, hn, hpair⟩ := Option.map_eq_some_iff.mp haddr
    cases hpair
    exact ⟨n, hpos, hn, rfl, rfl⟩

/-- The ranges have been put into the map, as far as their owners have places in the table. -/
structure Cluster.Installed (cl cl' : Cluster) (rs : List SlotRange) : Prop where
  addrs : cl'.addrs = placeAll vcClusterMaxNodes cl.addrs (rs.flatMap fun r => r.addrs.map NodeAddr.stored)
  owned : ∀ r ∈ rs, ∀ slot, r.Covers slot → r.owner.stored ∈ cl'.addrs →
    cl'.RoutesTo slot r.owner.stored.1 r.owner.stored.2
  lost : ∀ r ∈ rs, ∀ slot, r.Covers slot → r.owner.stored ∉ cl'.addrs → cl'.slotMap slot = cl.slotMap slot
  other : ∀ slot, (∀ r ∈ rs, ¬ r.Covers slot) → cl'.slotMap slot = cl.slotMap slot

/-- A slot that leads to an address still does when nodes are added and its entry is left. -/
theorem Cluster.RoutesTo.mono {cl cl' : Cluster} {slot : Nat} {host : List UInt8} {port : Nat}
    (h : cl.RoutesTo slot host port) (haddrs : cl.addrs <+: cl'.addrs) (hmap : cl'.slotMap slot = cl.slotMap slot) :
    cl'.RoutesTo slot host port := by
  obtain ⟨hpos, haddr⟩ := (cl.routesTo_iff slot host port).mp h
  refine (cl'.routesTo_iff slot host port).mpr ⟨hmap ▸ hpos, ?_⟩
  rw [hmap]
  obtain ⟨more, hmore⟩ := haddrs
  rw [← hmore]
  exact (List.getElem?_append_left (List.getElem?_eq_some_iff.mp haddr).1).trans haddr

theorem assign_slotMap (cl : Cluster) (r : SlotRange) (owner : Int) (slot : Nat) :
    (cl.assign r.start r.stop owner).slotMap slot = if r.Covers slot then owner else cl.slotMap slot := by
  have hstart : (if 0 < (r.start : Int) then (r.start : Int) else 0) = r.start := by split_ifs <;> omega
  have hstop : (if (r.stop : Int) < vcClusterSlots then (r.stop : Int) else vcClusterSlots - 1) = r.stop :=
    if_pos (Int.ofNat_lt.mpr r.stop_lt)
  unfold Cluster.assign
  simp only [hstart, hstop, Int.ofNat_le]
  rfl

/-- One range, when its addresses have been read. -/
theorem Cluster.installed_range {cl cl₁ : Cluster} (r : SlotRange)
    (haddrs : cl₁.addrs = placeAll vcClusterMaxNodes (cl.offer r.owner).2.addrs (r.copies.map NodeAddr.stored))
    (hmap : cl₁.slotMap = cl.slotMap) :
    cl.Installed (if 0 ≤ (cl.offer r.owner).1 then cl₁.assign r.start r.stop (cl.offer r.owner).1 else cl₁) [r] := by
  obtain ⟨hplace, hindex⟩ := cl.offer_place r.owner
  have hall : cl₁.addrs = placeAll vcClusterMaxNodes cl.addrs
      ([r].flatMap fun r => r.addrs.map NodeAddr.stored) := by
    rw [haddrs, hplace]
    simp [SlotRange.addrs]
  rcases hindex with ⟨hpos, hx⟩ | ⟨hx, hidx⟩
  · rw [if_pos hpos]
    obtain ⟨more, hmore⟩ := prefix_placeAll vcClusterMaxNodes (cl.offer r.owner).2.addrs
      (r.copies.map NodeAddr.stored)
    have hplaced : cl₁.addrs[(cl.offer r.owner).1.toNat]? = some r.owner.stored := by
      rw [haddrs, ← hmore]
      exact (List.getElem?_append_left (List.getElem?_eq_some_iff.mp hx).1).trans hx
    refine ⟨hall, ?_, ?_, ?_⟩
    · intro r' hr' slot hslot _
      obtain rfl := List.mem_singleton.mp hr'
      refine (Cluster.routesTo_iff _ _ _ _).mpr ?_
      rw [assign_slotMap, if_pos hslot]
      exact ⟨hpos, hplaced⟩
    · intro r' hr' slot _ hlost
      obtain rfl := List.mem_singleton.mp hr'
      exact absurd (List.mem_of_getElem? hplaced) hlost
    · intro slot hslot
      rw [assign_slotMap, if_neg (hslot r (List.mem_singleton_self r)), hmap]
  · have hlost : r.owner.stored ∉ cl₁.addrs := by
      rw [haddrs, hplace, mem_placeAll_place, ← hplace]
      exact hx
    rw [if_neg (by omega)]
    refine ⟨hall, ?_, fun _ _ slot _ _ => congrFun hmap slot, fun slot _ => congrFun hmap slot⟩
    intro r' hr' slot _ howned
    obtain rfl := List.mem_singleton.mp hr'
    exact absurd howned hlost

theorem readRange_encoded (junk : List UInt8) (r : SlotRange) (cl : Cluster) (more : List UInt8) :
    ∃ cl', readRange junk cl (r.encode ++ more) = some ⟨cl', more, true⟩ ∧ cl.Installed cl' [r] := by
  have hstart := r.start_le.trans_lt r.stop_lt
  have hstop := r.stop_lt
  unfold vcClusterSlots at hstart hstop
  have hencode : r.encode ++ more = 42 :: decimal 3 ++ crlf ++ (58 :: decimal r.start ++ crlf ++
      (58 :: decimal r.stop ++ crlf ++ (42 :: decimal r.addrs.length ++ crlf ++
        (r.owner.encode ++ (r.copies.flatMap NodeAddr.encode ++ more))))) := by
    simp [SlotRange.encode, SlotRange.addrs, respWriteArrayHeader, respWriteInteger, decimalInt_natCast]
  obtain ⟨l, hrange⟩ := readRange_lines (k := 3) (a := r.start) (b := r.stop) (n := r.addrs.length)
    (by decide) (by omega) (by omega) r.few junk cl (r.owner.encode ++ (r.copies.flatMap NodeAddr.encode ++ more))
  obtain ⟨l', hfirst⟩ := readAddrs_encoded_cons junk r.owner r.copies.length true cl (-1) l
    (r.copies.flatMap NodeAddr.encode ++ more)
  -- the owner is the first address, or nobody
  have howner : (if 0 ≤ (cl.offer r.owner).1 ∧ true = true then (cl.offer r.owner).1 else -1) =
      (cl.offer r.owner).1 := by
    rcases (cl.offer_place r.owner).2 with ⟨hpos, -⟩ | ⟨-, hidx⟩
    · simp [hpos]
    · simp [hidx]
  obtain ⟨cl₁, hrest, haddrs, hmap⟩ := readAddrs_encoded junk r.copies (cl.offer r.owner).2 (cl.offer r.owner).1 l' more
  refine ⟨_, ?_, Cluster.installed_range r haddrs (hmap.trans (cl.offer_slotMap r.owner))⟩
  rw [hencode, hrange]
  show Option.map _ (readAddrs junk (r.copies.length + 1) true cl (-1) l _) = _
  rw [hfirst, howner, hrest]
  rfl

/-- One range, and then ranges that have no slot in common with it. -/
theorem Cluster.Installed.cons {cl cl₁ cl' : Cluster} {r : SlotRange} {rs : List SlotRange}
    (h : cl.Installed cl₁ [r]) (hs : cl₁.Installed cl' rs)
    (hapart : ∀ r' ∈ rs, r.stop < r'.start ∨ r'.stop < r.start) : cl.Installed cl' (r :: rs) := by
  have hmine : ∀ slot, r.Covers slot → ∀ r' ∈ rs, ¬ r'.Covers slot := by
    intro slot hslot r' hr' hslot'
    have := hapart r' hr'
    unfold SlotRange.Covers at hslot hslot'
    omega
  have hmore : cl₁.addrs <+: cl'.addrs := hs.addrs ▸ prefix_placeAll _ _ _
  have hself : r ∈ [r] := List.mem_singleton_self r
  have hkept : ∀ slot, (∀ r' ∈ r :: rs, ¬ r'.Covers slot) → cl'.slotMap slot = cl.slotMap slot := by
    intro slot hslot
    rw [hs.other slot fun r' hr' => hslot r' (List.mem_cons_of_mem r hr')]
    exact h.other slot fun r' hr' => hslot r' (List.mem_cons.mpr (.inl (List.mem_singleton.mp hr')))
  refine ⟨?_, ?_, ?_, hkept⟩
  · rw [hs.addrs, h.addrs, ← placeAll_append]
    simp
  · intro r' hr' slot hslot hin
    rcases List.mem_cons.mp hr' with rfl | hr'
    · -- an owner that has a place now had it when its range was read
      have hfirst : cl₁.addrs = placeAll vcClusterMaxNodes (place vcClusterMaxNodes cl.addrs r'.owner.stored)
          (r'.copies.map NodeAddr.stored) := by
        rw [h.addrs]
        simp [SlotRange.addrs]
      have hin₁ : r'.owner.stored ∈ cl₁.addrs := by
        rw [hs.addrs, hfirst, ← placeAll_append, mem_placeAll_place] at hin
        rw [hfirst, mem_placeAll_place]
        exact hin
      exact (h.owned r' hself slot hslot hin₁).mono hmore (hs.other slot (hmine slot hslot))
    · exact hs.owned r' hr' slot hslot hin
  · intro r' hr' slot hslot hout
    rcases List.mem_cons.mp hr' with rfl | hr'
    · rw [hs.other slot (hmine slot hslot)]
      exact h.lost r' hself slot hslot fun hin => hout (hmore.mem hin)
    · rw [hs.lost r' hr' slot hslot hout]
      refine h.other slot fun r₁ hr₁ hslot₁ => ?_
      cases List.mem_singleton.mp hr₁
      exact hmine slot hslot₁ r' hr' hslot

theorem readRanges_encoded (junk : List UInt8) {rs : List SlotRange}
    (hapart : rs.Pairwise fun r r' => r.stop < r'.start ∨ r'.stop < r.start) (cl : Cluster) (more : List UInt8) :
    ∃ cl', readRanges junk rs.length cl (rs.flatMap SlotRange.encode ++ more) = some (cl', more) ∧
      cl.Installed cl' rs := by
  induction rs generalizing cl with
  | nil => exact ⟨cl, rfl, rfl, nofun, nofun, fun _ _ => rfl⟩
  | cons r rs ih =>
    obtain ⟨hhead, hrest⟩ := List.pairwise_cons.mp hapart
    obtain ⟨cl₁, hrange, hone⟩ := readRange_encoded junk r cl (rs.flatMap SlotRange.encode ++ more)
    obtain ⟨cl', hranges, hmany⟩ := ih hrest cl₁
    refine ⟨cl', ?_, hone.cons hmany hhead⟩
    rw [List.flatMap_cons, List.append_assoc, List.length_cons, readRanges, hrange]
    exact hranges

/-- The addresses of a reply as they are kept, in order. -/
def MapReply.stored (m : MapReply) : List (List UInt8 × Nat) :=
  m.ranges.flatMap fun r => r.addrs.map NodeAddr.stored

/-- The owners of all ranges have short hosts, and places in the table, to which those of `known`
come first. -/
def MapReply.Fits (m : MapReply) (known : List (List UInt8 × Nat)) : Prop :=
  ∀ r ∈ m.ranges, r.owner.host.length ≤ 63 ∧ r.owner.pair ∈ placeAll vcClusterMaxNodes known m.stored

/-- After the ranges have been put into an empty map, it is that of the reply just if all owners
fit. -/
theorem Cluster.Installed.hasMap_iff {cl cl' : Cluster} {m : MapReply} (h : cl.Installed cl' m.ranges)
    (hempty : ∀ slot, cl.slotMap slot = -1) : cl'.HasMap m ↔ m.Fits cl.addrs := by
  have haddrs : cl'.addrs = placeAll vcClusterMaxNodes cl.addrs m.stored := h.addrs
  unfold MapReply.Fits
  rw [← haddrs]
  constructor
  · intro hmap r hr
    have hroute := (hmap r.start (r.start_le.trans_lt r.stop_lt)).1 r hr r.covers_start
    obtain ⟨hpos, haddr⟩ := (cl'.routesTo_iff _ _ _).mp hroute
    have hplaced : r.owner.stored ∈ cl'.addrs := by
      by_contra hout
      rw [h.lost r hr r.start r.covers_start hout, hempty] at hpos
      exact absurd hpos (by decide)
    obtain ⟨-, haddr'⟩ := (cl'.routesTo_iff _ _ _).mp (h.owned r hr r.start r.covers_start hplaced)
    have hsame : r.owner.host = r.owner.host.take 63 :=
      congrArg Prod.fst (Option.some.inj (haddr.symm.trans haddr'))
    refine ⟨?_, List.mem_of_getElem? haddr⟩
    rw [hsame]
    exact List.length_take_le _ _
  · intro hfits slot hslot
    refine ⟨fun r hr hcovers => ?_, fun hno => (h.other slot hno).trans (hempty slot)⟩
    obtain ⟨hshort, hplaced⟩ := hfits r hr
    have hstored : r.owner.stored = r.owner.pair := by
      rw [NodeAddr.stored, List.take_of_length_le hshort]
      rfl
    have hroute := h.owned r hr slot hcovers (hstored ▸ hplaced)
    rw [hstored] at hroute
    exact hroute

/-! ## All or nothing -/

/-- The node has answered `s` on a connection, and all of it arrives. A stream that is cut off is a
shorter `s`. -/
structure Answered (w : ClusterWorld) (i j : Nat) (s : List UInt8) : Prop where
  node : i < w.cl.nodes.length
  unread : (w.cl.conn i j).unread = s
  arrives : ∀ k, s.length ≤ (w.envs k).arrives

/-- What a refresh should do with the answer of a node: install the map that it describes and
return 0, or leave the map and not return 0. -/
def AllOrNothing (w : ClusterWorld) (i j : Nat) (s : List UInt8) : Prop :=
  (((refreshReply i j).run clusterExec w).2 = .done ∧
    ∃ (m : MapReply) (more : List UInt8), s = m.encode ++ more ∧
      ((refreshReply i j).run clusterExec w).1.cl.HasMap m) ∨
  (((refreshReply i j).run clusterExec w).2 = .next ∧
    ∀ slot, ((refreshReply i j).run clusterExec w).1.cl.slotMap slot = w.cl.slotMap slot)

/-- The first line can be read, and starts an array. -/
def StartsArray (s : List UInt8) : Prop :=
  ∃ line rest, s = line ++ crlf ++ rest ∧ ShortLine line ∧ line.headD 0 = 42

section Program

variable {w : ClusterWorld} {i j : Nat} {s : List UInt8}

theorem Answered.stream (h : Answered w i j s) : w.stream i j = s := by
  rw [ClusterWorld.stream, h.unread]
  exact List.take_of_length_le (h.arrives _)

/-- What is left behind the first line is the answer that the reader of the map is given. -/
theorem Answered.readTo (h : Answered w i j s) {rest : List UInt8} (hrest : rest.length ≤ s.length) :
    Answered (w.readTo w.next.cl i j rest) i j rest := by
  have hnode : i < w.next.cl.nodes.length := (length_mark w.cl _).symm ▸ h.node
  refine ⟨?_, ?_, fun k => hrest.trans (h.arrives k)⟩
  · exact (length_setConn w.next.cl i j _).symm ▸ hnode
  · show ((w.next.cl.setConn i j _).conn i j).unread = rest
    rw [conn_setConn_self hnode]
    show rest ++ (w.cl.conn i j).unread.drop w.env.arrives = rest
    have harrives : s.length ≤ w.env.arrives := h.arrives _
    rw [h.unread, List.drop_of_length_le harrives, List.append_nil]

/-- What `vc_cluster_refresh` gets for the first line. -/
theorem Answered.headerRead (h : Answered w i j s) :
    ((readHeader i j).run clusterExec w).2 =
      if (sockReadline 256 w.env.junk s).ok then some (sockReadline 256 w.env.junk s).buf else none := by
  rw [← h.stream]
  rfl

/-- What the reader of the map does with the answer. -/
theorem Answered.mapRead (h : Answered w i j s) (nranges : Int) :
    (readSlots w.env.junk w.next.cl nranges s = none ∧
        (readMap i j nranges).run clusterExec w = (w.next, false)) ∨
      ∃ cl rest, readSlots w.env.junk w.next.cl nranges s = some (cl, rest) ∧
        (readMap i j nranges).run clusterExec w = (w.readTo cl i j rest, true) := by
  have hrun : (readMap i j nranges).run clusterExec w = w.readMap i j nranges := rfl
  rw [hrun, ClusterWorld.readMap, h.stream]
  cases readSlots w.env.junk w.next.cl nranges s with
  | none => exact .inl ⟨rfl, rfl⟩
  | some r => exact .inr ⟨r.1, r.2, rfl, rfl⟩

/-- Without the first line of an array, the map is left and the next node is asked. -/
theorem refreshReply_next (h : Answered w i j s) (hstart : ¬ StartsArray s) :
    ((refreshReply i j).run clusterExec w).2 = .next ∧
      ((refreshReply i j).run clusterExec w).1.cl.slotMap = w.cl.slotMap := by
  unfold refreshReply
  rw [Calls.run_bind, h.headerRead]
  by_cases hok : (sockReadline 256 w.env.junk s).ok = true
  · obtain ⟨line, rest, hs, hno, hlen⟩ := (sockReadline_ok_iff _ _ _).mp hok
    have hshort : ShortLine line := ⟨hno, hlen⟩
    have hplain : line.headD 0 ≠ 42 := fun hstar => hstart ⟨line, rest, hs, hshort, hstar⟩
    have hhead (tl : List UInt8) : (line ++ 0 :: tl).headD 0 ≠ 42 := by
      cases line with
      | nil => exact (by decide : (0 : UInt8) ≠ 42)
      | cons c line => exact hplain
    rw [if_pos hok, hs, hshort.read]
    simp only [if_pos (hhead _)]
    exact ⟨rfl, rfl⟩
  · rw [if_neg hok]
    exact ⟨rfl, rfl⟩

/-- With the first line of an array, the rest is read into an empty map. -/
theorem refreshReply_array (h : Answered w i j s) {line rest : List UInt8} (hs : s = line ++ crlf ++ rest)
    (hline : ShortLine line) (hstar : line.headD 0 = 42) :
    ∃ (junk tl : List UInt8) (cl : Cluster), cl.addrs = w.cl.addrs ∧
      ((readSlots junk cl (atoi (line ++ 0 :: tl).tail) rest = none ∧
          ((refreshReply i j).run clusterExec w).2 = .broken) ∨
        ∃ cl' rest', readSlots junk cl (atoi (line ++ 0 :: tl).tail) rest = some (cl', rest') ∧
          ((refreshReply i j).run clusterExec w).2 = .done ∧
          ((refreshReply i j).run clusterExec w).1.cl.addrs = cl'.addrs ∧
          ((refreshReply i j).run clusterExec w).1.cl.slotMap = cl'.slotMap) := by
  have hread := hline.read w.env.junk rest
  rw [← hs] at hread
  generalize htl : 10 :: w.env.junk.drop (line.length + 2) = tl at hread
  have hhead : ¬ (line ++ 0 :: tl).headD 0 ≠ 42 := by
    cases line with
    | nil => exact absurd hstar (by decide)
    | cons c line => exact not_not.mpr hstar
  have hw₁ : ((readHeader i j).run clusterExec w).1 = w.readTo w.next.cl i j rest := by
    show w.readTo w.next.cl i j (sockReadline 256 w.env.junk (w.stream i j)).rest = _
    rw [h.stream, hread]
  have hrest : Answered (w.readTo w.next.cl i j rest) i j rest := h.readTo (by simp [hs]; omega)
  refine ⟨(w.readTo w.next.cl i j rest).env.junk, tl, (w.readTo w.next.cl i j rest).next.cl, ?_, ?_⟩
  · show ((w.next.cl.setConn i j _).mark _).addrs = w.cl.addrs
    rw [addrs_mark, addrs_setConn]
    exact addrs_mark _ _
  · unfold refreshReply
    rw [Calls.run_bind, h.headerRead, hread, hw₁]
    simp only [if_true, if_neg hhead, Calls.run_bind]
    rcases hrest.mapRead (atoi (line ++ 0 :: tl).tail) with ⟨hslots, hrun⟩ | ⟨cl', rest', hslots, hrun⟩
    · rw [hrun]
      exact .inl ⟨hslots, rfl⟩
    · rw [hrun]
      refine .inr ⟨cl', rest', hslots, rfl, ?_, rfl⟩
      show (((cl'.setConn i j _).mark _).setConn i j _).addrs = cl'.addrs
      rw [addrs_setConn, addrs_mark, addrs_setConn]

/-- An answer that describes a map is read to its end, and the map is installed just if its owners
fit. -/
theorem refreshReply_encoded (h : Answered w i j s) {m : MapReply} {more : List UInt8} (hs : s = m.encode ++ more) :
    ((refreshReply i j).run clusterExec w).2 = .done ∧
      (((refreshReply i j).run clusterExec w).1.cl.HasMap m ↔ m.Fits w.cl.addrs) := by
  have hcount : m.ranges.length < 2 ^ 31 := m.length_le.trans_lt (by decide)
  have hline : ShortLine (42 :: decimal m.ranges.length) := .decimal (by decide) (lt_trans hcount (by decide))
  have hencode : s = 42 :: decimal m.ranges.length ++ crlf ++ (m.ranges.flatMap SlotRange.encode ++ more) := by
    rw [hs]
    simp [MapReply.encode, respWriteArrayHeader]
  obtain ⟨junk, tl, cl, haddrs, hread⟩ := refreshReply_array h hencode hline rfl
  rw [atoi_line 42 hcount] at hread
  obtain ⟨cl₁, hranges, hinst⟩ := readRanges_encoded junk m.apart { cl with slotMap := fun _ => -1 } more
  have hslots : readSlots junk cl m.ranges.length (m.ranges.flatMap SlotRange.encode ++ more) = some (cl₁, more) :=
    hranges
  rw [hslots] at hread
  rcases hread with ⟨hnone, -⟩ | ⟨cl', rest', hsome, hdone, haddrs', hmap'⟩
  · cases hnone
  · cases hsome
    refine ⟨hdone, ?_⟩
    have hfits : cl₁.HasMap m ↔ m.Fits cl.addrs := hinst.hasMap_iff fun _ => rfl
    rw [← haddrs, ← hfits]
    unfold Cluster.HasMap
    simp only [Cluster.routesTo_iff, haddrs', hmap']

end Program

/-- A refresh installs the map that the answer of a node describes and returns 0, or leaves the map
and asks the next node, if and only if the answer does not start like an array, or describes a map
all of whose owners have hosts of at most 63 bytes and places among the 64 nodes. -/
theorem refresh_all_or_nothing_iff {w : ClusterWorld} {i j : Nat} {s : List UInt8} (h : Answered w i j s) :
    AllOrNothing w i j s ↔
      ¬ StartsArray s ∨ ∃ (m : MapReply) (more : List UInt8), s = m.encode ++ more ∧ m.Fits w.cl.addrs := by
  constructor
  · rintro (⟨-, m, more, hs, hmap⟩ | ⟨hnext, -⟩)
    · exact .inr ⟨m, more, hs, (refreshReply_encoded h hs).2.mp hmap⟩
    · refine .inl ?_
      rintro ⟨line, rest, hs, hline, hstar⟩
      obtain ⟨_, _, _, -, hread⟩ := refreshReply_array h hs hline hstar
      rcases hread with ⟨-, hbroken⟩ | ⟨_, _, -, hdone, -⟩
      · exact absurd (hbroken.symm.trans hnext) (by decide)
      · exact absurd (hdone.symm.trans hnext) (by decide)
  · rintro (hstart | ⟨m, more, hs, hfits⟩)
    · obtain ⟨hnext, hmap⟩ := refreshReply_next h hstart
      exact .inr ⟨hnext, congrFun hmap⟩
    · obtain ⟨hdone, hmap⟩ := refreshReply_encoded h hs
      exact .inl ⟨hdone, m, more, hs, hmap.mpr hfits⟩

/-- A client whose only node has all slots, with the answer of that node. -/
def answeredBy (s : List UInt8) : ClusterWorld where
  cl := { seedCluster with slotMap := fun _ => 0 }.setConn 0 0 ⟨true, true, s⟩
  envs := fun _ => calmNet
  calls := 0
  executed := []

theorem answeredBy_answered {s : List UInt8} (h : s.length ≤ 4096) : Answered (answeredBy s) 0 0 s :=
  ⟨Nat.succ_pos 0, rfl, fun _ => h⟩

/-- All slots at `127.0.0.1:6379`. -/
def loneMap : MapReply where
  ranges := [⟨0, 16383, ⟨str "127.0.0.1", 6379, by decide +kernel, by decide +kernel, by decide⟩, [],
    Nat.zero_le _, by decide, by decide⟩]
  apart := List.pairwise_singleton _ _

/-- A whole map is installed. -/
theorem refresh_installs_lone_map : Answered (answeredBy loneMap.encode) 0 0 loneMap.encode ∧
    loneMap.Fits (answeredBy loneMap.encode).cl.addrs ∧ AllOrNothing (answeredBy loneMap.encode) 0 0 loneMap.encode := by
  have hanswer : Answered (answeredBy loneMap.encode) 0 0 loneMap.encode :=
    answeredBy_answered (by decide +kernel)
  have hfits : loneMap.Fits (answeredBy loneMap.encode).cl.addrs := by
    intro r hr
    obtain rfl := List.mem_singleton.mp hr
    decide +kernel
  exact ⟨hanswer, hfits, (refresh_all_or_nothing_iff hanswer).mpr (.inr ⟨loneMap, [], by simp, hfits⟩)⟩

example : loneMap.encode =
    str "*1\r\n*3\r\n:0\r\n:16383\r\n*1\r\n*2\r\n$9\r\n127.0.0.1\r\n:6379\r\n" := by
  decide +kernel

/-- The first line of an answer and nothing else: the map is lost, and the refresh returns 0. -/
theorem cut_off_refresh_clears :
    Answered (answeredBy (str "*1\r\n")) 0 0 (str "*1\r\n") ∧
      (answeredBy (str "*1\r\n")).cl.slotMap 0 = 0 ∧
      ((refreshReply 0 0).run clusterExec (answeredBy (str "*1\r\n"))).2 = .done ∧
      ((refreshReply 0 0).run clusterExec (answeredBy (str "*1\r\n"))).1.cl.slotMap 0 = -1 ∧
      ¬ AllOrNothing (answeredBy (str "*1\r\n")) 0 0 (str "*1\r\n") := by
  have hdone : ((refreshReply 0 0).run clusterExec (answeredBy (str "*1\r\n"))).2 = .done := by decide +kernel
  refine ⟨answeredBy_answered (by decide +kernel), rfl, hdone, by decide +kernel, ?_⟩
  rintro (⟨-, m, more, hs, -⟩ | ⟨hnext, -⟩)
  · -- an answer with a range is longer, and one without is another
    obtain ⟨ranges, apart⟩ := m
    cases ranges with
    | nil =>
      have hzero : decimal 0 = [48] := by decide
      have hcount : (str "*1\r\n")[1]? = some 48 := by
        rw [hs]
        simp [MapReply.encode, respWriteArrayHeader, hzero]
      exact absurd hcount (by decide +kernel)
    | cons r rs =>
      have hlen := congrArg List.length hs
      have hfour : (str "*1\r\n").length = 4 := by decide +kernel
      rw [hfour] at hlen
      simp [MapReply.encode, SlotRange.encode, respWriteArrayHeader, crlf] at hlen
      omega
  · exact absurd (hdone.symm.trans hnext) (by decide)

end VoidCache
