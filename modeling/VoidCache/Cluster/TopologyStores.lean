import VoidCache.Cluster.Topology

/-!
# Where the reader of the map writes

`vc_cluster_refresh` reads the reply to `CLUSTER SLOTS` into arrays on its stack, and into the slot
map. The functions here list the stores of each part of it, in order, next to what that part
returns. Lines and slots are never stored outside. The host of an address inside an array of its own
is read into 256 bytes, however long the node says that it is: `topology_stores_inside_iff` is exact
about the replies for which this is harmless.
-/
namespace VoidCache

/-! ## Stores -/

/-- The arrays of `vc_cluster_refresh`. -/
inductive TopoArray where
  | line | l | tmp | hbuf | host | slotMap
  deriving DecidableEq, Repr

def TopoArray.size : TopoArray → Nat
  | line | l | tmp | hbuf => 256
  | host => 64
  | slotMap => vcClusterSlots

/-- A store to `count` elements of an array, from index `start` on. -/
structure ArrayStore where
  arr : TopoArray
  start : Int
  count : Nat
  deriving DecidableEq, Repr

def ArrayStore.Inside (st : ArrayStore) : Prop :=
  st.count = 0 ∨ 0 ≤ st.start ∧ st.start + st.count ≤ st.arr.size

instance (st : ArrayStore) : Decidable st.Inside := inferInstanceAs (Decidable (_ ∨ _ ∧ _))

def AllInside (sts : List ArrayStore) : Prop := ∀ st ∈ sts, st.Inside

@[simp] theorem allInside_nil : AllInside [] := by simp [AllInside]

@[simp] theorem allInside_cons (st : ArrayStore) (sts : List ArrayStore) :
    AllInside (st :: sts) ↔ st.Inside ∧ AllInside sts := List.forall_mem_cons

@[simp] theorem allInside_append (sts sts' : List ArrayStore) :
    AllInside (sts ++ sts') ↔ AllInside sts ∧ AllInside sts' := List.forall_mem_append

/-- The loop of `sock_readline`: each byte goes behind those before it, and at the end a zero to
where the CR is. -/
def readLineLoopStores (arr : TopoArray) : Nat → List UInt8 → List UInt8 → List ArrayStore
  | 0, _, _ => []
  | _ + 1, _, [] => []
  | n + 1, line, ch :: s =>
    ⟨arr, line.length, 1⟩ ::
      if crlf <:+ line ++ [ch] then [⟨arr, line.length - 1, 1⟩]
      else readLineLoopStores arr n (line ++ [ch]) s

def sockReadlineStores (arr : TopoArray) (maxlen : Nat) (s : List UInt8) : List ArrayStore :=
  readLineLoopStores arr (maxlen - 1) [] s

def sockReadnStores (arr : TopoArray) (n : Nat) (s : List UInt8) : List ArrayStore :=
  [⟨arr, 0, (sockReadn n s).got.length⟩]

/-- `snprintf(host, sizeof(host), "%.*s", (int)(sizeof(host)-1), text)` -/
def snprintfStores (text : List UInt8) : List ArrayStore := [⟨.host, 0, ((cstr text).take 63).length + 1⟩]

/-- The loop over the slots of a range. -/
def assignStores (slotStart slotEnd : Int) : List ArrayStore :=
  let s := if 0 < slotStart then slotStart else 0
  let e := if slotEnd < vcClusterSlots then slotEnd else vcClusterSlots - 1
  [⟨.slotMap, s, (e + 1 - s).toNat⟩]

/-- One address, whose first line is in `l`. -/
def readAddrStores (junk l s : List UInt8) : List ArrayStore :=
  if l.headD 0 = 42 then
    let t := sockReadline 256 junk s
    let hlen := (atoll t.buf.tail % 2 ^ 64).toNat
    let r := sockReadn ((hlen + 2) % 2 ^ 64) t.rest
    sockReadlineStores .tmp 256 s ++ sockReadnStores .hbuf ((hlen + 2) % 2 ^ 64) t.rest ++
      ⟨.hbuf, hlen, 1⟩ ::
        -- after a store outside, nothing can be said
        if 256 < r.got.length ∨ 256 ≤ hlen then []
        else
          sockReadlineStores .tmp 256 r.rest ++ snprintfStores ((r.got ++ junk.drop r.got.length).take hlen)
  else snprintfStores l.tail ++ sockReadlineStores .l 256 s

def readAddrsStores (junk : List UInt8) : Nat → List UInt8 → List UInt8 → List ArrayStore
  | 0, _, _ => []
  | n + 1, l, s =>
    let a := sockReadline 256 l s
    sockReadlineStores .l 256 s ++
      if !a.ok then []
      else
        readAddrStores junk a.buf a.rest ++
          match readAddr junk a.buf a.rest with
          | none => []
          | some (_, _, l, s) => readAddrsStores junk n l s

def readRangeStores (junk : List UInt8) (cl : Cluster) (s : List UInt8) : List ArrayStore :=
  let l1 := sockReadline 256 junk s
  sockReadlineStores .l 256 s ++
    if !l1.ok then []
    else
      let l2 := sockReadline 256 l1.buf l1.rest
      sockReadlineStores .l 256 l1.rest ++
        if !l2.ok then []
        else
          let l3 := sockReadline 256 l2.buf l2.rest
          sockReadlineStores .l 256 l2.rest ++
            if !l3.ok then []
            else
              let l4 := sockReadline 256 l3.buf l3.rest
              sockReadlineStores .l 256 l3.rest ++
                if !l4.ok then []
                else
                  let naddrs := (atoi l4.buf.tail).toNat
                  readAddrsStores junk naddrs l4.buf l4.rest ++
                    match readAddrs junk naddrs true cl (-1) l4.buf l4.rest with
                    | none => []
                    | some (_, owner, _) =>
                      if 0 ≤ owner then assignStores (atoi l2.buf.tail) (atoi l3.buf.tail) else []

def readRangesStores (junk : List UInt8) : Nat → Cluster → List UInt8 → List ArrayStore
  | 0, _, _ => []
  | r + 1, cl, s =>
    readRangeStores junk cl s ++
      match readRange junk cl s with
      | none => []
      | some range => if range.goesOn then readRangesStores junk r range.cl range.rest else []

/-- The map is cleared and filled. -/
def readSlotsStores (junk : List UInt8) (cl : Cluster) (nranges : Int) (s : List UInt8) : List ArrayStore :=
  ⟨.slotMap, 0, vcClusterSlots⟩ :: readRangesStores junk nranges.toNat { cl with slotMap := fun _ => -1 } s

/-- All that `vc_cluster_refresh` stores while it reads the reply of a node. -/
def readTopologyStores (junk : List UInt8) (cl : Cluster) (s : List UInt8) : List ArrayStore :=
  let h := sockReadline 256 junk s
  sockReadlineStores .line 256 s ++
    if !h.ok ∨ h.buf.headD 0 ≠ 42 then [] else readSlotsStores junk cl (atoi h.buf.tail) h.rest

/-! ## Lines, hosts and slots -/

theorem readLineLoopStores_inside {arr : TopoArray} {n : Nat} {line : List UInt8}
    (h : line.length + n ≤ arr.size) (s : List UInt8) : AllInside (readLineLoopStores arr n line s) := by
  induction n generalizing line s with
  | zero => simp [readLineLoopStores]
  | succ n ih =>
    cases s with
    | nil => simp [readLineLoopStores]
    | cons ch s =>
      have hbyte : ArrayStore.Inside ⟨arr, line.length, 1⟩ := by
        refine .inr ⟨by simp, ?_⟩
        dsimp only
        omega
      unfold readLineLoopStores
      refine (allInside_cons _ _).mpr ⟨hbyte, ?_⟩
      split_ifs with hend
      · -- CR and LF are there, so there is a byte before the last
        have hlen : 2 ≤ line.length + 1 := by simpa [crlf] using hend.length_le
        refine (allInside_cons _ _).mpr ⟨.inr ⟨?_, ?_⟩, allInside_nil⟩ <;> dsimp only <;> omega
      · exact ih (by simp only [List.length_append, List.length_singleton]; omega) s

theorem sockReadlineStores_inside {arr : TopoArray} {maxlen : Nat} (h : maxlen ≤ arr.size)
    (s : List UInt8) : AllInside (sockReadlineStores arr maxlen s) :=
  readLineLoopStores_inside (by simp only [List.length_nil]; omega) s

theorem snprintfStores_inside (text : List UInt8) : AllInside (snprintfStores text) := by
  have hlen : ((cstr text).take 63).length ≤ 63 := List.length_take_le _ _
  refine (allInside_cons _ _).mpr ⟨.inr ⟨le_refl 0, ?_⟩, allInside_nil⟩
  simp only [TopoArray.size]
  omega

/-- Whatever the bounds of a range are, its slots are there. -/
theorem assignStores_inside (slotStart slotEnd : Int) : AllInside (assignStores slotStart slotEnd) := by
  refine (allInside_cons _ _).mpr ⟨?_, allInside_nil⟩
  unfold ArrayStore.Inside
  simp only [TopoArray.size, vcClusterSlots]
  split_ifs <;> omega

/-! ## The host fields of a reply -/

/-- A host as a node announces it: its length, and how many bytes come behind the announcement. -/
structure HostField where
  len : Nat
  avail : Nat
  deriving DecidableEq, Repr

/-- The host, its CR LF and the zero behind it have room in 256 bytes. -/
def HostField.Fits (f : HostField) : Prop := f.len < 256 ∧ min (f.len + 2) f.avail ≤ 256

instance (f : HostField) : Decidable f.Fits := inferInstanceAs (Decidable (_ ∧ _))

/-- The host that the next line announces. -/
def hostField (junk s : List UInt8) : HostField :=
  let t := sockReadline 256 junk s
  ⟨(atoll t.buf.tail % 2 ^ 64).toNat, t.rest.length⟩

/-- The host that an address announces whose first line is in `l`. Only an address that is an array
announces one. -/
def addrHost (junk l s : List UInt8) : List HostField := if l.headD 0 = 42 then [hostField junk s] else []

/-- The buffer and the stream behind such an address. -/
def addrNext (junk l s : List UInt8) : List UInt8 × List UInt8 :=
  if l.headD 0 = 42 then
    let t := sockReadline 256 junk s
    (l, (sockReadline 256 t.buf (t.rest.drop (((hostField junk s).len + 2) % 2 ^ 64))).rest)
  else
    let p := sockReadline 256 l s
    (p.buf, p.rest)

/-- The hosts that `n` addresses announce, as far as they can be read. -/
def addrFields (junk : List UInt8) : Nat → List UInt8 → List UInt8 → List HostField
  | 0, _, _ => []
  | n + 1, l, s =>
    let a := sockReadline 256 l s
    if !a.ok then []
    else
      addrHost junk a.buf a.rest ++
        addrFields junk n (addrNext junk a.buf a.rest).1 (addrNext junk a.buf a.rest).2

/-- What is left behind `n` addresses. -/
def addrsEnd (junk : List UInt8) : Nat → List UInt8 → List UInt8 → List UInt8
  | 0, _, s => s
  | n + 1, l, s =>
    let a := sockReadline 256 l s
    if !a.ok then a.rest
    else addrsEnd junk n (addrNext junk a.buf a.rest).1 (addrNext junk a.buf a.rest).2

/-- The second, third and fourth line of a range, if all four can be read. -/
def rangeLines (junk s : List UInt8) : Option (LineRead × LineRead × LineRead) :=
  let l1 := sockReadline 256 junk s
  let l2 := sockReadline 256 l1.buf l1.rest
  let l3 := sockReadline 256 l2.buf l2.rest
  let l4 := sockReadline 256 l3.buf l3.rest
  if l1.ok ∧ l2.ok ∧ l3.ok ∧ l4.ok then some (l2, l3, l4) else none

/-- The hosts that `n` ranges announce. -/
def rangesFields (junk : List UInt8) : Nat → List UInt8 → List HostField
  | 0, _ => []
  | n + 1, s =>
    match rangeLines junk s with
    | none => []
    | some (_, _, l4) =>
      let naddrs := (atoi l4.buf.tail).toNat
      addrFields junk naddrs l4.buf l4.rest ++ rangesFields junk n (addrsEnd junk naddrs l4.buf l4.rest)

/-- The hosts that a reply to `CLUSTER SLOTS` announces. -/
def hostFields (junk s : List UInt8) : List HostField :=
  let h := sockReadline 256 junk s
  if !h.ok ∨ h.buf.headD 0 ≠ 42 then [] else rangesFields junk (atoi h.buf.tail).toNat h.rest

def AllFit (fs : List HostField) : Prop := ∀ f ∈ fs, f.Fits

instance (fs : List HostField) : Decidable (AllFit fs) := inferInstanceAs (Decidable (∀ f ∈ fs, f.Fits))

@[simp] theorem allFit_nil : AllFit [] := by simp [AllFit]

@[simp] theorem allFit_append (fs fs' : List HostField) : AllFit (fs ++ fs') ↔ AllFit fs ∧ AllFit fs' :=
  List.forall_mem_append

/-! ## One address -/

section Addr

variable {junk l s : List UInt8}

theorem allFit_addrHost_star (hstar : l.headD 0 = 42) :
    AllFit (addrHost junk l s) ↔ (hostField junk s).Fits := by
  rw [addrHost, if_pos hstar]
  exact List.forall_mem_singleton

theorem allFit_addrHost_plain (hstar : l.headD 0 ≠ 42) : AllFit (addrHost junk l s) := by
  rw [addrHost, if_neg hstar]
  exact allFit_nil

/-- What is stored of a host, and the zero behind it, when its length is `len`. -/
theorem hbufStores_inside_iff (len : Nat) (s : List UInt8) :
    AllInside (sockReadnStores .hbuf ((len + 2) % 2 ^ 64) s) ∧ ArrayStore.Inside ⟨.hbuf, len, 1⟩ ↔
      HostField.Fits ⟨len, s.length⟩ := by
  unfold sockReadnStores HostField.Fits
  simp only [allInside_cons, allInside_nil, and_true, ArrayStore.Inside, TopoArray.size, sockReadn,
    List.length_take]
  omega

theorem lineStores_inside {arr : TopoArray} (harr : arr.size = 256) (s : List UInt8) :
    AllInside (sockReadlineStores arr 256 s) := sockReadlineStores_inside harr.ge s

theorem readAddrStores_inside_iff (junk l s : List UInt8) :
    AllInside (readAddrStores junk l s) ↔ AllFit (addrHost junk l s) := by
  unfold readAddrStores
  by_cases hstar : l.headD 0 = 42
  · rw [if_pos hstar, allFit_addrHost_star hstar]
    refine Iff.trans ?_ (hbufStores_inside_iff _ _)
    rw [allInside_append, allInside_append, allInside_cons]
    constructor
    · rintro ⟨⟨-, hhost⟩, hzero, -⟩
      exact ⟨hhost, hzero⟩
    · rintro ⟨hhost, hzero⟩
      refine ⟨⟨lineStores_inside rfl s, hhost⟩, hzero, ?_⟩
      split_ifs
      · exact allInside_nil
      · exact (allInside_append _ _).mpr ⟨lineStores_inside rfl _, snprintfStores_inside _⟩
  · rw [if_neg hstar, allInside_append]
    exact iff_of_true ⟨snprintfStores_inside _, lineStores_inside rfl s⟩ (allFit_addrHost_plain hstar)

/-- Whether the reader goes on behind a host. -/
theorem fits_iff (len : Nat) (s : List UInt8) :
    HostField.Fits ⟨len, s.length⟩ ↔ ¬ (256 < (sockReadn ((len + 2) % 2 ^ 64) s).got.length ∨ 256 ≤ len) := by
  unfold HostField.Fits sockReadn
  rw [List.length_take]
  dsimp only
  omega

theorem readAddr_of_fits (h : AllFit (addrHost junk l s)) :
    ∃ host port, readAddr junk l s = some (host, port, addrNext junk l s) := by
  unfold readAddr addrNext
  by_cases hstar : l.headD 0 = 42
  · rw [if_pos hstar, if_pos hstar]
    exact ⟨_, _, if_neg ((fits_iff _ _).mp ((allFit_addrHost_star hstar).mp h))⟩
  · rw [if_neg hstar, if_neg hstar]
    exact ⟨_, _, rfl⟩

theorem readAddr_of_not_fits (h : ¬ AllFit (addrHost junk l s)) : readAddr junk l s = none := by
  have hstar : l.headD 0 = 42 := by
    by_contra hstar
    exact h (allFit_addrHost_plain hstar)
  rw [allFit_addrHost_star hstar] at h
  unfold readAddr
  rw [if_pos hstar]
  exact if_pos (not_not.mp fun hfew => h ((fits_iff _ _).mpr hfew))

end Addr

/-! ## Addresses and ranges -/

section Ranges

variable {junk : List UInt8}

/-- The addresses are read to their end if all their hosts fit. -/
theorem readAddrs_of_fits {n : Nat} {l s : List UInt8} (h : AllFit (addrFields junk n l s)) (first : Bool)
    (cl : Cluster) (owner : Int) :
    ∃ cl' owner', readAddrs junk n first cl owner l s = some (cl', owner', addrsEnd junk n l s) := by
  induction n generalizing first cl owner l s with
  | zero => exact ⟨_, _, rfl⟩
  | succ n ih =>
    unfold readAddrs addrsEnd
    unfold addrFields at h
    dsimp only at h ⊢
    split_ifs at h ⊢
    · exact ⟨_, _, rfl⟩
    · obtain ⟨haddr, hrest⟩ := (allFit_append _ _).mp h
      obtain ⟨host, port, hread⟩ := readAddr_of_fits haddr
      rw [hread]
      exact ih hrest _ _ _

theorem readAddrs_of_not_fits {n : Nat} {l s : List UInt8} (h : ¬ AllFit (addrFields junk n l s)) (first : Bool)
    (cl : Cluster) (owner : Int) : readAddrs junk n first cl owner l s = none := by
  induction n generalizing first cl owner l s with
  | zero => exact absurd allFit_nil h
  | succ n ih =>
    unfold readAddrs
    unfold addrFields at h
    dsimp only at h ⊢
    split_ifs at h ⊢
    · exact absurd allFit_nil h
    · by_cases haddr : AllFit (addrHost junk (sockReadline 256 l s).buf (sockReadline 256 l s).rest)
      · obtain ⟨host, port, hread⟩ := readAddr_of_fits haddr
        rw [hread]
        exact ih (fun hrest => h ((allFit_append _ _).mpr ⟨haddr, hrest⟩)) _ _ _
      · rw [readAddr_of_not_fits haddr]

theorem readAddrsStores_inside_iff (junk : List UInt8) (n : Nat) (l s : List UInt8) :
    AllInside (readAddrsStores junk n l s) ↔ AllFit (addrFields junk n l s) := by
  induction n generalizing l s with
  | zero => exact iff_of_true allInside_nil allFit_nil
  | succ n ih =>
    unfold readAddrsStores addrFields
    dsimp only
    rw [allInside_append, and_iff_right (lineStores_inside rfl s)]
    split_ifs
    · exact iff_of_true allInside_nil allFit_nil
    · rw [allInside_append, allFit_append, readAddrStores_inside_iff]
      refine and_congr_right fun haddr => ?_
      obtain ⟨host, port, hread⟩ := readAddr_of_fits haddr
      rw [hread]
      exact ih _ _

/-- A range whose first four lines can be read. -/
theorem readRange_of_lines {s : List UInt8} {l2 l3 l4 : LineRead} (h : rangeLines junk s = some (l2, l3, l4))
    (cl : Cluster) :
    readRange junk cl s = (readAddrs junk (atoi l4.buf.tail).toNat true cl (-1) l4.buf l4.rest).map
      fun (cl, owner, s) =>
        ⟨if 0 ≤ owner then cl.assign (atoi l2.buf.tail) (atoi l3.buf.tail) owner else cl, s, true⟩ := by
  unfold rangeLines at h
  dsimp only at h
  split_ifs at h with hok
  cases h
  unfold readRange
  simp [hok]

/-- A range that is cut off is the last, and changes nothing. -/
theorem readRange_of_cut {s : List UInt8} (h : rangeLines junk s = none) (cl : Cluster) :
    ∃ rest, readRange junk cl s = some ⟨cl, rest, false⟩ := by
  unfold rangeLines at h
  dsimp only at h
  split_ifs at h with hok
  unfold readRange
  dsimp only
  split_ifs with h1 h2 h3 h4
  · exact ⟨_, rfl⟩
  · exact ⟨_, rfl⟩
  · exact ⟨_, rfl⟩
  · exact ⟨_, rfl⟩
  · simp_all

theorem readRangeStores_of_lines {s : List UInt8} {l2 l3 l4 : LineRead}
    (h : rangeLines junk s = some (l2, l3, l4)) (cl : Cluster) :
    AllInside (readRangeStores junk cl s) ↔ AllFit (addrFields junk (atoi l4.buf.tail).toNat l4.buf l4.rest) := by
  unfold rangeLines at h
  dsimp only at h
  split_ifs at h with hok
  cases h
  obtain ⟨h1, h2, h3, h4⟩ := hok
  have hline (s : List UInt8) : AllInside (sockReadlineStores .l 256 s) := lineStores_inside rfl s
  unfold readRangeStores
  simp only [h1, h2, h3, h4, Bool.not_true, Bool.false_eq_true, if_false, allInside_append, hline, true_and,
    readAddrsStores_inside_iff]
  refine and_iff_left ?_
  split
  · exact allInside_nil
  · split_ifs
    · exact assignStores_inside _ _
    · exact allInside_nil

theorem readRangeStores_of_cut {s : List UInt8} (h : rangeLines junk s = none) (cl : Cluster) :
    AllInside (readRangeStores junk cl s) := by
  unfold rangeLines at h
  dsimp only at h
  split_ifs at h with hok
  have hline (s : List UInt8) : AllInside (sockReadlineStores .l 256 s) := lineStores_inside rfl s
  unfold readRangeStores
  dsimp only
  split_ifs with h1 h2 h3 h4
  · simp [hline]
  · simp [hline]
  · simp [hline]
  · simp [hline]
  · simp_all

theorem readRangesStores_inside_iff (junk : List UInt8) (n : Nat) (cl : Cluster) (s : List UInt8) :
    AllInside (readRangesStores junk n cl s) ↔ AllFit (rangesFields junk n s) := by
  induction n generalizing cl s with
  | zero => exact iff_of_true allInside_nil allFit_nil
  | succ n ih =>
    unfold readRangesStores rangesFields
    cases hlines : rangeLines junk s with
    | none =>
      obtain ⟨rest, hread⟩ := readRange_of_cut hlines cl
      rw [hread, allInside_append]
      exact iff_of_true ⟨readRangeStores_of_cut hlines cl, allInside_nil⟩ allFit_nil
    | some lines =>
      obtain ⟨l2, l3, l4⟩ := lines
      rw [allInside_append, readRangeStores_of_lines hlines, readRange_of_lines hlines]
      refine Iff.trans (and_congr_right fun hfit => ?_) (allFit_append _ _).symm
      obtain ⟨cl', owner, hread⟩ := readAddrs_of_fits hfit true cl (-1)
      rw [hread]
      exact ih _ _

/-- The reader of the map goes on to its end if all hosts fit, and stops at the first that does not. -/
theorem readRanges_isSome_iff (junk : List UInt8) (n : Nat) (cl : Cluster) (s : List UInt8) :
    (readRanges junk n cl s).isSome ↔ AllFit (rangesFields junk n s) := by
  induction n generalizing cl s with
  | zero => exact iff_of_true rfl allFit_nil
  | succ n ih =>
    unfold readRanges rangesFields
    cases hlines : rangeLines junk s with
    | none =>
      obtain ⟨rest, hread⟩ := readRange_of_cut hlines cl
      rw [hread]
      exact iff_of_true rfl allFit_nil
    | some lines =>
      obtain ⟨l2, l3, l4⟩ := lines
      rw [readRange_of_lines hlines]
      refine Iff.trans ?_ (allFit_append _ _).symm
      by_cases hfit : AllFit (addrFields junk (atoi l4.buf.tail).toNat l4.buf l4.rest)
      · obtain ⟨cl', owner, hread⟩ := readAddrs_of_fits hfit true cl (-1)
        rw [hread, and_iff_right hfit]
        exact ih _ _
      · rw [readAddrs_of_not_fits hfit]
        exact iff_of_false (by simp) fun h => hfit h.1

end Ranges

/-! ## The whole reply -/

/-- Every store that `vc_cluster_refresh` makes while it reads the reply of a node is inside its
array if and only if every host that the reply announces inside an array of its own has room: it is
at most 254 bytes long, or 255 with the stream ending before its LF. -/
theorem topology_stores_inside_iff (junk : List UInt8) (cl : Cluster) (s : List UInt8) :
    (∀ st ∈ readTopologyStores junk cl s, st.Inside) ↔ ∀ f ∈ hostFields junk s, f.Fits := by
  show AllInside (readTopologyStores junk cl s) ↔ AllFit (hostFields junk s)
  unfold readTopologyStores hostFields
  dsimp only
  rw [allInside_append, and_iff_right (lineStores_inside rfl s)]
  split_ifs
  · exact iff_of_true allInside_nil allFit_nil
  · have hclear : ArrayStore.Inside ⟨.slotMap, 0, vcClusterSlots⟩ := .inr ⟨le_refl 0, by simp [TopoArray.size]⟩
    unfold readSlotsStores
    rw [allInside_cons, and_iff_right hclear]
    exact readRangesStores_inside_iff _ _ _ _

/-- One range with one address, whose host is said to have 300 bytes. -/
def longHostReply : List UInt8 := str "*1\r\n*3\r\n:0\r\n:16383\r\n*1\r\n*2\r\n$300\r\n"

/-- The zero behind the host is stored 44 bytes behind the array. -/
theorem long_host_overruns :
    ⟨.hbuf, 300, 1⟩ ∈ readTopologyStores [] seedCluster longHostReply ∧
      ¬ ArrayStore.Inside ⟨.hbuf, 300, 1⟩ := by
  decide +kernel

/-- A node's own address with room to spare. -/
example : ∀ st ∈ readTopologyStores [] seedCluster
    (str "*1\r\n*3\r\n:0\r\n:16383\r\n*1\r\n*2\r\n$9\r\n127.0.0.1\r\n:6379\r\n"), st.Inside := by
  decide +kernel

end VoidCache
