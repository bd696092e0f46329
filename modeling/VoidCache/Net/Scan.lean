import VoidCache.Net.Keys

/-!
# Following SCAN to its end

A client calls `SCAN` with cursor 0 and then with each cursor it is given, until it is given 0
again. `scanShards_stops` says where one call stops: at a slot inside a shard, with a cursor to go
on from, or at the end of a shard, with cursor 0. The second happens after the last shard, but also
when a call is full just as an earlier shard ends, and the keys behind it are then never returned.
`scan_visits_once` says for which stores the client gets each key once.
-/
namespace VoidCache

/-! ## Where a call stops -/

section Tables

variable {tables : Nat → List (Option (List UInt8))} {count : Nat}

/-- The keys before slot `j` of shard `s`. -/
def keysUpto (tables : Nat → List (Option (List UInt8))) (s j : Nat) : List (List UInt8) :=
  (List.range s).flatMap (fun i => (tables i).reduceOption) ++ ((tables s).take j).reduceOption

theorem keysUpto_zero_zero : keysUpto tables 0 0 = [] := rfl

theorem keysUpto_shard (s : Nat) : keysUpto tables s (tables s).length = keysUpto tables (s + 1) 0 := by
  simp [keysUpto, List.range_succ]

theorem keysUpto_succ (s : Nat) :
    keysUpto tables (s + 1) 0 = keysUpto tables s 0 ++ (tables s).reduceOption := by
  simp [keysUpto, List.range_succ]

theorem keysUpto_append {s j : Nat} {pre post : List (Option (List UInt8))}
    (h : (tables s).drop j = pre ++ post) :
    keysUpto tables s (j + pre.length) = keysUpto tables s j ++ pre.reduceOption := by
  have htake : (tables s).take (j + pre.length) = (tables s).take j ++ pre := by
    rw [List.take_add, h, List.take_left]
  rw [keysUpto, htake, List.reduceOption_append, ← List.append_assoc]
  rfl

theorem keysUpto_mono_slot (s : Nat) {j j' : Nat} (h : j ≤ j') :
    keysUpto tables s j <+: keysUpto tables s j' :=
  (List.prefix_append_right_inj _).mpr ((List.take_prefix_take_left h).filterMap id)

theorem keysUpto_next (s j : Nat) : keysUpto tables s j <+: keysUpto tables (s + 1) 0 := by
  rw [← keysUpto_shard]
  refine (List.prefix_append_right_inj _).mpr ?_
  rw [List.take_length]
  exact List.IsPrefix.filterMap id <| List.take_prefix j _

theorem keysUpto_mono {s r : Nat} (h : s ≤ r) : keysUpto tables s 0 <+: keysUpto tables r 0 := by
  induction r, h using Nat.le_induction with
  | base => exact List.prefix_rfl
  | succ r _ ih => exact ih.trans (keysUpto_next r 0)

theorem scanSlots_full (slots : List (Option (List UInt8))) (slot : Nat) {acc : List (List UInt8)}
    (hacc : acc.length = count) : scanSlots count slots slot acc = (acc, slot) := by
  cases slots with
  | nil => rfl
  | cons o slots =>
    unfold scanSlots
    rw [if_neg (by omega)]

/-- A call goes through a shard up to its end, or up to the slot that makes it full. -/
theorem scanSlots_stops (slots : List (Option (List UInt8))) (slot : Nat) {acc : List (List UInt8)}
    (hacc : acc.length < count) :
    ∃ pre post, slots = pre ++ post ∧
      scanSlots count slots slot acc = (acc ++ pre.reduceOption, slot + pre.length) ∧
      ((post = [] ∧ (acc ++ pre.reduceOption).length < count) ∨
        ((acc ++ pre.reduceOption).length = count ∧ ∃ k, pre.getLast? = some (some k))) := by
  induction slots generalizing slot acc with
  | nil => exact ⟨[], [], rfl, by simp [scanSlots], .inl ⟨rfl, by simpa using hacc⟩⟩
  | cons o slots ih =>
    unfold scanSlots
    rw [if_pos (by omega)]
    cases o with
    | none =>
      dsimp only
      obtain ⟨pre, post, rfl, hscan, hstop⟩ := ih (slot + 1) hacc
      refine ⟨none :: pre, post, rfl, ?_, ?_⟩
      · rw [hscan, List.reduceOption_cons_of_none, List.length_cons, Nat.add_assoc, Nat.add_comm 1]
      · rw [List.reduceOption_cons_of_none]
        refine hstop.imp_right fun ⟨hfull, k, hk⟩ => ⟨hfull, k, ?_⟩
        rw [List.getLast?_cons, hk]
        rfl
    | some k =>
      dsimp only
      have hlen : (acc ++ [k]).length = acc.length + 1 := by simp
      by_cases hfull : acc.length + 1 = count
      · refine ⟨[some k], slots, rfl, ?_, .inr ⟨?_, k, rfl⟩⟩
        · exact scanSlots_full _ _ (hlen.trans hfull)
        · exact hlen.trans hfull
      · obtain ⟨pre, post, rfl, hscan, hstop⟩ := @ih (slot + 1) (acc ++ [k]) (by omega)
        rw [List.append_assoc, List.singleton_append] at hscan hstop
        refine ⟨some k :: pre, post, rfl, ?_, ?_⟩
        · rw [hscan, List.reduceOption_cons_of_some, List.length_cons, Nat.add_assoc, Nat.add_comm 1]
        · rw [List.reduceOption_cons_of_some]
          refine hstop.imp_right fun ⟨hfull, l, hl⟩ => ⟨hfull, l, ?_⟩
          rw [List.getLast?_cons, hl]
          rfl

/-- A call that started behind the keys of `base` is not full when shard `r` ends. -/
def Passes (tables : Nat → List (Option (List UInt8))) (count : Nat) (base : List (List UInt8))
    (r : Nat) : Prop :=
  ∃ acc, base ++ acc = keysUpto tables (r + 1) 0 ∧ acc.length < count

/-- The last slot of the shard is live. -/
def LastLive (tables : Nat → List (Option (List UInt8))) (s : Nat) : Prop :=
  ∃ k, (tables s).getLast? = some (some k)

/-- How a call ends that started in shard `s` behind the keys of `base`: its keys and its cursor. -/
inductive Stops (tables : Nat → List (Option (List UInt8))) (count : Nat) (base : List (List UInt8))
    (s : Nat) : List (List UInt8) × Nat → Prop
  | inside {s' j' : Nat} {acc : List (List UInt8)} (hs : s ≤ s') (hlt : s' < numShards)
      (hpos : 0 < j') (hj : j' < (tables s').length) (hkeys : base ++ acc = keysUpto tables s' j')
      (hfull : acc.length = count) (hpass : ∀ r, s ≤ r → r < s' → Passes tables count base r) :
      Stops tables count base s (acc, s' <<< 20 ||| j')
  | atEnd {s' : Nat} {acc : List (List UInt8)} (hs : s ≤ s') (hlt : s' < numShards)
      (hkeys : base ++ acc = keysUpto tables (s' + 1) 0)
      (hend : s' + 1 = numShards ∨ acc.length = count ∧ LastLive tables s')
      (hpass : ∀ r, s ≤ r → r < s' → Passes tables count base r) :
      Stops tables count base s (acc, 0)

theorem Stops.earlier {base : List (List UInt8)} {s : Nat} {res : List (List UInt8) × Nat}
    (h : Stops tables count base (s + 1) res) (hs : Passes tables count base s) :
    Stops tables count base s res := by
  have hall {s' : Nat} (hpass : ∀ r, s + 1 ≤ r → r < s' → Passes tables count base r) :
      ∀ r, s ≤ r → r < s' → Passes tables count base r := by
    intro r hr hr'
    obtain rfl | hr := Nat.eq_or_lt_of_le hr
    · exact hs
    · exact hpass r hr hr'
  cases h with
  | inside hle hlt hpos hj hkeys hfull hpass =>
    exact .inside (Nat.le_of_succ_le hle) hlt hpos hj hkeys hfull (hall hpass)
  | atEnd hle hlt hkeys hend hpass =>
    exact .atEnd (Nat.le_of_succ_le hle) hlt hkeys hend (hall hpass)

theorem scanShards_full (n shard slot : Nat) {acc : List (List UInt8)} (hacc : acc.length = count) :
    scanShards tables count n shard slot acc = (acc, 0) := by
  cases n with
  | zero => rfl
  | succ n => rw [scanShards, if_neg (by omega)]

/-- One shard of a call: the call goes on to the next one, or stops. -/
theorem scanShards_step (n : Nat) {s j : Nat} (hs : s < numShards) (hj : j ≤ (tables s).length)
    {base acc : List (List UInt8)} (hacc : acc.length < count)
    (hbase : base ++ acc = keysUpto tables s j) :
    (∃ acc', base ++ acc' = keysUpto tables (s + 1) 0 ∧ acc'.length < count ∧
      scanShards tables count (n + 1) s j acc = scanShards tables count n (s + 1) 0 acc') ∨
    Stops tables count base s (scanShards tables count (n + 1) s j acc) := by
  obtain ⟨pre, post, hsplit, hscan, hstop⟩ := scanSlots_stops ((tables s).drop j) j hacc
  have hkeys : base ++ (acc ++ pre.reduceOption) = keysUpto tables s (j + pre.length) := by
    rw [keysUpto_append hsplit, ← List.append_assoc, hbase]
  have hlen : (tables s).length = j + pre.length + post.length := by
    have hdrop := congrArg List.length hsplit
    rw [List.length_drop, List.length_append] at hdrop
    omega
  have hpass : ∀ r, s ≤ r → r < s → Passes tables count base r := fun r h h' => by omega
  rw [scanShards, if_pos (by omega), hscan]
  dsimp only
  by_cases hpost : post = []
  · -- the shard ends here
    subst hpost
    rw [List.length_nil, Nat.add_zero] at hlen
    rw [← hlen, keysUpto_shard] at hkeys
    rw [if_pos (by omega)]
    obtain ⟨-, hlt⟩ | ⟨hfull, k, hk⟩ := hstop
    · exact .inl ⟨_, hkeys, hlt, rfl⟩
    · have hlast : LastLive tables s := by
        refine ⟨k, ?_⟩
        rw [← List.take_append_drop j (tables s), hsplit, List.append_nil, List.getLast?_append, hk]
        rfl
      rw [scanShards_full _ _ _ hfull]
      exact .inr (.atEnd (Nat.le_refl s) hs hkeys (.inr ⟨hfull, hlast⟩) hpass)
  · have hfull := hstop.resolve_left fun h => hpost h.1
    have hrest := List.length_pos_iff.mpr hpost
    have hpre : 0 < pre.length := by
      obtain ⟨-, k, hk⟩ := hfull
      cases pre with
      | nil => cases hk
      | cons o pre => exact Nat.succ_pos _
    rw [if_neg (by omega)]
    exact .inr (.inside (Nat.le_refl s) hs (by omega) (by omega) hkeys hfull.1 hpass)

theorem scanShards_stops {n s j : Nat} (hn : s + (n + 1) = numShards) (hj : j ≤ (tables s).length)
    {base acc : List (List UInt8)} (hacc : acc.length < count)
    (hbase : base ++ acc = keysUpto tables s j) :
    Stops tables count base s (scanShards tables count (n + 1) s j acc) := by
  induction n generalizing s j acc with
  | zero =>
    obtain ⟨acc', hkeys, -, hscan⟩ | hstop := scanShards_step 0 (by omega) hj hacc hbase
    · rw [hscan]
      exact .atEnd (Nat.le_refl s) (by omega) hkeys (.inl (by omega)) fun r h h' => by omega
    · exact hstop
  | succ n ih =>
    obtain ⟨acc', hkeys, hlt, hscan⟩ | hstop := scanShards_step (n + 1) (by omega) hj hacc hbase
    · rw [hscan]
      exact (ih (by omega) (Nat.zero_le _) hlt hkeys).earlier ⟨acc', hkeys, hlt⟩
    · exact hstop

/-! ## The shards where a run can stop -/

/-- After shard `s` the keys so far fill a whole number of calls, the last of them with the last
slot of the shard. -/
def FullAt (tables : Nat → List (Option (List UInt8))) (count s : Nat) : Prop :=
  LastLive tables s ∧ count ∣ (keysUpto tables (s + 1) 0).length

theorem LastLive.length_lt {s j r : Nat} (h : LastLive tables r) (hs : s ≤ r)
    (hj : j ≤ (tables s).length - 1) :
    (keysUpto tables s j).length < (keysUpto tables (r + 1) 0).length := by
  obtain ⟨k, hk⟩ := h
  obtain ⟨ys, hys⟩ := List.getLast?_eq_some_iff.mp hk
  have hnext : keysUpto tables (r + 1) 0 = keysUpto tables r ys.length ++ [k] := by
    have happend := @keysUpto_append tables r ys.length [some k] [] (by simp [hys])
    rw [← keysUpto_shard, hys, List.length_append]
    exact happend
  have hbefore : keysUpto tables s j <+: keysUpto tables r ys.length := by
    obtain rfl | hlt := Nat.eq_or_lt_of_le hs
    · rw [hys, List.length_append, List.length_singleton] at hj
      exact keysUpto_mono_slot s (by omega)
    · exact ((keysUpto_next s j).trans (keysUpto_mono hlt)).trans
        (keysUpto_mono_slot r (Nat.zero_le _))
  have hle := hbefore.length_le
  rw [hnext, List.length_append, List.length_singleton]
  omega

theorem Passes.not_fullAt {s j r : Nat} (hs : s ≤ r) (hj : j ≤ (tables s).length - 1)
    (hdvd : count ∣ (keysUpto tables s j).length)
    (h : Passes tables count (keysUpto tables s j) r) : ¬ FullAt tables count r := by
  rintro ⟨hlast, hfull⟩
  obtain ⟨acc, hkeys, hlt⟩ := h
  have hlonger := hlast.length_lt hs hj
  rw [← hkeys, List.length_append] at hfull hlonger
  -- a number of keys below `count` that `count` divides: none at all, but the last slot is live
  have hacc := (Nat.dvd_add_right hdvd).mp hfull
  have hzero := Nat.eq_zero_of_dvd_of_lt hacc hlt
  omega

end Tables

/-! ## The command -/

/-- `SCAN` from a cursor on, with a number of keys. -/
def scanArgs (cursor count : Nat) : List (List UInt8) :=
  [str "SCAN", decimal cursor, str "COUNT", decimal count]

def scanPage (next : Nat) (keys : List (List UInt8)) : List UInt8 :=
  respWriteArrayHeader 2 ++ respWriteBulk (decimal next) ++ bulkArray keys

theorem scanPage_inj {next next' : Nat} {keys keys' : List (List UInt8)}
    (h : scanPage next keys = scanPage next' keys') : next = next' ∧ keys = keys' := by
  simp only [scanPage, List.append_assoc] at h
  obtain ⟨hnext, hkeys⟩ := respWriteBulk_append_inj (List.append_cancel_left h)
  exact ⟨decimal_injective hnext, bulkArray_injective hkeys⟩

theorem parseNum_decimal {n : Nat} (h : n < 2 ^ 63) : parseNum (decimal n) = n := by
  have hzero : (0 : UInt8) ∉ decimal n := fun h0 => absurd (isDigit_of_mem_decimal h0) (by decide)
  rw [parseNum, cstr_eq_self hzero, strtoll_decimal h]

theorem scanCursor_args (cursor count : Nat) :
    scanCursor (scanArgs cursor count) = parseNum (decimal cursor) := rfl

theorem scanReply_args (tables : Nat → List (Option (List UInt8))) {count s j : Nat}
    (hcount : count < 2 ^ 31) (hs : s < numShards) (hj : j < 2 ^ 20) :
    scanReply tables (scanArgs (s <<< 20 ||| j) count) =
      scanShards tables count (numShards - s) s j [] := by
  have hcursor : s <<< 20 ||| j = s * 2 ^ 20 + j := by
    rw [← Nat.shiftLeft_add_eq_or_of_lt hj, Nat.shiftLeft_eq]
  have hs' : s < 64 := hs
  have hparse : scanCursor (scanArgs (s <<< 20 ||| j) count) = ((s * 2 ^ 20 + j : Nat) : Int) := by
    rw [scanCursor_args, hcursor, parseNum_decimal (by omega)]
  have hnum : toInt32 (scanCount ((scanArgs (s <<< 20 ||| j) count).drop 2) 10) = count := by
    have hword : isWord (str "COUNT") "COUNT" = true := by decide +kernel
    simp only [scanArgs, List.drop_succ_cons, List.drop_zero, scanCount, hword, if_true]
    rw [parseNum_decimal (by omega), toInt32]
    omega
  rw [scanReply, hparse, hnum]
  congr 1
  · omega
  · omega
  · omega

theorem run_cmdScan {srv : Srv} {conn : Conn} (hauth : needAuth srv conn vcAclRead = none) {h : Host}
    (hm : h.HasMemory) {argv keys : List (List UInt8)} {next : Nat}
    (hreply : scanReply h.world.cache.slotKeys argv = (keys, next)) :
    (cmdScan srv conn argv).run hostExec h =
      ({ h with calls := h.calls + 2 + keys.length },
        some ⟨conn, scanPage next (h.allocated.allocated.copies keys)⟩) := by
  have hm1 : h.allocated.HasMemory := hm
  have hm2 : h.allocated.allocated.HasMemory := hm
  rw [cmdScan, guarded, hauth]
  dsimp only
  rw [run_callMalloc, hm, run_callMalloc, hm1, run_callTables]
  simp only [Host.allocated_world, hreply]
  rw [if_neg (by simp), answerKeys, Calls.run_bind, run_copyKeys hm2]
  simp [scanPage, bulkArray, Host.allocated]

/-! ## A whole iteration -/

/-- A client follows the cursors from `cursor` on until it is given 0, and gets these keys. -/
inductive ScanRun (srv : Srv) (conn : Conn) (count : Nat) : Host → Nat → List (List UInt8) → Prop
  | last {h h' : Host} {cursor : Nat} {keys : List (List UInt8)}
      (hcall : (cmdScan srv conn (scanArgs cursor count)).run hostExec h =
        (h', some ⟨conn, scanPage 0 keys⟩)) :
      ScanRun srv conn count h cursor keys
  | next {h h' : Host} {cursor next : Nat} {keys rest : List (List UInt8)}
      (hcall : (cmdScan srv conn (scanArgs cursor count)).run hostExec h =
        (h', some ⟨conn, scanPage next keys⟩))
      (hnext : next ≠ 0) (hrest : ScanRun srv conn count h' next rest) :
      ScanRun srv conn count h cursor (keys ++ rest)

theorem page_unique {r : Host × Option Answer} {h h' : Host} {conn : Conn} {next next' : Nat}
    {keys keys' : List (List UInt8)} (hr : r = (h, some ⟨conn, scanPage next keys⟩))
    (hr' : r = (h', some ⟨conn, scanPage next' keys'⟩)) : h = h' ∧ next = next' ∧ keys = keys' := by
  obtain ⟨hhost, hanswer⟩ := Prod.mk.inj (hr.symm.trans hr')
  exact ⟨hhost, scanPage_inj (Answer.mk.inj (Option.some.inj hanswer)).2⟩

theorem ScanRun.unique {srv : Srv} {conn : Conn} {count : Nat} {h : Host} {cursor : Nat}
    {keys keys' : List (List UInt8)} (hrun : ScanRun srv conn count h cursor keys)
    (hrun' : ScanRun srv conn count h cursor keys') : keys = keys' := by
  induction hrun generalizing keys' with
  | last hcall =>
    cases hrun' with
    | last hcall' => exact (page_unique hcall hcall').2.2
    | next hcall' hnext _ => exact absurd (page_unique hcall hcall').2.1.symm hnext
  | next hcall hnext _ ih =>
    cases hrun' with
    | last hcall' => exact absurd (page_unique hcall hcall').2.1 hnext
    | next hcall' _ hrest =>
      obtain ⟨rfl, rfl, rfl⟩ := page_unique hcall hcall'
      rw [ih hrest]

section Iteration

variable {srv : Srv} {conn : Conn} {count : Nat} {c : Cache}

theorem keysUpto_numShards (c : Cache) : keysUpto c.slotKeys numShards 0 = c.liveKeys := by
  simp [keysUpto, Cache.liveKeys]

theorem keysUpto_liveKeys {s : Nat} (hs : s < numShards) (j : Nat) :
    keysUpto c.slotKeys s j <+: c.liveKeys := by
  rw [← keysUpto_numShards]
  exact (keysUpto_next s j).trans (keysUpto_mono hs)

/-- A run from a slot on comes to an end after the last shard, or after the first shard where it is
full, and returns all the keys from the slot up to there. -/
theorem scanRun_stops (hauth : needAuth srv conn vcAclRead = none) (hpos : 0 < count)
    (hcount : count < 2 ^ 31) (hcap : ∀ s < numShards, (c.slotKeys s).length ≤ 2 ^ 20)
    (hwhole : ∀ k ∈ c.liveKeys, ¬ CutShort k) {h : Host} (hc : h.world.cache = c)
    (hm : h.HasMemory) {s j : Nat} (hs : s < numShards) (hj : j ≤ (c.slotKeys s).length - 1)
    (hdvd : count ∣ (keysUpto c.slotKeys s j).length) :
    ∃ s' keys, ScanRun srv conn count h (s <<< 20 ||| j) keys ∧
      keysUpto c.slotKeys s j ++ keys = keysUpto c.slotKeys (s' + 1) 0 ∧ s ≤ s' ∧ s' < numShards ∧
      (s' + 1 = numShards ∨ FullAt c.slotKeys count s') ∧
      ∀ r, s ≤ r → r < s' → ¬ FullAt c.slotKeys count r := by
  -- a call that comes back with a cursor has returned `count` of the keys that were left
  induction hleft : c.liveKeys.length - (keysUpto c.slotKeys s j).length using
    Nat.strong_induction_on generalizing h s j with
  | _ left ih =>
    have hj20 : j < 2 ^ 20 := by
      have := hcap s hs
      omega
    have hn : numShards - s = numShards - s - 1 + 1 := by omega
    have hreply := scanReply_args c.slotKeys hcount hs hj20
    have hstops := @scanShards_stops c.slotKeys count (numShards - s - 1) s j (by omega) (by omega)
      (keysUpto c.slotKeys s j) [] hpos (by simp)
    rw [← hn, ← hreply] at hstops
    have hcopies {keys : List (List UInt8)}
        (hkeys : keysUpto c.slotKeys s j ++ keys <+: c.liveKeys) :
        h.allocated.allocated.copies keys = keys :=
      Host.copies_eq_self fun k hk => hwhole k (hkeys.subset (List.mem_append_right _ hk))
    generalize hres : scanReply c.slotKeys (scanArgs (s <<< 20 ||| j) count) = res at hstops
    rw [← hc] at hres
    cases hstops with
    | @inside s' j' keys hle hlt hpos' hj' hkeys hfull hpass =>
      have hstart := keysUpto_liveKeys (c := c) hlt j'
      have hlen : (keysUpto c.slotKeys s' j').length = (keysUpto c.slotKeys s j).length + count := by
        rw [← hkeys, List.length_append, hfull]
      have hlong := hstart.length_le
      have hcall := run_cmdScan hauth hm hres
      rw [hcopies (hkeys ▸ hstart)] at hcall
      have hnext : s' <<< 20 ||| j' ≠ 0 := by
        have := @Nat.right_le_or (s' <<< 20) j'
        omega
      obtain ⟨t, rest, hrun, hrest, ht, htlt, hend, hnot⟩ :=
        ih _ (by omega) (h := { h with calls := h.calls + 2 + keys.length }) hc hm hlt (by omega)
          (hlen ▸ Nat.dvd_add hdvd (Nat.dvd_refl count)) rfl
      refine ⟨t, keys ++ rest, .next hcall hnext hrun, ?_, hle.trans ht, htlt, hend, fun r hr hrt => ?_⟩
      · rw [← List.append_assoc, hkeys, hrest]
      · obtain hr' | hr' := Nat.lt_or_ge r s'
        · exact (hpass r hr hr').not_fullAt hr hj hdvd
        · exact hnot r hr' hrt
    | @atEnd s' keys hle hlt hkeys hend hpass =>
      have hstart : keysUpto c.slotKeys (s' + 1) 0 <+: c.liveKeys := by
        rw [← keysUpto_numShards]
        exact keysUpto_mono hlt
      have hcall := run_cmdScan hauth hm hres
      rw [hcopies (hkeys ▸ hstart)] at hcall
      refine ⟨s', keys, .last hcall, hkeys, hle, hlt, hend.imp_right fun ⟨hfull, hlast⟩ => ⟨hlast, ?_⟩,
        fun r hr hr' => (hpass r hr hr').not_fullAt hr hj hdvd⟩
      rw [← hkeys, List.length_append, hfull]
      exact Nat.dvd_add hdvd (Nat.dvd_refl count)

/-- A key whose copy is cut is never returned, unless its last byte happens to lie behind it. -/
theorem ScanRun.cutShort_notMem (hauth : needAuth srv conn vcAclRead = none) {h : Host}
    (hm : h.HasMemory) {z : UInt8} (hz : h.Spills z) {cursor : Nat} {keys : List (List UInt8)}
    (hrun : ScanRun srv conn count h cursor keys) {k : List UInt8} (hk : CutShort k)
    (hlast : k.getLast? ≠ some z) : k ∉ keys := by
  have hpage {h h' : Host} (hm : h.HasMemory) (hz : h.Spills z) {cursor next : Nat}
      {keys : List (List UInt8)}
      (hcall : (cmdScan srv conn (scanArgs cursor count)).run hostExec h =
        (h', some ⟨conn, scanPage next keys⟩)) : k ∉ keys ∧ h'.HasMemory ∧ h'.Spills z := by
    have hspills : h.allocated.allocated.Spills z := hz
    obtain ⟨rfl, -, rfl⟩ := page_unique (run_cmdScan hauth hm rfl) hcall
    rw [hspills.copies]
    exact ⟨cutShort_notMem_copied hk hlast, hm, hz⟩
  induction hrun with
  | last hcall => exact (hpage hm hz hcall).1
  | next hcall _ _ ih =>
    obtain ⟨hnot, hm', hz'⟩ := hpage hm hz hcall
    exact List.not_mem_append hnot (ih hm' hz')

theorem keysUpto_of_empty {tables : Nat → List (Option (List UInt8))} {s n : Nat} (hs : s ≤ n)
    (h : ∀ r, s ≤ r → r < n → (tables r).reduceOption = []) :
    keysUpto tables n 0 = keysUpto tables s 0 := by
  induction n, hs using Nat.le_induction with
  | base => rfl
  | succ n hn ih =>
    rw [keysUpto_succ, h n hn (Nat.lt_succ_self n), List.append_nil,
      ih fun r hr hr' => h r hr (Nat.lt_succ_of_lt hr')]

/-- In a store without times to live, a client that follows `SCAN` with one count gets each live key
once exactly when no key has a zero byte before its last byte, and behind a shard whose last slot
fills a call there are no keys any more. -/
theorem scan_visits_once (hauth : needAuth srv conn vcAclRead = none)
    {file : Option (Nat → UInt8)} {slots : UInt32} (hcreate : vcCreate file slots = some c) (now : Nat)
    {ops : List Op} (hops : ∀ op ∈ ops, op.NoTtl)
    (hcap : ∀ s < numShards, ((Machine.run step ⟨c, now⟩ ops).cache.shards s).cap ≤ 2 ^ 20)
    (hpos : 1 ≤ count) (hcount : count ≤ 2 ^ 31 - 1) :
    let w := Machine.run step ⟨c, now⟩ ops
    (∀ h : Host, h.world = w → h.HasMemory →
      ∃ keys, ScanRun srv conn count h 0 keys ∧ ∀ k ∈ w.cache.liveKeys, keys.count k = 1) ↔
    (∀ k ∈ w.cache.liveKeys, ¬ CutShort k) ∧
      ∀ s, FullAt w.cache.slotKeys count s →
        ∀ r, s < r → r < numShards → (w.cache.slotKeys r).reduceOption = [] := by
  intro w
  have hfresh : Fresh _ w := Fresh.run hcreate now hops
  have hnodup : w.cache.liveKeys.Nodup := hfresh.unique.nodup_liveKeys hfresh.valid
  have hlen : ∀ s < numShards, (w.cache.slotKeys s).length ≤ 2 ^ 20 := by
    intro s hs
    simpa [Cache.slotKeys] using hcap s hs
  clear_value w
  have hstops (hwhole : ∀ k ∈ w.cache.liveKeys, ¬ CutShort k) {h : Host} (hw : h.world = w)
      (hm : h.HasMemory) := scanRun_stops hauth hpos (by omega) hlen hwhole (congrArg World.cache hw) hm
    (s := 0) (j := 0) (by decide) (Nat.zero_le _) (by simp [keysUpto_zero_zero])
  simp only [keysUpto_zero_zero, List.nil_append, Nat.zero_le, true_and, true_imp_iff] at hstops
  constructor
  · intro hall
    have hwhole : ∀ k ∈ w.cache.liveKeys, ¬ CutShort k := by
      intro k hk hcut
      -- with another byte behind the copies than the last of `k`, no copy is `k`
      obtain ⟨z, hz⟩ : ∃ z : UInt8, k.getLast? ≠ some z := by
        by_cases h0 : k.getLast? = some 0
        · exact ⟨1, by rw [h0]; decide⟩
        · exact ⟨0, h0⟩
      obtain ⟨keys, hrun, honce⟩ := hall (noisyHost w z) rfl (noisyHost_hasMemory w z)
      have hmem : k ∈ keys := List.count_pos_iff.mp (by rw [honce k hk]; decide)
      exact hrun.cutShort_notMem hauth (noisyHost_hasMemory w z) (noisyHost_spills w z) hcut hz hmem
    refine ⟨hwhole, fun s hs r hsr hr => ?_⟩
    obtain ⟨keys, hrun, honce⟩ := hall (noisyHost w 0) rfl (noisyHost_hasMemory w 0)
    obtain ⟨s', keys', hrun', hkeys, -, -, hnot⟩ := hstops hwhole rfl (noisyHost_hasMemory w 0)
    obtain rfl := hrun.unique hrun'
    -- the run has stopped by the end of shard `s`, so it has not seen shard `r`
    have hle : s' ≤ s := Nat.not_lt.mp fun hlt => hnot s hlt hs
    by_contra hne
    obtain ⟨k, hk⟩ := List.exists_mem_of_ne_nil _ hne
    have hstart : keysUpto w.cache.slotKeys r 0 ++ (w.cache.slotKeys r).reduceOption <+:
        w.cache.liveKeys := by
      rw [← keysUpto_succ, ← keysUpto_numShards]
      exact keysUpto_mono hr
    have hmem : k ∈ keys := by
      refine List.count_pos_iff.mp ?_
      rw [honce k (hstart.subset (List.mem_append_right _ hk))]
      exact Nat.one_pos
    have hbefore : k ∈ keysUpto w.cache.slotKeys r 0 :=
      (keysUpto_mono (show s' + 1 ≤ r by omega)).subset (hkeys ▸ hmem)
    exact List.disjoint_of_nodup_append (hnodup.sublist hstart.sublist) hbefore hk
  · rintro ⟨hwhole, hrest⟩ h hw hm
    obtain ⟨s, keys, hrun, hkeys, hs, hend, -⟩ := hstops hwhole hw hm
    have hall : keys = w.cache.liveKeys := by
      rw [hkeys, ← keysUpto_numShards]
      obtain hlast | hfull := hend
      · rw [hlast]
      · exact (keysUpto_of_empty hs fun r hr hr' => hrest s hfull r hr hr').symm
    exact ⟨keys, hrun, fun k hk => by rw [hall]; exact List.count_eq_one_of_mem hnodup hk⟩

end Iteration

theorem scan_visits_once_two :
    let ops := [Op.set (str "a") (str "1") 0 calmEnv, .set (str "b") (str "2") 0 calmEnv]
    let w := Machine.run step ⟨newCache none 8, 0⟩ ops
    w.cache.liveKeys = [str "b", str "a"] ∧
      ∀ h : Host, h.world = w → h.HasMemory →
        ∃ keys, ScanRun openServer freshConn 1 h 0 keys ∧ ∀ k ∈ w.cache.liveKeys, keys.count k = 1 := by
  intro ops w
  have hcreate : vcCreate none 8 = some (newCache none 8) := rfl
  have hops : ∀ op ∈ ops, op.NoTtl := by simp [ops, Op.NoTtl]
  have hkeys : w.cache.liveKeys = [str "b", str "a"] := by decide +kernel
  have hlast : ∀ s < numShards, (w.cache.slotKeys s).getLast? = some none := by decide +kernel
  have hcap : ∀ s < numShards, (w.cache.shards s).cap ≤ 2 ^ 20 := by decide +kernel
  have hwhole : ∀ k ∈ w.cache.liveKeys, ¬ CutShort k := by
    rw [hkeys]
    decide
  have hrest : ∀ s, FullAt w.cache.slotKeys 1 s →
      ∀ r, s < r → r < numShards → (w.cache.slotKeys r).reduceOption = [] := by
    rintro s ⟨⟨k, hk⟩, -⟩ r hsr hr
    rw [hlast s (hsr.trans hr)] at hk
    cases hk
  exact ⟨hkeys, (scan_visits_once (by decide) hcreate 0 hops hcap (Nat.le_refl 1) (by decide)).mpr
    ⟨hwhole, hrest⟩⟩

/-- The key `O` stands in the last slot of shard 2 and `a` in shard 14: with `COUNT 1` the first
call returns `O` and cursor 0. -/
theorem scan_skips_later_shards :
    let ops := [Op.set (str "O") (str "1") 0 calmEnv, .set (str "a") (str "2") 0 calmEnv]
    let w := Machine.run step ⟨newCache none 8, 0⟩ ops
    vcCreate none 8 = some (newCache none 8) ∧ (∀ op ∈ ops, op.NoTtl) ∧
      w.cache.liveKeys = [str "O", str "a"] ∧
      ∀ keys, ScanRun openServer freshConn 1 (noisyHost w 0) 0 keys → keys = [str "O"] := by
  intro ops w
  refine ⟨rfl, by simp [ops, Op.NoTtl], by decide +kernel, fun keys hrun => ?_⟩
  have hanswer : ((cmdScan openServer freshConn (scanArgs 0 1)).run hostExec (noisyHost w 0)).2 =
      some ⟨freshConn, scanPage 0 [str "O"]⟩ := by decide +kernel
  exact hrun.unique (.last (Prod.ext rfl hanswer))

end VoidCache
