import VoidCache.Cache.Recovery

/-!
# A reply is copied after the lookup

`vc_get` answers with an address, and the reply is copied from it later, when other clients
may have changed what lies there. `setWrites` and `setFrees` are the slots that a `vc_set`
rewrites and the objects it frees, computed from the state before the call. A run that spares
the address in this sense leaves the bytes behind it alone, so the copy is the value that the
key had when it was looked up.
-/
namespace VoidCache

variable {c c' : Cache} {now : Nat} {key val : List UInt8} {ttlSec : UInt32} {p : Ptr}

/-! ## Slots an insertion rewrites -/

/-- The slots the insertion loop stores into. Only states and probe distances matter to it. -/
def insertWrites (cap : Nat) : Nat → Nat → (Nat → SlotState × Nat) → Nat → List Nat
  | 0, _, _, _ => []
  | n + 1, slot, t, dist =>
    if (t slot).1 = .empty ∨ (t slot).1 = .dead then [slot]
    else if (t slot).1 = .live ∧ (t slot).2 < dist then
      slot :: insertWrites cap n (Cyclic.next cap slot) (Function.update t slot (.live, dist))
        (((t slot).2 + 1) % 256)
    else insertWrites cap n (Cyclic.next cap slot) t ((dist + 1) % 256)

def Entry.profile (e : Entry) : SlotState × Nat := (e.state, e.probeDist)

theorem profile_update (t : Nat → Entry) (slot : Nat) (incoming : Incoming) :
    (fun i => (Function.update t slot incoming.placed i).profile) =
      Function.update (fun i => (t i).profile) slot (.live, incoming.probeDist) := by
  funext i
  by_cases h : i = slot
  · subst h
    simp [Entry.profile, Incoming.placed]
  · simp [h]

theorem shardInsertLoop_frame (cap n slot : Nat) (t : Nat → Entry) (incoming : Incoming) {i : Nat}
    (hi : i ∉ insertWrites cap n slot (fun j => (t j).profile) incoming.probeDist) :
    (shardInsertLoop cap n slot t incoming).1 i = t i := by
  induction n generalizing slot t incoming with
  | zero => rfl
  | succ n ih =>
    rw [insertWrites] at hi
    rw [shardInsertLoop]
    split_ifs at hi with hf hr
    · change (t slot).state = _ ∨ (t slot).state = _ at hf
      rw [if_pos hf]
      exact Function.update_of_ne (by simpa using hi) _ _
    · change ¬ ((t slot).state = _ ∨ (t slot).state = _) at hf
      change (t slot).state = _ ∧ (t slot).probeDist < _ at hr
      rw [List.mem_cons, not_or] at hi
      rw [if_neg hf, if_pos hr]
      have hnext := ih (Cyclic.next cap slot) (Function.update t slot incoming.placed)
        { toEntryData := (t slot).toEntryData, probeDist := ((t slot).probeDist + 1) % 256 } (by
          rw [profile_update]
          exact hi.2)
      exact hnext.trans (Function.update_of_ne hi.1 _ _)
    · change ¬ ((t slot).state = _ ∨ (t slot).state = _) at hf
      change ¬ ((t slot).state = _ ∧ (t slot).probeDist < _) at hr
      rw [if_neg hf, if_neg hr]
      exact ih _ _ _ hi

/-! ## The clock does not look at memory -/

theorem shardEvictLoop_mem (m m' : Mem) (n hand : Nat) (s : Shard) :
    (shardEvictLoop m n hand s).1 = (shardEvictLoop m' n hand s).1 ∧
      (shardEvictLoop m n hand s).2.1 = (shardEvictLoop m' n hand s).2.1 := by
  induction n generalizing hand s with
  | zero => exact ⟨rfl, rfl⟩
  | succ n ih =>
    rw [shardEvictLoop, shardEvictLoop]
    dsimp only
    split_ifs
    · exact ih _ _
    · exact ih _ _
    · exact ⟨rfl, rfl⟩

theorem evictIfFull_mem (s : Shard) (m m' : Mem) : (evictIfFull s m).1 = (evictIfFull s m').1 := by
  unfold evictIfFull
  split_ifs
  · exact (shardEvictLoop_mem m m' _ _ s).2
  · rfl

theorem victim_mem (s : Shard) (m m' : Mem) : victim s m = victim s m' := by
  unfold victim shardEvictOne
  rw [(shardEvictLoop_mem m m' _ _ s).1]

theorem removeOld_shard {s : Shard} {m m' : Mem} {ne ne' : EntryData}
    (h : shardFind m now s key ne.keyLen ne.keyHash = shardFind m' now s key ne'.keyLen ne'.keyHash) :
    (removeOld s m now key ne).1 = (removeOld s m' now key ne').1 := by
  unfold removeOld
  rw [h]
  split <;> rfl

/-! ## What a call writes and frees -/

/-- The shard of `key` when `vc_set` gets to the insertion. -/
def Cache.cleared (c : Cache) (now : Nat) (key : List UInt8) (ne : EntryData) : Shard :=
  let r := removeOld (c.shards (homeShard key)) c.mem now key ne
  (evictIfFull r.1 r.2).1

/-- The slots of the shard of `key` that `vc_set` stores into. -/
def setWrites (w : World) (key val : List UInt8) (ttlSec : UInt32) : List Nat :=
  let s := w.cache.cleared w.now key (freshEntry w.now key val ttlSec)
  insertWrites s.cap s.cap (tableSlot (wyhash64 key 0) s.cap) (fun i => (s.table i).profile) 0

/-- The entry that `vc_del` and `vc_set` find for `key`. -/
def Cache.findEntry (c : Cache) (now : Nat) (key : List UInt8) : Option EntryData :=
  (c.find now key).map fun i => ((c.shards (homeShard key)).table i).toEntryData

/-- The objects that `vc_set` frees: those of the old copy and of the clock's victim. -/
def setFrees (w : World) (key val : List UInt8) (ttlSec : UInt32) : Multiset Ptr :=
  let r := removeOld (w.cache.shards (homeShard key)) w.cache.mem w.now key
    (freshEntry w.now key val ttlSec)
  ptrsOf (one (w.cache.findEntry w.now key)) + ptrsOf (one (victim r.1 r.2))

/-- The call neither rewrites the slot nor frees the object behind the address. A flush frees
everything. -/
def Spares (loc : Loc) (w : World) (op : Op) : Prop :=
  match op, loc with
  | .set key val ttlSec _, .payload si slot _ =>
    Settable key val → homeShard key = si → slot ∉ setWrites w key val ttlSec
  | .set key val ttlSec _, .obj p => Settable key val → p ∉ setFrees w key val ttlSec
  | .del key _, .obj p => p ∉ ptrsOf (one (w.cache.findEntry w.now key))
  | .flush, _ => False
  | _, _ => True

instance (loc : Loc) (w : World) (op : Op) : Decidable (Spares loc w op) :=
  match op, loc with
  | .set .., .payload .. => inferInstanceAs (Decidable (_ → _ → _ ∉ _))
  | .set .., .obj _ => inferInstanceAs (Decidable (_ → _ ∉ _))
  | .del .., .obj _ => inferInstanceAs (Decidable (_ ∉ _))
  | .flush, _ => isFalse id
  | .del .., .payload .. | .get _, _ | .tick _, _ => isTrue trivial

/-! ## Objects that stay -/

/-- The object `p` belongs to an entry of the tables, or to one that was dropped and never
freed. Either way it is on no free list. -/
def Held (c : Cache) (p : Ptr) : Prop :=
  ∃ L, Owned c.mem (L + ptrsOf c.contents) ∧ p ∈ L + ptrsOf c.contents

theorem Held.touched (h : Held c p) (ht : Touched c c') : Held c' p := by
  unfold Held
  rw [ht.mem, ht.contents]
  exact h

/-- What `vc_set` finds and evicts does not depend on the entry it has just built. -/
theorem Built.same_shard {m1 : Mem} {ne : EntryData} {L : Multiset Ptr} (hv : c.Valid)
    (hb : Built c.mem m1 (L + ptrsOf c.contents) (freshEntry now key val ttlSec) ne key val) :
    oldCopy (c.shards (homeShard key)) m1 now key ne.keyLen ne.keyHash = c.findEntry now key ∧
      (removeOld (c.shards (homeShard key)) m1 now key ne).1 =
        (removeOld (c.shards (homeShard key)) c.mem now key (freshEntry now key val ttlSec)).1 := by
  obtain ⟨Q, hQ⟩ : ∃ Q, Beside c (homeShard key) Q := exists_beside c (shardIdx_lt _)
  have hsub : ptrsOf (c.shards (homeShard key)).contents ⊆ L + ptrsOf c.contents := fun q hq =>
    Multiset.mem_add.mpr (Or.inr (ptrsOf_subset (fun d hd => by
      rw [hQ.self]
      exact Multiset.mem_add.mpr (Or.inl hd)) hq))
  have hfind : shardFind m1 now (c.shards (homeShard key)) key ne.keyLen ne.keyHash =
      c.find now key := by
    rw [hb.keyLen, hb.keyHash]
    exact shardFind_frame (hv.shape _) (hb.frame.mono hsub) _ _ _ _
  refine ⟨?_, removeOld_shard hfind⟩
  rw [oldCopy, hfind]
  rfl

theorem vcSetStore_held (hv : c.Valid) (hk : key.length < 2 ^ 32) (env : Env) (h : Held c p)
    (hp : p ∉ setFrees ⟨c, now⟩ key val ttlSec) :
    Held (vcSetStore c now env key val ttlSec).2 p ∧
      (vcSetStore c now env key val ttlSec).2.mem.read p = c.mem.read p := by
  obtain ⟨L, hown, hmem⟩ := h
  obtain ⟨Q, hQ⟩ : ∃ Q, Beside c (homeShard key) Q := exists_beside c (shardIdx_lt _)
  rcases vcSetStore_cases hown hk now env val ttlSec with
    ⟨ne, m1, total, _, _, hbuilt, hset⟩ | ⟨m1, _, hown1, hframe, hset⟩
  · rw [hset]
    obtain ⟨hold, hremove⟩ := hbuilt.same_shard hv
    dsimp only
    obtain ⟨rest, ho⟩ := lockedSet_outcome (hv.shape (homeShard key)) m1 now key ne
    have hbefore := ho.before
    have hafter := ho.after
    have hm := ho.mem
    rw [hold] at hbefore hm
    rw [hremove, victim_mem _ _ (removeOld (c.shards (homeShard key)) c.mem now key
      (freshEntry now key val ttlSec)).2] at hbefore hm
    unfold setFrees at hp
    dsimp only at hp
    generalize victim _ _ = ev at hbefore hm hp
    generalize c.findEntry now key = old at hbefore hm hp
    generalize lockedSet (c.shards (homeShard key)) m1 now key ne = r at hafter hm ⊢
    generalize lockedLeft (c.shards (homeShard key)) m1 now key ne = left at hafter
    have hc : c.contents = one old + (one ev + (rest + Q)) := by
      rw [hQ.self, hbefore]
      simp only [add_assoc]
    have hkinds := hv.kinds
    have hown1 := hbuilt.owned
    rw [hc] at hkinds hown1 hmem
    obtain ⟨hown2, hframe2⟩ := Owned.replace hkinds hown1
    rw [← hm] at hown2 hframe2
    have hstay : p ∈ L + ptrsOf ({ne} + (rest + Q)) := by
      simp only [ptrsOf_add, Multiset.mem_add, not_or] at hmem hp ⊢
      tauto
    refine ⟨⟨L + ptrsOf (one left), ?_⟩, ?_⟩
    · have hafter' : Cache.contents { (c.setShard (homeShard key) r.1) with
          mem := r.2, totalMemory := total } + one left = {ne} + (rest + Q) := by
        rw [hQ.contents _ r.1 rfl, add_right_comm, hafter, ← Multiset.singleton_add, add_assoc]
      rw [add_assoc, ← ptrsOf_add, add_comm (one left), hafter']
      exact ⟨hown2, hstay⟩
    · exact (hframe2 p hstay).trans (hbuilt.frame p (hc ▸ hmem))
  · rw [hset]
    exact ⟨⟨L, hown1, hmem⟩, hframe p hmem⟩

theorem vcDelStore_held (hv : c.Valid) (h : Held c p)
    (hp : p ∉ ptrsOf (one (c.findEntry now key))) :
    Held (vcDelStore c now key).2 p ∧ (vcDelStore c now key).2.mem.read p = c.mem.read p := by
  obtain ⟨L, hown, hmem⟩ := h
  unfold Cache.findEntry at hp
  rw [vcDelStore_eq]
  cases hf : c.find now key with
  | none => exact ⟨⟨L, hown, hmem⟩, rfl⟩
  | some slot =>
    rw [hf, Option.map_some, one_some, ptrsOf_singleton] at hp
    obtain ⟨hlt, hm, _⟩ := shardFind_sound (hv.shape _) hf
    have ht := Takes.kill (hv.shape (homeShard key)) c.mem hlt (slotMatches_iff.mp hm).1
    obtain ⟨Q, hQ⟩ : ∃ Q, Beside c (homeShard key) Q := exists_beside c (shardIdx_lt _)
    dsimp only
    generalize killSlot (c.shards (homeShard key)) c.mem slot = r at ht ⊢
    generalize ((c.shards (homeShard key)).table slot).toEntryData = d at ht hp
    have hc : c.contents = d ::ₘ (r.1.contents + Q) := by
      rw [hQ.self, ht.contents, one_some, Multiset.singleton_add, Multiset.cons_add]
    rw [hc, ptrsOf_cons] at hown hmem
    rw [add_left_comm] at hown
    obtain ⟨hown', hframe⟩ := hown.release (hv.kinds d (by simp [hc]))
    have hstay : p ∈ L + ptrsOf (r.1.contents + Q) := by
      simp only [Multiset.mem_add] at hmem ⊢
      tauto
    have hm' : r.2 = entryFreeResources d c.mem := ht.mem
    refine ⟨⟨L, ?_⟩, ?_⟩
    · rw [hQ.contents _ r.1 rfl]
      exact ⟨hm' ▸ hown', hstay⟩
    · exact hm' ▸ hframe p hstay

/-! ## Slots that stay -/

theorem killSlot_data (s : Shard) (m : Mem) (i j : Nat) :
    ((killSlot s m i).1.table j).toEntryData = (s.table j).toEntryData := by
  rw [killSlot_table]
  by_cases h : j = i
  · subst h
    simp
  · simp [h]

theorem removeOld_data (s : Shard) (m : Mem) (now : Nat) (key : List UInt8) (ne : EntryData) (j : Nat) :
    ((removeOld s m now key ne).1.table j).toEntryData = (s.table j).toEntryData := by
  unfold removeOld
  split
  · exact killSlot_data s m _ j
  · rfl

theorem evictIfFull_data {s : Shard} (hs : s.Shape) (m : Mem) (j : Nat) :
    ((evictIfFull s m).1.table j).toEntryData = (s.table j).toEntryData := by
  unfold evictIfFull
  split_ifs
  · rcases shardEvictOne_cases hs.cap_pow m with ⟨s', hsw, he, _⟩ | ⟨s', h, hsw, _, _, _, he⟩
    · rw [he]
      exact hsw.same.data j
    · rw [he]
      exact (killSlot_data s' m h j).trans (hsw.same.data j)
  · rfl

theorem vcSetStore_data (hv : c.Valid) (hk : key.length < 2 ^ 32) (env : Env) {si slot : Nat}
    (hw : homeShard key = si → slot ∉ setWrites ⟨c, now⟩ key val ttlSec) :
    (((vcSetStore c now env key val ttlSec).2.shards si).table slot).toEntryData =
      ((c.shards si).table slot).toEntryData := by
  have hown : Owned c.mem (0 + ptrsOf c.contents) := by
    rw [zero_add]
    exact hv.owned
  rcases vcSetStore_cases hown hk now env val ttlSec with
    ⟨ne, m1, total, _, _, hbuilt, hset⟩ | ⟨m1, _, _, _, hset⟩
  · rw [hset]
    dsimp only [Cache.setShard]
    by_cases h : si = homeShard key
    · subst h
      rw [Function.update_self]
      have hs := hv.shape (homeShard key)
      have hclear : (evictIfFull (removeOld (c.shards (homeShard key)) m1 now key ne).1
          (removeOld (c.shards (homeShard key)) m1 now key ne).2).1 =
          c.cleared now key (freshEntry now key val ttlSec) := by
        rw [(hbuilt.same_shard hv).2]
        exact evictIfFull_mem _ _ _
      have hins : ((lockedSet (c.shards (homeShard key)) m1 now key ne).1.table slot) =
          (c.cleared now key (freshEntry now key val ttlSec)).table slot := by
        show (shardInsert (evictIfFull _ _).1 ne).table slot = _
        rw [hclear]
        have hhash : ne.keyHash = wyhash64 key 0 := hbuilt.keyHash
        unfold shardInsert
        rw [hhash]
        exact shardInsertLoop_frame _ _ _ _ _ (hw rfl)
      rw [hins]
      refine (evictIfFull_data ?_ _ _).trans (removeOld_data _ _ _ _ _ _)
      exact (removeOld_takes hs _ _ _ _).shape
    · rw [Function.update_of_ne h]
  · rw [hset]

theorem vcDelStore_data (c : Cache) (now : Nat) (key : List UInt8) (si slot : Nat) :
    (((vcDelStore c now key).2.shards si).table slot).toEntryData =
      ((c.shards si).table slot).toEntryData := by
  rw [vcDelStore_eq]
  split
  · rfl
  · dsimp only [Cache.setShard]
    by_cases h : si = homeShard key
    · subst h
      rw [Function.update_self]
      exact killSlot_data _ _ _ _
    · rw [Function.update_of_ne h]

/-! ## Runs between the lookup and the copy -/

/-- An object behind the address is not on a free list. -/
def Anchored (c : Cache) : Loc → Prop
  | .payload .. => True
  | .obj p => Held c p

theorem Anchored.touched {loc : Loc} (h : Anchored c loc) (ht : Touched c c') : Anchored c' loc := by
  cases loc with
  | payload => trivial
  | obj p => exact Held.touched h ht

/-- The address that `vc_get` hands out. -/
theorem anchored_of_get {loc : Loc} {len : Nat} (hv : c.Valid)
    (h : (vcGet c now key).1 = .ok (loc, len)) : Anchored c loc := by
  rw [vcGet_eq] at h
  cases hf : c.find now key with
  | none => simp [hf] at h
  | some slot =>
    obtain ⟨hlt, hm, _⟩ := shardFind_sound (hv.shape _) hf
    rw [hf] at h
    simp only [Except.ok.injEq, Prod.mk.injEq] at h
    rw [← h.1]
    unfold entryVal
    split_ifs with hflag
    · refine ⟨0, by rw [zero_add]; exact hv.owned, ?_⟩
      rw [zero_add]
      refine ptrs_subset (Cache.Valid.mem_contents.mpr ⟨homeShard key, shardIdx_lt _,
        Shard.mem_contents.mpr ⟨slot, hlt, (slotMatches_iff.mp hm).1, rfl⟩⟩) ?_
      simp [EntryData.ptrs, hflag]
    · trivial

/-- A call that spares the address keeps the bytes behind it. -/
theorem Spares.step {w : World} {op : Op} {loc : Loc} (hv : w.cache.Valid)
    (ha : Anchored w.cache loc) (h : Spares loc w op) :
    Anchored (step w op).1.cache loc ∧
      ∀ len, (step w op).1.cache.readLoc loc len = w.cache.readLoc loc len := by
  cases op with
  | set key val ttlSec env =>
    simp only [VoidCache.step]
    rw [vcSet_eq]
    split_ifs with hset
    · cases loc with
      | payload si slot off =>
        have hdata := vcSetStore_data (c := w.cache.log (setReq env key val ttlSec)) (hv.log _)
          hset.2.1 env (h hset)
        refine ⟨trivial, fun len => ?_⟩
        simp only [Cache.readLoc]
        rw [hdata]
        rfl
      | obj p =>
        obtain ⟨hheld, hread⟩ := vcSetStore_held (c := w.cache.log (setReq env key val ttlSec))
          (hv.log _) hset.2.1 env ha (h hset)
        refine ⟨hheld, fun len => ?_⟩
        simp only [Cache.readLoc]
        rw [hread]
        rfl
    · exact ⟨ha, fun _ => rfl⟩
  | get key =>
    have ht := vcGet_touched w.cache w.now key
    exact ⟨ha.touched ht, ht.readLoc loc⟩
  | del key env =>
    simp only [VoidCache.step, vcDel]
    cases loc with
    | payload si slot off =>
      refine ⟨trivial, fun len => ?_⟩
      simp only [Cache.readLoc]
      rw [vcDelStore_data]
      rfl
    | obj p =>
      obtain ⟨hheld, hread⟩ := vcDelStore_held (c := w.cache.log (delReq env key)) (hv.log _) ha h
      refine ⟨hheld, fun len => ?_⟩
      simp only [Cache.readLoc]
      rw [hread]
      rfl
  | flush => exact absurd h (by simp [Spares])
  | tick ns => exact ⟨ha, fun _ => rfl⟩

theorem spares_run {w : World} {ops : List Op} {loc : Loc} (hv : w.cache.Valid)
    (ha : Anchored w.cache loc) (h : Machine.Along step (Spares loc) w ops) (len : Nat) :
    (Machine.run step w ops).cache.readLoc loc len = w.cache.readLoc loc len := by
  have hinv := Machine.run_inv
    (I := fun w' => w'.cache.Valid ∧ Anchored w'.cache loc ∧
      w'.cache.readLoc loc len = w.cache.readLoc loc len)
    (fun w' op hw hop => by
      obtain ⟨ha', hread⟩ := hop.step hw.1 hw.2.1
      exact ⟨(step_effect hw.1 op).valid hw.1, ha', (hread len).trans hw.2.2⟩)
    ⟨hv, ha, rfl⟩ h
  exact hinv.2.2

/-- A GET looks the key up after any run, other clients make any calls that spare the address
it was given, and then the reply is copied. The bytes of the reply are the complete value
that the key had at some moment between the two steps. -/
theorem copied_reply_was_held {file : Option (Nat → UInt8)} {slots : UInt32} {c : Cache}
    (hc : vcCreate file slots = some c) (now : Nat) (ops : List Op) (key : List UInt8)
    (hkey : key.length < 2 ^ 32) (loc : Loc) (len : Nat) (others : List Op) :
    let w := Machine.run step ⟨c, now⟩ ops
    let w0 := (step w (.get key)).1
    (step w (.get key)).2 = .value (.ok (loc, len)) → Machine.Along step (Spares loc) w0 others →
    ∃ before after val, others = before ++ after ∧
      (Machine.run step w0 before).cache.Stores key val ∧ len = val.length ∧
      (Machine.run step w0 others).cache.readLoc loc len = Cell.bytes val := by
  intro w w0 hget hspares
  have hv : w.cache.Valid := run_valid (vcCreate_outcome hc).1 ops
  have ht := vcGet_touched w.cache w.now key
  have hok : (vcGet w.cache w.now key).1 = .ok (loc, len) := Res.value.inj hget
  obtain ⟨i, val, _, hi, hik, hival, _, hlen, hread⟩ := vcGet_ok hv hkey hok
  refine ⟨[], others, val, rfl, ?_, hlen, ?_⟩
  · show (vcGet w.cache w.now key).2.Stores key val
    rw [Cache.stores_iff, ht.items]
    exact ⟨i, hi, hik, hival⟩
  · have hrun := spares_run (w := w0) (ht.valid hv) ((anchored_of_get hv hok).touched ht) hspares len
    rw [hrun]
    exact (ht.readLoc loc len).trans hread

/-- Between lookup and copy another key is set, which probes past the slot, and then the key
itself is deleted, which leaves the payload where it is. -/
theorem reply_survives_delete :
    let w := Machine.run step ⟨newCache none 2, 0⟩ [.set [97] [7, 8] 0 calmEnv]
    let w0 := (step w (.get [97])).1
    let others : List Op := [.set [122] [9] 0 calmEnv, .del [97] calmEnv]
    ∃ before after val, others = before ++ after ∧
      (Machine.run step w0 before).cache.Stores [97] val ∧ 2 = val.length ∧
      (Machine.run step w0 others).cache.readLoc (.payload 14 1 1) 2 = Cell.bytes val :=
  copied_reply_was_held (show vcCreate none 2 = some (newCache none 2) from rfl) 0
    [.set [97] [7, 8] 0 calmEnv] [97] (by decide) (.payload 14 1 1) 2 _ (by decide +kernel)
    (by decide +kernel)

/-- `a` holds `xy` when it is looked up and `1234` when the reply is copied from the same slot.
The reply is `12`, which `a` never held. -/
theorem reply_mixes_two_values :
    let w := Machine.run step ⟨newCache none 2, 0⟩ [.set [97] [120, 121] 0 calmEnv]
    let w0 := (step w (.get [97])).1
    let others : List Op := [.set [97] [49, 50, 51, 52] 0 calmEnv]
    vcCreate none 2 = some (newCache none 2) ∧
      (step w (.get [97])).2 = .value (.ok (.payload 14 1 1, 2)) ∧
      (Machine.run step w0 others).cache.readLoc (.payload 14 1 1) 2 = Cell.bytes [49, 50] ∧
      ∀ before after, others = before ++ after →
        ¬ (Machine.run step w0 before).cache.Stores [97] [49, 50] := by
  refine ⟨rfl, by decide +kernel, by decide +kernel, fun before after h => ?_⟩
  rcases List.singleton_eq_append_iff.mp h with ⟨rfl, _⟩ | ⟨rfl, _⟩
  · decide +kernel
  · decide +kernel

end VoidCache
