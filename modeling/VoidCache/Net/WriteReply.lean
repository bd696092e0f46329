import VoidCache.Cache.TwoStepGet
import VoidCache.Net.Atomicity
import VoidCache.Net.Wire

/-!
# What a reply says about the write

A write command is `Honest` if a reply that confirms it means that the values it was to write
are in the tables, and if a `vc_set` that failed means an error and unchanged tables. `SET`
looks at the result of `vc_set`; the other commands ignore it and confirm what they did not
store. `success_iff_stored` says for each write command exactly when it is honest, if every set that
succeeds finds no stale entry of its key and a slot for it.
-/
namespace VoidCache

/-! ## Replies and outcomes -/

def IsErrorReply (r : List UInt8) : Prop := r.head? = some 45

/-- Not an error, not null and not `0`. -/
def Confirms (r : List UInt8) : Prop :=
  ¬ IsErrorReply r ∧ (∀ resp3, r ≠ respWriteNullCompat resp3) ∧ r ≠ respWriteInteger 0

instance (r : List UInt8) : Decidable (IsErrorReply r) := inferInstanceAs (Decidable (_ = _))

instance (r : List UInt8) : Decidable (Confirms r) := inferInstanceAs (Decidable (_ ∧ _ ∧ _))

theorem confirms_ok : Confirms respWriteOk := by decide

def Host.SetSucceeds (h : Host) : HostReq → Prop
  | .set key val ttlSec => (h.set key val ttlSec).2 = .ok ()
  | _ => True

instance (h : Host) : (a : HostReq) → Decidable (h.SetSucceeds a)
  | .set .. => inferInstanceAs (Decidable (_ = _))
  | .get _ | .del _ | .flush | .stats | .tables | .malloc _ | .overread _ => isTrue trivial

/-- A reply that confirms the command means that the wanted values are stored, and a `vc_set` that
failed means an error and the entries of all keys as they were. -/
structure Honest {R : Type} (reply : R → Option (List UInt8)) (p : Prog R) (h : Host)
    (before : List UInt8 → Multiset Item) (wanted : KvMap) : Prop where
  stored : ∀ r, reply (p.run hostExec h).2 = some r → Confirms r →
    ∀ k v, wanted k = some v → (p.run hostExec h).1.world.cache.Holds k (some v)
  unchanged : ¬ p.Along hostExec Host.SetSucceeds h →
    (∃ r, reply (p.run hostExec h).2 = some r ∧ IsErrorReply r) ∧
      ∀ key, (p.run hostExec h).1.world.cache.copies key = before key

theorem Honest.bind_pure {R S : Type} {reply : S → Option (List UInt8)} {p : Prog R} {f : R → S}
    {h : Host} {before : List UInt8 → Multiset Item} {wanted : KvMap} :
    Honest reply (p >>= fun r => pure (f r)) h before wanted ↔ Honest (reply ∘ f) p h before wanted := by
  have hrun : (p >>= fun r => pure (f r)).run hostExec h =
      ((p.run hostExec h).1, f (p.run hostExec h).2) := Calls.run_bind ..
  constructor
  · rintro ⟨hs, hu⟩
    rw [hrun] at hs hu
    rw [Calls.along_bind_pure] at hu
    exact ⟨hs, hu⟩
  · rintro ⟨hs, hu⟩
    constructor
    · rw [hrun]
      exact hs
    · rw [hrun, Calls.along_bind_pure]
      exact hu

/-- The last value for each key. -/
def lastOf : List (List UInt8 × List UInt8) → KvMap
  | [], _ => none
  | (key, val) :: ws, k => (lastOf ws k).or (if k = key then some val else none)

theorem lastOf_eq_none_iff {ws : List (List UInt8 × List UInt8)} {k : List UInt8} :
    lastOf ws k = none ↔ k ∉ ws.map Prod.fst := by
  induction ws with
  | nil => simp [lastOf]
  | cons kv ws ih => simp [lastOf, ih, and_comm]

/-- The first write counts unless its key is written again. -/
theorem forall_lastOf_cons {k v : List UInt8} {ws : List (List UInt8 × List UInt8)}
    {P : List UInt8 → List UInt8 → Prop} :
    (∀ k' v', lastOf ((k, v) :: ws) k' = some v' → P k' v') ↔
      (k ∉ ws.map Prod.fst → P k v) ∧ ∀ k' v', lastOf ws k' = some v' → P k' v' := by
  constructor
  · refine fun h => ⟨fun hk => h k v ?_, fun k' v' hv => h k' v' ?_⟩
    · rw [lastOf, lastOf_eq_none_iff.mpr hk, Option.none_or, if_pos rfl]
    · rw [lastOf, hv, Option.some_or]
  · rintro ⟨hfirst, hrest⟩ k' v' hv
    rw [lastOf] at hv
    cases hlast : lastOf ws k' with
    | some v'' =>
      rw [hlast, Option.some_or] at hv
      exact hrest k' v' (hlast.trans hv)
    | none =>
      rw [hlast, Option.none_or, Option.ite_none_right_eq_some, Option.some.injEq] at hv
      obtain ⟨rfl, rfl⟩ := hv
      exact hfirst (lastOf_eq_none_iff.mp hlast)

theorem lastOf_one {k v k' v' : List UInt8} : lastOf [(k, v)] k' = some v' ↔ k' = k ∧ v' = v := by
  simp [lastOf, eq_comm]

/-- The writes are accepted, find their memory, are not cut to what an entry holds and are `kept` to
the end. A command that `checks` the result of its set may also fail. -/
def HonestWhen (checks : Bool) (memory kept : Prop) (ws : List (List UInt8 × List UInt8)) : Prop :=
  memory ∧ (∀ kv ∈ ws, Settable kv.1 kv.2) ∧ (∀ k v, lastOf ws k = some v → v.length ≤ 65535) ∧ kept ∨
    checks = true ∧ ¬ (memory ∧ ∀ kv ∈ ws, Settable kv.1 (setValue kv.2))

/-- The bytes of an answer. -/
def answerText : Option Answer → Option (List UInt8) := Option.map Answer.reply

/-- A `vc_set` that succeeds finds no stale entry of its key and a slot for it. -/
def Host.SetReady (h : Host) : HostReq → Prop
  | .set key val ttlSec => (h.set key val ttlSec).2 = .ok () → h.Ready key
  | _ => True

/-- If its sets are ready, `HonestWhen` says when a handler that is to write `ws` is honest. -/
def Judged (checks : Bool) (kept : Prop) (p : Prog (Option Answer)) (h : Host)
    (before : List UInt8 → Multiset Item) (ws : List (List UInt8 × List UInt8)) : Prop :=
  p.Along hostExec Host.SetReady h →
    (Honest answerText p h before (lastOf ws) ↔ HonestWhen checks (p.Along hostExec Host.Stores h) kept ws)

namespace Judged

variable {checks : Bool} {kept : Prop} {h : Host} {before : List UInt8 → Multiset Item}
  {ws : List (List UInt8 × List UInt8)} {conn : Conn} {key : List UInt8}

/-- Calls other than `vc_set` do not matter by themselves. -/
theorem ask {a : HostReq} {f : a.Resp → Prog (Option Answer)} (hsucceeds : h.SetSucceeds a)
    (hstores : h.Stores a) (hf : Judged checks kept (f (hostExec h a).2) (hostExec h a).1 before ws) :
    Judged checks kept (Calls.ask a >>= f) h before ws := by
  rintro ⟨-, hrest⟩
  have hmemory : (Calls.ask a >>= f).Along hostExec Host.Stores h ↔
      (f (hostExec h a).2).Along hostExec Host.Stores (hostExec h a).1 := and_iff_right hstores
  have hall : (Calls.ask a >>= f).Along hostExec Host.SetSucceeds h ↔
      (f (hostExec h a).2).Along hostExec Host.SetSucceeds (hostExec h a).1 := and_iff_right hsucceeds
  have hhonest : Honest answerText (Calls.ask a >>= f) h before (lastOf ws) ↔
      Honest answerText (f (hostExec h a).2) (hostExec h a).1 before (lastOf ws) :=
    ⟨fun hh => ⟨hh.stored, fun hfail => hh.unchanged (mt hall.mp hfail)⟩,
      fun hh => ⟨hh.stored, fun hfail => hh.unchanged (mt hall.mpr hfail)⟩⟩
  rw [hhonest, hmemory]
  exact hf hrest

theorem get {f : Except VcErr (List UInt8) → Prog (Option Answer)}
    (hf : Judged checks kept (f (h.get key).2) (h.get key).1 before ws) :
    Judged checks kept (callGet key >>= f) h before ws :=
  ask trivial trivial hf

theorem del {f : Except VcErr Unit → Prog (Option Answer)}
    (hf : Judged checks kept (f (h.del key).2) (h.del key).1 before ws) :
    Judged checks kept (callDel key >>= f) h before ws :=
  ask trivial trivial hf

theorem malloc {size : Nat} {f : Bool → Prog (Option Answer)}
    (hf : Judged checks kept (f ((h.envs h.calls).mallocOk size)) h.allocated before ws) :
    Judged checks kept (callMalloc size >>= f) h before ws :=
  ask trivial trivial hf

/-- A reply without any write. -/
theorem answer (hkept : kept) (reply : List UInt8) : Judged checks kept (conn.answer reply) h before [] :=
  fun _ => iff_of_true ⟨fun _ _ _ k v hv => (by cases hv), fun hfail => absurd trivial hfail⟩
    (.inl ⟨trivial, by simp, fun k v hv => (by cases hv), hkept⟩)

theorem congr {kept' : Prop} {p : Prog (Option Answer)} (hp : Judged checks kept p h before ws)
    (hkept : kept ↔ kept') : Judged checks kept' p h before ws :=
  propext hkept ▸ hp

end Judged

/-! ## What a set takes away -/

/-- The item that `vc_set` evicts. -/
def setEvicts (w : World) (key val : List UInt8) (ttlSec : UInt32) : Option Item :=
  let r := removeOld (w.cache.shards (homeShard key)) w.cache.mem w.now key
    (freshEntry w.now key val ttlSec)
  (victim r.1 r.2).map (itemOf w.cache.mem)

section Evicts

variable {c c' : Cache} {now : Nat} {key key' val : List UInt8} {ttlSec : UInt32} {new : Item} {ev : Option Item}
  {rest : Multiset Item}

theorem vcSetStore_evicts {env : Env} (hv : c.Valid) (hpos : 0 < key.length) (hk : key.length < 2 ^ 32)
    (hok : (vcSetStore c now env key val ttlSec).1 = .ok ()) :
    ∃ left rest, SetOk c now key (newItem now key val ttlSec) (vcSetStore c now env key val ttlSec).2
      (setEvicts ⟨c, now⟩ key val ttlSec) left rest := by
  obtain ⟨Q, hQ⟩ : ∃ Q, Beside c (homeShard key) Q := exists_beside c (shardIdx_lt _)
  rcases vcSetStore_cases hv.owned hk now env val ttlSec with
    ⟨ne, m1, total, _, _, hbuilt, hset⟩ | ⟨m1, _, _, _, hset⟩
  · rw [hset]
    obtain ⟨rest, ho⟩ := lockedSet_outcome (hv.shape (homeShard key)) m1 now key ne
    have hbuilt' : Built c.mem m1 (0 + ptrsOf c.contents) (freshEntry now key val ttlSec) ne key val := by
      rwa [zero_add]
    rw [(hbuilt'.same_shard hv).2, victim_mem _ _ (removeOld (c.shards (homeShard key)) c.mem now key
      (freshEntry now key val ttlSec)).2] at ho
    exact ⟨_, _, LockedSet.setOk hv hpos hk hQ hbuilt ho rfl⟩
  · rw [hset] at hok
    cases hok

/-- A set with room for its key takes nothing from another key but what it evicts. -/
theorem SetOk.copies_add_evicted (hs : SetOk c now key new c' ev none rest) (hv : c.Valid)
    (hk : key.length < 2 ^ 32) (hnew : new.key = Cell.bytes key) (hne : key' ≠ key) :
    c'.copies key' + (one ev).filter (fun i => i.key = Cell.bytes key') = c.copies key' := by
  have hbefore := congrArg (Multiset.filter fun i : Item => i.key = Cell.bytes key') hs.before
  have hafter := congrArg (Multiset.filter fun i : Item => i.key = Cell.bytes key') hs.after
  have hother {i : Item} (hi : i.key = Cell.bytes key) : i.key ≠ Cell.bytes key' := fun he =>
    hne (Cell.bytes_injective (he.symm.trans hi))
  rw [Multiset.filter_add, Multiset.filter_add,
    filter_one_of_ne fun i hi => hother (findItem_key hv hk hi), zero_add] at hbefore
  rw [one_none, add_zero,
    Multiset.filter_cons_of_neg (p := fun i : Item => i.key = Cell.bytes key') _ (hother hnew)] at hafter
  rw [Cache.copies, hafter, Cache.copies, hbefore, add_comm]

variable {h : Host}

theorem Host.set_ok_evicts (hv : h.world.cache.Valid) (hok : (h.set key val ttlSec).2 = .ok ())
    (hroom : h.world.cache.HasRoom h.time key) :
    Settable key val ∧ ∃ rest, SetOk h.world.cache h.time key (newItem h.time key val ttlSec)
      (h.set key val ttlSec).1.world.cache (setEvicts ⟨h.world.cache, h.time⟩ key val ttlSec) none rest := by
  have hcall : h.set key val ttlSec = (h.advance.withCache
      (vcSet h.world.cache h.time (h.envs h.calls).env key val ttlSec).2,
      (vcSet h.world.cache h.time (h.envs h.calls).env key val ttlSec).1) := rfl
  obtain ⟨hset, -⟩ := Host.set_ok hv hok
  rw [hcall, vcSet_eq, if_pos hset] at hok ⊢
  obtain ⟨left, rest, hs⟩ := vcSetStore_evicts (hv.log _) hset.1 hset.2.1 hok
  have hs' := hs.of_log
  obtain rfl := hs'.room hroom
  exact ⟨hset, rest, hs'⟩

/-- The entries of a key that another set meets: nothing is added, and all is kept exactly if none
of them is evicted. -/
theorem Host.set_copies_other (hv : h.world.cache.Valid) (hok : (h.set key val ttlSec).2 = .ok ())
    (hroom : h.world.cache.HasRoom h.time key) (hne : key' ≠ key) :
    (h.set key val ttlSec).1.world.cache.copies key' ≤ h.world.cache.copies key' ∧
      ((h.set key val ttlSec).1.world.cache.copies key' = h.world.cache.copies key' ↔
        ∀ i ∈ setEvicts ⟨h.world.cache, h.time⟩ key val ttlSec, i.key ≠ Cell.bytes key') := by
  obtain ⟨hset, rest, hs⟩ := Host.set_ok_evicts hv hok hroom
  have hsum := hs.copies_add_evicted hv hset.2.1 rfl hne
  generalize setEvicts ⟨h.world.cache, h.time⟩ key val ttlSec = ev at hsum
  refine ⟨hsum ▸ Multiset.le_add_right _ _, ?_⟩
  rw [← hsum, left_eq_add, Multiset.filter_eq_nil]
  cases ev <;> simp

end Evicts

/-! ## Writing without looking at the result -/

/-- Set the keys one after the other, and then reply. -/
def storeAll (conn : Conn) (reply : List UInt8) (ttlSec : UInt32) :
    List (List UInt8 × List UInt8) → Prog (Option Answer)
  | [] => conn.answer reply
  | (key, val) :: ws => callSet key val ttlSec >>= fun _ => storeAll conn reply ttlSec ws

/-- None of the writes evicts the entry of `key`. -/
def Host.Spares (ttlSec : UInt32) (key : List UInt8) : Host → List (List UInt8 × List UInt8) → Prop
  | _, [] => True
  | h, (k, v) :: ws =>
    (∀ i ∈ setEvicts ⟨h.world.cache, h.time⟩ k v ttlSec, i.key ≠ Cell.bytes key) ∧
      (h.set k v ttlSec).1.Spares ttlSec key ws

/-- No write evicts a key that was written before it, unless that key is written again. -/
def Host.KeepsAll (ttlSec : UInt32) : Host → List (List UInt8 × List UInt8) → Prop
  | _, [] => True
  | h, (k, v) :: ws => (k ∉ ws.map Prod.fst → (h.set k v ttlSec).1.Spares ttlSec k ws) ∧
      (h.set k v ttlSec).1.KeepsAll ttlSec ws

section StoreAll

variable {conn : Conn} {reply : List UInt8} {ttlSec : UInt32} {h : Host}
  {before : List UInt8 → Multiset Item} {ws : List (List UInt8 × List UInt8)} {k v : List UInt8}
  {c₀ : Cache}

theorem storeAll_reply : ((storeAll conn reply ttlSec ws).run hostExec h).2 = some ⟨conn, reply⟩ := by
  induction ws generalizing h with
  | nil => rfl
  | cons kv ws ih => exact ih

theorem storeAll_succeeds : (storeAll conn reply ttlSec ws).Along hostExec Host.SetSucceeds h ↔
    (storeAll conn reply ttlSec ws).Along hostExec Host.Stores h ∧ ∀ kv ∈ ws, Settable kv.1 kv.2 := by
  induction ws generalizing h with
  | nil => exact iff_of_true trivial ⟨trivial, by simp⟩
  | cons kv ws ih =>
    have hset : (h.set kv.1 kv.2 ttlSec).2 = .ok () ↔
        (Settable kv.1 kv.2 → CanStore (h.envs h.calls).env h.world.cache.mem kv.1 kv.2) ∧
          Settable kv.1 kv.2 := Host.set_ok_iff.trans (by tauto)
    rw [List.forall_mem_cons]
    exact (and_congr hset ih).trans and_and_and_comm

theorem Host.set_valid (hv : h.world.cache.Valid) : (h.set k v ttlSec).1.world.cache.Valid :=
  (Host.set_effect hv).valid hv

/-- The entries of a key that is not written. -/
theorem storeAll_copies (hv : h.world.cache.Valid)
    (hready : (storeAll conn reply ttlSec ws).Along hostExec Host.SetReady h)
    (hall : (storeAll conn reply ttlSec ws).Along hostExec Host.SetSucceeds h)
    (hk : k ∉ ws.map Prod.fst) :
    ((storeAll conn reply ttlSec ws).run hostExec h).1.world.cache.copies k ≤ h.world.cache.copies k ∧
      (((storeAll conn reply ttlSec ws).run hostExec h).1.world.cache.copies k = h.world.cache.copies k ↔
        h.Spares ttlSec k ws) := by
  induction ws generalizing h with
  | nil => exact ⟨le_refl _, iff_of_true rfl trivial⟩
  | cons kv ws ih =>
    obtain ⟨key, val⟩ := kv
    rw [List.map_cons, List.mem_cons, not_or] at hk
    obtain ⟨hle, hiff⟩ := Host.set_copies_other hv hall.1 (hready.1 hall.1).room hk.1
    obtain ⟨hle', hiff'⟩ := ih (Host.set_valid hv) hready.2 hall.2 hk.2
    refine ⟨hle'.trans hle, ?_⟩
    rw [Host.Spares, ← hiff, ← hiff']
    constructor
    · intro heq
      have hfirst := le_antisymm hle (heq ▸ hle')
      exact ⟨hfirst, heq.trans hfirst.symm⟩
    · rintro ⟨hfirst, hrest⟩
      exact hrest.trans hfirst

theorem take_valMax_eq_self_iff {v : List UInt8} : v.take valMax = v ↔ v.length ≤ 65535 := by
  rw [List.take_eq_self_iff]
  exact Iff.rfl

/-- A key whose only entry is the one of the write, or has been taken away. -/
theorem Cache.holds_new_iff {c : Cache} {now : Nat} (hle : c.copies k ≤ {newItem now k v ttlSec}) :
    c.Holds k (some v) ↔ v.length ≤ 65535 ∧ c.copies k = {newItem now k v ttlSec} := by
  have hval : (newItem now k v ttlSec).val = Cell.bytes v ↔ v.length ≤ 65535 :=
    Cell.bytes_injective.eq_iff.trans take_valMax_eq_self_iff
  constructor
  · rintro ⟨i, hi, hiv⟩
    have hnew : i = newItem now k v ttlSec := by
      rw [hi, Multiset.singleton_le, Multiset.mem_singleton] at hle
      exact hle
    subst hnew
    exact ⟨hval.mp hiv, hi⟩
  · rintro ⟨hshort, heq⟩
    exact ⟨_, heq, hval.mpr hshort⟩

/-- When every set succeeds, the last value for each key is there in the end exactly if it fits into
an entry and is not evicted. -/
theorem storeAll_holds_iff (hv : h.world.cache.Valid)
    (hready : (storeAll conn reply ttlSec ws).Along hostExec Host.SetReady h)
    (hall : (storeAll conn reply ttlSec ws).Along hostExec Host.SetSucceeds h) :
    (∀ k v, lastOf ws k = some v →
        ((storeAll conn reply ttlSec ws).run hostExec h).1.world.cache.Holds k (some v)) ↔
      (∀ k v, lastOf ws k = some v → v.length ≤ 65535) ∧ h.KeepsAll ttlSec ws := by
  induction ws generalizing h with
  | nil => exact iff_of_true (fun k v hv => by cases hv) ⟨fun k v hv => (by cases hv), trivial⟩
  | cons kv ws ih =>
    obtain ⟨key, val⟩ := kv
    have hnew : (h.set key val ttlSec).1.world.cache.copies key = {newItem h.time key val ttlSec} := by
      obtain ⟨⟨o, hshows⟩, hroom⟩ := hready.1 hall.1
      exact Host.set_copies hv hall.1 hshows hroom
    have hself (hk : key ∉ ws.map Prod.fst) :
        ((storeAll conn reply ttlSec ((key, val) :: ws)).run hostExec h).1.world.cache.Holds key (some val) ↔
          val.length ≤ 65535 ∧ (h.set key val ttlSec).1.Spares ttlSec key ws := by
      obtain ⟨hle, hiff⟩ := storeAll_copies (Host.set_valid hv) hready.2 hall.2 hk
      rw [← hiff, hnew]
      exact Cache.holds_new_iff (hnew ▸ hle)
    have hrest := ih (Host.set_valid hv) hready.2 hall.2
    rw [forall_lastOf_cons, forall_lastOf_cons, Host.KeepsAll, forall_congr fun hk => propext (hself hk)]
    exact (and_congr_right fun _ => hrest).trans (by tauto)

/-- A command that ignores the results of its sets. -/
theorem Judged.stores (hv : h.world.cache.Valid) (hreply : ¬ IsErrorReply reply)
    (hconfirm : (∀ kv ∈ ws, Settable kv.1 kv.2) → Confirms reply) :
    Judged false (h.KeepsAll ttlSec ws) (storeAll conn reply ttlSec ws) h before ws := by
  intro hready
  have htext : answerText ((storeAll conn reply ttlSec ws).run hostExec h).2 = some reply := by
    rw [storeAll_reply]
    rfl
  have hend := storeAll_holds_iff hv hready
  constructor
  · intro hh
    have hall : (storeAll conn reply ttlSec ws).Along hostExec Host.SetSucceeds h := by
      by_contra hfail
      obtain ⟨⟨r, hr, herr⟩, -⟩ := hh.unchanged hfail
      rw [htext, Option.some.injEq] at hr
      exact hreply (hr ▸ herr)
    obtain ⟨hmemory, hset⟩ := storeAll_succeeds.mp hall
    obtain ⟨hshort, hkept⟩ := (hend hall).mp (hh.stored reply htext (hconfirm hset))
    exact .inl ⟨hmemory, hset, hshort, hkept⟩
  · rintro (⟨hmemory, hset, hshort, hkept⟩ | ⟨hchecks, -⟩)
    · have hall := storeAll_succeeds.mpr ⟨hmemory, hset⟩
      exact ⟨fun r _ _ => (hend hall).mpr ⟨hshort, hkept⟩, fun hfail => absurd hall hfail⟩
    · cases hchecks

/-- The value that `SET` stores is the one it was given. -/
theorem take_setValue_eq_iff {v : List UInt8} :
    (setValue v).take valMax = v ↔ 1 ≤ v.length ∧ v.length ≤ 65535 := by
  by_cases hpos : 0 < v.length
  · rw [setValue, if_pos hpos, take_valMax_eq_self_iff]
    exact (and_iff_right hpos).symm
  · obtain rfl : v = [] := List.length_eq_zero_iff.mp (by omega)
    decide

/-- `SET` answers with an error if its set fails. -/
theorem Judged.storeReply (hv : h.world.cache.Valid) (hsame : h.world.cache.items = c₀.items) :
    Judged true True (storeReply conn k v ttlSec) h c₀.copies [(k, v)] := by
  rw [storeReply_eq]
  rintro ⟨hready, -⟩
  have hmemory : (callSet k (setValue v) ttlSec >>= fun r => conn.answer (storeText r)).Along
      hostExec Host.Stores h ↔ h.Stores (.set k (setValue v) ttlSec) := and_iff_left trivial
  have hok : (h.set k (setValue v) ttlSec).2 = .ok () ↔
      h.Stores (.set k (setValue v) ttlSec) ∧ Settable k (setValue v) :=
    Host.set_ok_iff.trans (by rw [Host.Stores]; tauto)
  have htext : answerText ((callSet k (setValue v) ttlSec >>= fun r =>
      conn.answer (storeText r)).run hostExec h).2 = some (storeText (h.set k (setValue v) ttlSec).2) :=
    rfl
  rw [hmemory, HonestWhen, List.forall_mem_singleton, List.forall_mem_singleton, ← hok]
  cases hr : (h.set k (setValue v) ttlSec).2 with
  | error e =>
    rw [hr] at htext
    have herr : IsErrorReply (storeText (.error e)) := by
      rw [storeText]
      decide
    have hkeep (key : List UInt8) : (h.set k (setValue v) ttlSec).1.world.cache.copies key = c₀.copies key :=
      Cache.copies_congr ((Host.set_error hv hr).trans hsame) key
    refine iff_of_true ⟨fun r hreply hconfirm => ?_, fun _ => ⟨⟨_, htext, herr⟩, hkeep⟩⟩
      (.inr ⟨rfl, by simp⟩)
    rw [htext, Option.some.injEq] at hreply
    rw [← hreply] at hconfirm
    exact absurd herr hconfirm.1
  | ok u =>
    rw [hr] at htext
    obtain ⟨hstores, hset⟩ := hok.mp hr
    obtain ⟨⟨o, hshows⟩, hroom⟩ := hready hr
    have hheld : (h.set k (setValue v) ttlSec).1.world.cache.Holds k (some ((setValue v).take valMax)) :=
      ⟨_, Host.set_copies hv hr hshows hroom, rfl⟩
    constructor
    · intro hh
      have hwanted := hh.stored _ htext confirms_ok k v (lastOf_one.mpr ⟨rfl, rfl⟩)
      obtain ⟨hpos, hle⟩ := take_setValue_eq_iff.mp (Option.some.inj (hheld.eq hwanted))
      refine .inl ⟨hstores, ⟨hset.1, hset.2.1, hpos⟩, fun k' v' hv => ?_, trivial⟩
      obtain ⟨rfl, rfl⟩ := lastOf_one.mp hv
      exact hle
    · rintro (⟨-, ⟨-, -, hpos⟩, hshort, -⟩ | ⟨-, hfail⟩)
      · refine ⟨fun r _ _ k' v' hv => ?_, fun hfail => absurd ⟨hr, trivial⟩ hfail⟩
        obtain ⟨rfl, rfl⟩ := lastOf_one.mp hv
        rwa [take_setValue_eq_iff.mpr ⟨hpos, hshort k' v' hv⟩] at hheld
      · exact absurd rfl hfail

end StoreAll

/-! ## The commands -/

inductive WriteCmd where
  | set | mset | append | incr | decr | incrby | decrby | expire | persist | rename | vcset
  deriving DecidableEq

/-- The entry of the command table. -/
def WriteCmd.entry : WriteCmd → CmdEntry
  | set => ⟨"SET", cmdSet, vcAclWrite⟩
  | mset => ⟨"MSET", cmdMset, vcAclWrite⟩
  | append => ⟨"APPEND", cmdAppend, vcAclWrite⟩
  | incr => ⟨"INCR", cmdIncr, vcAclWrite⟩
  | decr => ⟨"DECR", cmdDecr, vcAclWrite⟩
  | incrby => ⟨"INCRBY", cmdIncrby2, vcAclWrite⟩
  | decrby => ⟨"DECRBY", cmdDecrby, vcAclWrite⟩
  | expire => ⟨"EXPIRE", cmdExpire, vcAclWrite⟩
  | persist => ⟨"PERSIST", cmdPersist, vcAclWrite⟩
  | rename => ⟨"RENAME", cmdRename, vcAclWrite⟩
  | vcset => ⟨"VCSET", cmdVcset, vcAclWrite⟩

/-- The keys and values among the arguments of `MSET`. -/
def pairs : List (List UInt8) → List (List UInt8 × List UInt8)
  | key :: val :: rest => (key, val) :: pairs rest
  | _ => []

/-- The typed value that `VCSET` makes of its argument. -/
def vcsetValue (libm : Libm) (type : UInt8) (val : List UInt8) : List UInt8 :=
  if type = vcTypeInt64 then vcWireMagic ++ vcTypeInt64 :: int64Bytes (parseNum val)
  else if type = vcTypeFloat64 then vcWireMagic ++ vcTypeFloat64 :: libm.strtod (cstr val)
  else if type = vcTypeBool then
    vcWireMagic ++ vcTypeBool :: [if isWord val "true" || cstr val == str "1" then 1 else 0]
  else if type = vcTypeJson then vcWireMagic ++ vcTypeJson :: val
  else vcWireMagic ++ vcTypeBinary :: val

/-- Arguments that `ARGC_CHECK` refuses. -/
def BadArgc (argv : List (List UInt8)) (mn mx : Nat) : Prop :=
  argv.length - 1 < mn ∨ mx < argv.length - 1

instance (argv : List (List UInt8)) (mn mx : Nat) : Decidable (BadArgc argv mn mx) :=
  inferInstanceAs (Decidable (_ ∨ _))

/-- What `vc_get` finds. -/
def Host.finds (h : Host) (key : List UInt8) : Option (List UInt8) := (h.get key).2.toOption

/-- What a counter command is to write. -/
def counterWanted (argv : List (List UInt8)) (h : Host) (delta : Int) : List (List UInt8 × List UInt8) :=
  if BadArgc argv 1 2 then []
  else [(arg argv 1, counterBytes (addInt64 ((h.finds (arg argv 1)).elim 0 counterValue)
    (if argv.length = 3 then parseNum (arg argv 2) else delta)))]

/-- What a command is to write under `target` that copies the value it finds. -/
def copyWanted (h : Host) (key target : List UInt8) : List (List UInt8 × List UInt8) :=
  match h.finds key with
  | none => []
  | some v => if (h.envs (h.calls + 1)).mallocOk v.length then [(target, v)] else []

/-- What a command that may write is to write, if it gets as far as that: by its arguments, what
`vc_get` finds, and the answer to its call of `malloc`, the first or the second of its calls. -/
def WriteCmd.wanted (cmd : WriteCmd) (srv : Srv) (argv : List (List UInt8)) (h : Host) :
    List (List UInt8 × List UInt8) :=
  let key := arg argv 1
  match cmd with
  | set =>
    let opts := setOptions (argv.drop 3) ⟨0, false, false⟩
    -- with both options the key is looked up twice
    let later := if opts.nx then (h.get key).1 else h
    if argv.length < 3 ∨ opts.nx ∧ (h.finds key).isSome ∨ opts.xx ∧ (later.finds key).isNone then []
    else [(key, arg argv 2)]
  | mset => if argv.length < 3 ∨ argv.length % 2 = 0 then [] else pairs (argv.drop 1)
  | append =>
    if BadArgc argv 2 2 then []
    else match h.finds key with
      | none => [(key, arg argv 2)]
      | some v =>
        if (h.envs (h.calls + 1)).mallocOk (v.length + (arg argv 2).length) then [(key, v ++ arg argv 2)]
        else []
  | incr => counterWanted argv h 1
  | decr => counterWanted argv h (-1)
  | incrby => counterWanted argv h (if argv.length = 3 then parseNum (arg argv 2) else 0)
  | decrby => counterWanted argv h (-(if argv.length = 3 then parseNum (arg argv 2) else 0))
  | expire => if BadArgc argv 2 2 then [] else copyWanted h key key
  | persist => if BadArgc argv 1 1 then [] else copyWanted h key key
  | rename => if BadArgc argv 2 2 then [] else copyWanted h key (arg argv 2)
  | vcset =>
    if argv.length < 4 then []
    else match typeOfName (arg argv 2) with
      | none => []
      | some type =>
        if (h.envs h.calls).mallocOk (vcWireMagic.length + 1 + (arg argv 3).length + 16) then
          [(key, vcsetValue srv.libm type (arg argv 3))]
        else []

section Commands

variable {srv : Srv} {conn : Conn} {argv : List (List UInt8)} {h : Host} {kept : Prop}
  {before : List UInt8 → Multiset Item}

theorem Judged.guarded {checks : Bool} {acl : UInt32} {p : Prog (Option Answer)}
    {ws : List (List UInt8 × List UInt8)} (hmay : needAuth srv conn acl = none)
    (hp : Judged checks kept p h before ws) : Judged checks kept (guarded srv conn acl p) h before ws := by
  rwa [VoidCache.guarded, hmay]

/-- A command that refuses its arguments writes nothing. -/
theorem Judged.refuse {checks : Bool} {c : Prop} [Decidable c] {reply : List UInt8}
    {p : Prog (Option Answer)} {ws : List (List UInt8 × List UInt8)} (hkept : c → kept)
    (hp : ¬ c → Judged checks kept p h before ws) :
    Judged checks kept (if c then conn.answer reply else p) h before (if c then [] else ws) := by
  by_cases hc : c
  · rw [if_pos hc, if_pos hc]
    exact .answer (hkept hc) _
  · rw [if_neg hc, if_neg hc]
    exact hp hc

/-- A copy is made before the write. -/
theorem Judged.copy {checks : Bool} {size : Nat} {reply : List UInt8} {p : Prog (Option Answer)}
    {ws : List (List UInt8 × List UInt8)} (hp : Judged checks True p h.allocated before ws) :
    Judged checks True (callMalloc size >>= fun copied => if !copied then conn.answer reply else p) h before
      (if (h.envs h.calls).mallocOk size then ws else []) := by
  refine .malloc ?_
  cases (h.envs h.calls).mallocOk size with
  | false => exact .answer trivial _
  | true => exact hp

/-- One set, whatever comes of it. -/
theorem Judged.one {key val reply : List UInt8} {ttlSec : UInt32} (hv : h.world.cache.Valid)
    (hreply : ¬ IsErrorReply reply) (hconfirm : Settable key val → Confirms reply) :
    Judged false True (callSet key val ttlSec >>= fun _ => conn.answer reply) h before [(key, val)] := by
  have hall : Judged false (h.KeepsAll ttlSec [(key, val)]) (storeAll conn reply ttlSec [(key, val)]) h before
      [(key, val)] :=
    .stores hv hreply fun hall => hconfirm (hall (key, val) List.mem_cons_self)
  exact hall.congr (iff_of_true ⟨fun _ => trivial, trivial⟩ trivial)

theorem Host.get_valid (hv : h.world.cache.Valid) (key : List UInt8) : (h.get key).1.world.cache.Valid :=
  (h.get_touched key).valid hv

theorem Host.del_valid (hv : h.world.cache.Valid) (key : List UInt8) : (h.del key).1.world.cache.Valid :=
  (Host.del_effect hv).valid hv

theorem not_error_integer (n : Int) : ¬ IsErrorReply (respWriteInteger n) := by
  simp [IsErrorReply, respWriteInteger]

theorem confirms_integer {n : Nat} (hn : 0 < n) : Confirms (respWriteInteger n) := by
  refine ⟨not_error_integer n, fun resp3 heq => ?_, fun heq => ?_⟩
  · have hhead : some (58 : UInt8) = (respWriteNullCompat resp3).head? := heq ▸ rfl
    cases resp3 <;> exact absurd hhead (by decide)
  · have hdec : decimal n = decimal 0 := List.append_cancel_right (List.cons.inj heq).2
    exact hn.ne' (decimal_injective hdec)

/-- The two values that a counter command answers with start like a bulk string of thirteen
bytes. -/
theorem confirms_counter (v : Int) (rest : List UInt8) : Confirms (respWriteVcInt64 v ++ rest) := by
  have hstart : (respWriteVcInt64 v ++ rest).take 2 = [36, 49] := by
    rw [respWriteVcInt64, respWriteVcTyped, int64Bytes, length_leBytes]
    rfl
  refine ⟨fun herr => ?_, fun resp3 heq => ?_, fun heq => ?_⟩
  · simp [IsErrorReply, respWriteVcInt64, respWriteVcTyped] at herr
  · rw [heq] at hstart
    cases resp3 <;> exact absurd hstart (by decide)
  · rw [heq] at hstart
    exact absurd hstart (by decide)

theorem judged_setAgain (hv : h.world.cache.Valid) (key : List UInt8) (ttlSec : UInt32) :
    Judged false True (setAgain conn key ttlSec) h before (copyWanted h key key) := by
  refine .get ?_
  rw [copyWanted, Host.finds]
  have hnew := Host.get_valid hv key
  cases (h.get key).2 with
  | error e => exact .answer trivial _
  | ok v => exact .copy (.one hnew (not_error_integer 1) fun _ => confirms_integer Nat.one_pos)

theorem msetLoop_ok (args : List (List UInt8)) :
    (msetLoop args >>= fun _ => conn.ok) = storeAll conn respWriteOk 0 (pairs args) := by
  fun_induction msetLoop args with
  | case1 key val rest ih =>
    rw [pairs, storeAll, ← ih]
    rfl
  | case2 args hshort =>
    rw [pairs, storeAll]
    · rfl
    · exact hshort

theorem bulkPayload_respWriteBulk (data : List UInt8) : bulkPayload (respWriteBulk data) = some data := by
  have hwire : respWriteBulk data = (36 :: decimal data.length) ++ (crlf ++ (data ++ crlf)) := by
    simp [respWriteBulk]
  have hline : ((36 :: decimal data.length) ++ (crlf ++ (data ++ crlf))).takeWhile (· ≠ 13) =
      36 :: decimal data.length := by
    rw [List.takeWhile_append_of_pos fun b hb => decide_eq_true (cr_notMem_decimal (by decide) _ b hb)]
    simp [crlf]
  rw [bulkPayload, hwire, hline]
  generalize 36 :: decimal data.length = line
  have hlen : (line ++ (crlf ++ (data ++ crlf))).length = line.length + 2 + data.length + 2 := by
    simp [crlf]
    omega
  have hdrop : (line ++ (crlf ++ (data ++ crlf))).drop (line.length + 2) = data ++ crlf := by
    rw [← List.append_assoc]
    exact List.drop_left' (by simp [crlf])
  rw [hlen, hdrop, if_pos (by omega)]
  rw [show line.length + 2 + data.length + 2 - (line.length + 2) - 2 = data.length by omega,
    List.take_left]

theorem vcsetWire_eq (libm : Libm) (type : UInt8) (val : List UInt8) :
    vcsetWire libm type val = respWriteBulk (vcsetValue libm type val) := by
  simp only [vcsetWire, vcsetValue, respWriteVcInt64, respWriteVcBool, respWriteVcJson,
    respWriteVcBinary, respWriteVcTyped_eq, apply_ite respWriteBulk]

section

variable (hmay : needAuth srv conn vcAclWrite = none) (hv : h.world.cache.Valid)
include hmay hv

theorem judged_incrby (delta : Int) :
    Judged false True (cmdIncrby srv conn argv delta) h before (counterWanted argv h delta) := by
  refine .guarded hmay (.refuse (fun _ => trivial) fun _ => .get ?_)
  rw [Host.finds]
  have hnew := Host.get_valid hv (arg argv 1)
  cases (h.get (arg argv 1)).2 with
  | error e => exact .one hnew (confirms_counter _ _).1 fun _ => confirms_counter _ _
  | ok v => exact .one hnew (confirms_counter _ _).1 fun _ => confirms_counter _ _

theorem judged_append :
    Judged false True (cmdAppend srv conn argv) h before (WriteCmd.append.wanted srv argv h) := by
  refine .guarded hmay (.refuse (fun _ => trivial) fun _ => .get ?_)
  rw [Host.finds]
  have hnew := Host.get_valid hv (arg argv 1)
  cases (h.get (arg argv 1)).2 with
  | error e => exact .one hnew (not_error_integer _) fun hset => confirms_integer hset.2.2
  | ok v =>
    refine .copy (.one hnew (not_error_integer _) fun hset => confirms_integer ?_)
    rw [← List.length_append]
    exact hset.2.2

theorem judged_rename :
    Judged false True (cmdRename srv conn argv) h before (WriteCmd.rename.wanted srv argv h) := by
  refine .guarded hmay (.refuse (fun _ => trivial) fun _ => .get ?_)
  rw [copyWanted, Host.finds]
  have hgone : ((h.get (arg argv 1)).1.allocated.del (arg argv 1)).1.world.cache.Valid :=
    Host.del_valid (h := (h.get (arg argv 1)).1.allocated) (Host.get_valid hv _) _
  cases (h.get (arg argv 1)).2 with
  | error e => exact .answer trivial _
  | ok v => exact .copy (.del (.one hgone confirms_ok.1 fun _ => confirms_ok))

theorem judged_mset :
    Judged false (h.KeepsAll 0 (WriteCmd.mset.wanted srv argv h)) (cmdMset srv conn argv) h before
      (WriteCmd.mset.wanted srv argv h) := by
  refine .guarded hmay (.refuse (fun hbad => ?_) fun hgood => ?_)
  · rw [WriteCmd.wanted, if_pos hbad]
    trivial
  · rw [WriteCmd.wanted, if_neg hgood, msetLoop_ok]
    exact .stores hv confirms_ok.1 fun _ => confirms_ok

/-- `NX` and `XX` look the key up before anything is stored. -/
theorem judged_set :
    Judged true True (cmdSet srv conn argv) h h.world.cache.copies (WriteCmd.set.wanted srv argv h) := by
  refine .guarded hmay ?_
  rw [WriteCmd.wanted, ite_or]
  refine .refuse (fun _ => trivial) fun _ => ?_
  generalize setOptions (argv.drop 3) ⟨0, false, false⟩ = opts
  obtain ⟨ttlSec, nx, xx⟩ := opts
  dsimp only
  have hxx {h' : Host} (ht : Touched h.world.cache h'.world.cache) :
      Judged true True (xxMissing xx (arg argv 1) >>= fun missing =>
          if missing then conn.nullReply else storeReply conn (arg argv 1) (arg argv 2) ttlSec) h'
        h.world.cache.copies
        (if xx ∧ (h'.finds (arg argv 1)).isNone then [] else [(arg argv 1, arg argv 2)]) := by
    cases xx with
    | false => exact .storeReply (ht.valid hv) ht.items
    | true =>
      refine .get ?_
      have hget := h'.get_touched (arg argv 1)
      rw [Host.finds]
      cases (h'.get (arg argv 1)).2 with
      | error e => exact .answer trivial _
      | ok v => exact .storeReply (hget.valid (ht.valid hv)) (hget.items.trans ht.items)
  rw [ite_or]
  cases nx with
  | false => exact hxx ⟨rfl, fun _ => .refl _⟩
  | true =>
    refine .get ?_
    have hrest := hxx (h.get_touched (arg argv 1))
    rw [Host.finds]
    cases (h.get (arg argv 1)).2 with
    | error e => exact hrest
    | ok v => exact .answer trivial _

theorem judged_vcset :
    Judged false True (cmdVcset srv conn argv) h before (WriteCmd.vcset.wanted srv argv h) := by
  refine .guarded hmay (.refuse (fun _ => trivial) fun _ => ?_)
  cases typeOfName (arg argv 2) with
  | none => exact .answer trivial _
  | some type =>
    refine .copy ?_
    rw [vcsetWire_eq, bulkPayload_respWriteBulk]
    exact .one hv confirms_ok.1 fun _ => confirms_ok

theorem judged_write (cmd : WriteCmd) :
    Judged (cmd = .set) (cmd = .mset → h.KeepsAll 0 (cmd.wanted srv argv h)) (cmd.entry.fn srv conn argv) h
      h.world.cache.copies (cmd.wanted srv argv h) := by
  have hone {cmd : WriteCmd} (hcmd : cmd ≠ .mset) :
      True ↔ (cmd = .mset → h.KeepsAll 0 (cmd.wanted srv argv h)) :=
    iff_of_true trivial fun heq => absurd heq hcmd
  cases cmd with
  | set => exact (judged_set hmay hv).congr (hone (by decide))
  | mset => exact (judged_mset hmay hv).congr (by simp)
  | append => exact (judged_append hmay hv).congr (hone (by decide))
  | incr => exact (judged_incrby hmay hv _).congr (hone (by decide))
  | decr => exact (judged_incrby hmay hv _).congr (hone (by decide))
  | incrby => exact (judged_incrby hmay hv _).congr (hone (by decide))
  | decrby => exact (judged_incrby hmay hv _).congr (hone (by decide))
  | expire =>
    exact (Judged.guarded hmay (.refuse (fun _ => trivial) fun _ => judged_setAgain hv _ _)).congr
      (hone (by decide))
  | persist =>
    exact (Judged.guarded hmay (.refuse (fun _ => trivial) fun _ => judged_setAgain hv _ _)).congr
      (hone (by decide))
  | rename => exact (judged_rename hmay hv).congr (hone (by decide))
  | vcset => exact (judged_vcset hmay hv).congr (hone (by decide))

end

/-- What the dispatcher lets a command write. -/
def WriteCmd.planned (cmd : WriteCmd) (srv : Srv) (conn : Conn) (argv : List (List UInt8)) (h : Host) :
    List (List UInt8 × List UInt8) :=
  if needAuth srv conn vcAclWrite = none then cmd.wanted srv argv h else []

/-- The bytes of an answer of the dispatcher. -/
def dispatchText : Option Dispatched → Option (List UInt8) := Option.map fun d => d.answer.reply

/-- A write command is honest exactly if its arguments can be stored as they are and, for `MSET`, no
set evicts a key that an earlier one has written; `SET` also if nothing can be stored. -/
theorem success_iff_stored {cmd : WriteCmd} (hcmd : lookupCmd argv = some cmd.entry)
    (hv : h.world.cache.Valid) (hready : (vcDispatch srv conn argv).Along hostExec Host.SetReady h) :
    Honest dispatchText (vcDispatch srv conn argv) h h.world.cache.copies
        (lastOf (cmd.planned srv conn argv h)) ↔
      HonestWhen (cmd = .set) ((vcDispatch srv conn argv).Along hostExec Host.Stores h)
        (cmd = .mset → h.KeepsAll 0 (cmd.planned srv conn argv h)) (cmd.planned srv conn argv h) := by
  have hacl : cmd.entry.aclNeeded = vcAclWrite := by cases cmd <;> rfl
  have hne : argv ≠ [] := by
    rintro rfl
    cases (show lookupCmd [] = none from rfl).symm.trans hcmd
  by_cases hmay : needAuth srv conn vcAclWrite = none
  · have hx : executed srv conn argv = some cmd.entry :=
      executed_eq_some.mpr ⟨hne, hcmd, .inr (hacl ▸ hmay)⟩
    rw [WriteCmd.planned, if_pos hmay, vcDispatch_of_executed hx, Honest.bind_pure,
      Calls.along_bind_pure]
    rw [vcDispatch_of_executed hx, Calls.along_bind_pure] at hready
    have htext : (dispatchText ∘ fun o => o.map fun a =>
        (⟨{ srv with totalCommands := (srv.totalCommands + 1) % 2 ^ 64 }, a⟩ : Dispatched)) =
          answerText := by
      funext o
      cases o <;> rfl
    rw [htext]
    exact judged_write hmay hv cmd hready
  · have hx : executed srv conn argv = none := by
      refine Option.eq_none_iff_forall_ne_some.mpr fun e he => ?_
      obtain ⟨-, he, hok⟩ := executed_eq_some.mp he
      obtain rfl : cmd.entry = e := Option.some.inj (hcmd.symm.trans he)
      rw [hacl] at hok
      exact hok.elim (by decide) hmay
    obtain ⟨r, -, hr⟩ := vcDispatch_of_not_executed hx
    rw [WriteCmd.planned, if_neg hmay, hr]
    exact iff_of_true ⟨fun _ _ _ k v hv => (by cases hv), fun hfail => absurd trivial hfail⟩
      (.inl ⟨trivial, by simp, fun k v hv => (by cases hv), fun _ => trivial⟩)

end Commands

section Example

/-- A cache with one slot a shard, in which the shard of one key is full. -/
def filledHost : Host :=
  ((vcDispatch openServer freshConn [str "SET", str "k", str "v"]).run hostExec
    (quietHost (newCache none 1))).1

theorem set_stored : ¬ filledHost.world.cache.Below ∧
    Honest dispatchText (vcDispatch openServer freshConn [str "SET", str "l", str "w"]) filledHost
      filledHost.world.cache.copies (lastOf [(str "l", str "w")]) := by
  have hv : filledHost.world.cache.Valid := by
    obtain ⟨ops, hops⟩ := run_world (vcDispatch openServer freshConn [str "SET", str "k", str "v"])
      (quietHost (newCache none 1))
    rw [filledHost, hops]
    exact run_valid (vcCreate_outcome (rfl : vcCreate none 1 = some (newCache none 1))).1 ops
  have hready : filledHost.Ready (str "l") :=
    ⟨⟨none, show filledHost.world.cache.copies (str "l") = 0 by decide +kernel⟩, by decide +kernel⟩
  have halong : (vcDispatch openServer freshConn [str "SET", str "l", str "w"]).Along hostExec Host.SetReady
      filledHost := by
    rw [vcDispatch_of_executed (executed_set (by decide) _), Calls.along_bind_pure]
    dsimp only
    rw [cmdSet_plain (by decide)]
    exact ⟨fun _ => hready, trivial⟩
  have hcmd : lookupCmd [str "SET", str "l", str "w"] = some WriteCmd.set.entry := rfl
  refine ⟨by decide +kernel, (success_iff_stored hcmd hv halong).mpr
    (.inl ⟨by decide +kernel, by decide, fun k v hv => ?_, by simp⟩)⟩
  obtain ⟨-, rfl⟩ := lastOf_one.mp hv
  decide

end Example

/-- `RENAME` deletes the key, is told that the empty name cannot be set, and answers `OK`. -/
theorem renamed_value_lost :
    let h := ((vcDispatch openServer freshConn [str "SET", str "k", str "v"]).run hostExec newHost).1
    let p := vcDispatch openServer freshConn [str "RENAME", str "k", []]
    (h.get (str "k")).2 = .ok (str "v") ∧ dispatchText (p.run hostExec h).2 = some respWriteOk ∧
      (∀ key ∈ [str "k", []], ((p.run hostExec h).1.get key).2 ≠ .ok (str "v")) ∧
      ∀ before wanted, ¬ Honest dispatchText p h before wanted := by
  intro h p
  have hreply : dispatchText (p.run hostExec h).2 = some respWriteOk := by decide +kernel
  have hfail : ¬ p.Along hostExec Host.SetSucceeds h := by decide +kernel
  refine ⟨by decide +kernel, hreply, by decide +kernel, fun before wanted hh => ?_⟩
  obtain ⟨⟨r, hr, herr⟩, -⟩ := hh.unchanged hfail
  rw [hreply, Option.some.injEq] at hr
  exact confirms_ok.1 (hr ▸ herr)


end VoidCache
