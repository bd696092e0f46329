import VoidCache.Cache.Recovery

/-!
# The order of the log and the order of the tables

Overlapping `vc_set` and `vc_del` calls on one key take two locks one after the other: the
log lock to append the record, and later the shard lock to change the table. A `Flight` is a
cache with the calls that are between the two. Once all calls are through, the table shows
the call that stored last and the log ends with the call that logged last; nothing in the
code makes them the same call.
-/
namespace VoidCache

/-- A call on the key at hand, without time to live. -/
inductive Call where
  | set (val : List UInt8) (env : Env)
  | del (env : Env)
  deriving DecidableEq

structure Flight where
  cache : Cache
  /-- Calls that have logged and not yet stored. -/
  pending : List Call

/-- One of the two atomic parts of a call. The clock is read with the shard lock held. -/
inductive Move where
  | log (call : Call)
  | store (call : Call) (now : Nat)

namespace Call

variable (key : List UInt8)

def req : Call → WalReq
  | set val env => setReq env key val 0
  | del env => delReq env key

def mutate (c : Cache) (now : Nat) : Call → Except VcErr Unit × Cache
  | set val env => vcSetStore c now env key val 0
  | del _ => vcDelStore c now key

/-- The call as a whole. -/
def op : Call → Op
  | set val env => .set key val 0 env
  | del env => .del key env

/-- Arguments that `vc_set` rejects never reach the log. -/
def Ok : Call → Prop
  | set val _ => Settable key val
  | del _ => True

/-- The value on record for the key once the call has logged; `none` for a delete. -/
def logged : Call → Option (List UInt8)
  | set val _ => some (clip32 val)
  | del _ => none

/-- The value in the table once the call has stored. -/
def stored : Call → Option (List UInt8)
  | set val _ => some (val.take valMax)
  | del _ => none

end Call

/-- Moves of any number of clients, all on `key`. -/
def flightStep (key : List UInt8) (s : Flight) : Move → Flight × Res
  | .log call => (⟨s.cache.log (call.req key), s.pending ++ [call]⟩, .none)
  | .store call now =>
    let r := call.mutate key s.cache now
    (⟨r.2, s.pending.erase call⟩, .done r.1)

/-- A call stores after it has logged. -/
def Proper (key : List UInt8) (s : Flight) : Move → Prop
  | .log call => call.Ok key
  | .store call _ => call ∈ s.pending

/-- Moves that raise no eviction counter. -/
def EvictsNone (key : List UInt8) (s : Flight) (mv : Move) : Prop :=
  ∀ si, si < numShards →
    ((flightStep key s mv).1.cache.shards si).evictions = (s.cache.shards si).evictions

/-- A set finds the memory and the room for its entry. -/
def Storable (key : List UInt8) (s : Flight) : Move → Prop
  | .store (.set val env) now => CanStore env s.cache.mem key val ∧ s.cache.HasRoom now key
  | _ => True

section Decidable

variable (key : List UInt8)

instance : (call : Call) → Decidable (call.Ok key)
  | .set val _ => inferInstanceAs (Decidable (Settable key val))
  | .del _ => isTrue trivial

instance (s : Flight) : (mv : Move) → Decidable (Proper key s mv)
  | .log call => inferInstanceAs (Decidable (call.Ok key))
  | .store call _ => inferInstanceAs (Decidable (call ∈ s.pending))

instance (s : Flight) (mv : Move) : Decidable (EvictsNone key s mv) :=
  inferInstanceAs (Decidable (∀ si, si < numShards → _))

instance (s : Flight) : (mv : Move) → Decidable (Storable key s mv)
  | .store (.set ..) _ => inferInstanceAs (Decidable (_ ∧ _))
  | .store (.del _) _ | .log _ => isTrue trivial

end Decidable

/-- A call that nothing overlaps is the sequential call. -/
theorem flightStep_sequential {key : List UInt8} {call : Call} (hok : call.Ok key) (c : Cache)
    (now : Nat) :
    let s := (flightStep key ⟨c, []⟩ (.log call)).1
    (flightStep key s (.store call now)).1 = ⟨(step ⟨c, now⟩ (call.op key)).1.cache, []⟩ ∧
      (flightStep key s (.store call now)).2 = (step ⟨c, now⟩ (call.op key)).2 := by
  cases call with
  | set val env =>
    have hset : Settable key val := hok
    simp [flightStep, step, vcSet_eq, hset, Call.mutate, Call.req, Call.op]
  | del env => simp [flightStep, step, vcDel, Call.mutate, Call.req, Call.op]

/-- The calls that have logged, in the order of their records. -/
def loggedCalls (mvs : List Move) : List Call :=
  mvs.filterMap fun
    | .log call => some call
    | .store _ _ => none

/-- The calls that have stored, in that order. -/
def storedCalls (mvs : List Move) : List Call :=
  mvs.filterMap fun
    | .log _ => none
    | .store call _ => some call

/-- What holds after the moves `mvs`, for a log that began with `reqs`. -/
structure InFlight (key : List UInt8) (file : Nat → UInt8) (reqs : List WalReq) (mvs : List Move)
    (s : Flight) : Prop where
  settled : s.cache.Settled
  wal : s.cache.wal =
    some (walRun (walInit file) (reqs ++ (loggedCalls mvs).map (Call.req key)))
  calls : (loggedCalls mvs : Multiset Call) = s.pending + storedCalls mvs
  ok : ∀ call ∈ s.pending, call.Ok key
  last : ∀ call, (storedCalls mvs).getLast? = some call →
    ∀ v, call.stored = some v ↔ s.cache.Stores key v

namespace InFlight

variable {key : List UInt8} {file : Nat → UInt8} {reqs : List WalReq} {mvs : List Move} {s : Flight}
  {call : Call}

theorem start {c : Cache} (hc : c.Settled) (hwal : c.wal = some (walRun (walInit file) reqs)) :
    InFlight key file reqs [] ⟨c, []⟩ where
  settled := hc
  wal := by simpa [loggedCalls] using hwal
  calls := rfl
  ok := by simp
  last := by simp [storedCalls]

theorem log (h : InFlight key file reqs mvs s) (hok : call.Ok key) :
    InFlight key file reqs (mvs ++ [.log call]) (flightStep key s (.log call)).1 := by
  have hl : loggedCalls (mvs ++ [.log call]) = loggedCalls mvs ++ [call] := by simp [loggedCalls]
  have hs : storedCalls (mvs ++ [.log call]) = storedCalls mvs := by simp [storedCalls]
  refine ⟨h.settled.log _, ?_, ?_, ?_, ?_⟩
  · show s.cache.wal.map _ = _
    rw [h.wal, hl]
    simp [walRun, List.foldl_append]
  · rw [hl, hs, ← Multiset.coe_add, h.calls]
    show _ = ((s.pending ++ [call] : List Call) : Multiset Call) + _
    rw [← Multiset.coe_add, add_right_comm]
  · intro c hc
    rcases List.mem_append.mp hc with hc | hc
    · exact h.ok c hc
    · rw [List.mem_singleton.mp hc]
      exact hok
  · rw [hs]
    exact h.last

/-- The table part of a call, by the kind of the call. -/
theorem mutate_stores (h : InFlight key file reqs mvs s) (hk : key.length < 2 ^ 32) {now : Nat}
    (hp : call ∈ s.pending) (hev : EvictsNone key s (.store call now))
    (hst : Storable key s (.store call now)) :
    (call.mutate key s.cache now).2.Settled ∧
      ∀ v, call.stored = some v ↔ (call.mutate key s.cache now).2.Stores key v := by
  cases call with
  | set val env =>
    obtain ⟨hcan, hroom⟩ := hst
    obtain ⟨hset, hself, _⟩ := vcSetStore_stores h.settled (h.ok _ hp) hcan hroom hev
    exact ⟨hset, hself⟩
  | del env =>
    obtain ⟨hset, hself, _⟩ := vcDelStore_stores h.settled hk now
    exact ⟨hset, hself⟩

theorem store (h : InFlight key file reqs mvs s) (hk : key.length < 2 ^ 32) {now : Nat}
    (hp : call ∈ s.pending) (hev : EvictsNone key s (.store call now))
    (hst : Storable key s (.store call now)) :
    InFlight key file reqs (mvs ++ [.store call now]) (flightStep key s (.store call now)).1 := by
  have hl : loggedCalls (mvs ++ [.store call now]) = loggedCalls mvs := by simp [loggedCalls]
  have hs : storedCalls (mvs ++ [.store call now]) = storedCalls mvs ++ [call] := by
    simp [storedCalls]
  obtain ⟨hsettled, hself⟩ := h.mutate_stores hk hp hev hst
  refine ⟨hsettled, ?_, ?_, fun c hc => h.ok c (List.mem_of_mem_erase hc), fun c hc => ?_⟩
  · have hwal : (call.mutate key s.cache now).2.wal = s.cache.wal := by
      cases call with
      | set val env => exact vcSetStore_wal _ _ _ _ _ _
      | del env => exact vcDelStore_wal _ _ _
    exact hwal.trans (hl ▸ h.wal)
  · have hperm : (s.pending : Multiset Call) = call ::ₘ (s.pending.erase call : List Call) :=
      Multiset.coe_eq_coe.mpr (List.perm_cons_erase hp)
    rw [hl, hs, h.calls, hperm, ← Multiset.coe_add]
    show call ::ₘ _ + _ = ((s.pending.erase call : List Call) : Multiset Call) + (_ + {call})
    rw [← Multiset.singleton_add]
    ac_rfl
  · rw [hs, List.getLast?_concat, Option.some.injEq] at hc
    exact hc ▸ hself

/-- Every interleaving keeps the invariant. -/
theorem run (h : InFlight key file reqs [] s) (hk : key.length < 2 ^ 32)
    (hrun : Machine.Along (flightStep key)
      (fun s mv => Proper key s mv ∧ EvictsNone key s mv ∧ Storable key s mv) s mvs) :
    InFlight key file reqs mvs (Machine.run (flightStep key) s mvs) := by
  have := Machine.trace_inv
    (I := fun tr s => InFlight key file reqs (tr.map Prod.fst) s)
    (fun tr s mv h hmv => by
      rw [List.map_append, List.map_singleton]
      cases mv with
      | log call => exact h.log hmv.1
      | store call now => exact h.store hk hmv.1 hmv.2.1 hmv.2.2)
    [] h hrun
  simpa using this

end InFlight

/-- The effect of the record is what the table shows for the key. -/
def LogRec.InTable (r : LogRec) (c : Cache) (key : List UInt8) : Prop :=
  r.op = walSet ∧ c.Stores key r.val ∨ r.op = walDel ∧ ∀ v, ¬ c.Stores key v

theorem inTable_iff {c : Cache} {key : List UInt8} {a b : Call}
    (hb : ∀ v, b.stored = some v ↔ c.Stores key v) (seq : Nat) :
    ((a.req key).logRec seq).InTable c key ↔ a.logged = b.stored := by
  have hop : walSet ≠ walDel := by decide
  cases a with
  | set val env => simp [LogRec.InTable, Call.req, setReq, WalReq.logRec, Call.logged, ← hb, hop, eq_comm]
  | del env =>
    simp only [LogRec.InTable, Call.req, delReq, WalReq.logRec, Call.logged, ← hb, hop.symm, false_and,
      true_and, false_or]
    exact ⟨fun h => (Option.eq_none_iff_forall_ne_some.mpr h).symm, fun h v hv => by simp [← h] at hv⟩

/-- Any number of calls on one key overlap, after any sequential run without time to live.
When all of them are through, and each set found memory and room and nothing was evicted, the
record with the highest number is one of theirs, and its effect is in the table exactly when
the call that logged last and the call that stored last give the key the same value. -/
theorem log_order_iff_memory_order {file : Nat → UInt8} {slots : UInt32} {c : Cache}
    (hc : vcCreate (some file) slots = some c) (now : Nat) (ops : List Op)
    (hops : ∀ op ∈ ops, op.NoTtl) (key : List UInt8) (hkey : key.length < 2 ^ 32) (mvs : List Move)
    (hrun : Machine.Along (flightStep key)
      (fun s mv => Proper key s mv ∧ EvictsNone key s mv ∧ Storable key s mv)
      ⟨(Machine.run step ⟨c, now⟩ ops).cache, []⟩ mvs)
    (hne : loggedCalls mvs ≠ [])
    (hfit : ∀ r ∈ ops.flatMap Op.logged ++ (loggedCalls mvs).map (Call.req key), r.Fits)
    (hlen : (ops.flatMap Op.logged ++ (loggedCalls mvs).map (Call.req key)).length ≤ 2 ^ 64) :
    let s := Machine.run (flightStep key) ⟨(Machine.run step ⟨c, now⟩ ops).cache, []⟩ mvs
    s.pending = [] →
    ∃ l recs r, s.cache.wal = some l ∧ walDecode l = some recs ∧ r ∈ recs ∧ r.key = key ∧
      (∀ x ∈ recs, x.seq ≤ r.seq) ∧
      (r.InTable s.cache key ↔
        (loggedCalls mvs).getLast?.map Call.logged = (storedCalls mvs).getLast?.map Call.stored) := by
  intro s hdone
  have hwal : (Machine.run step ⟨c, now⟩ ops).cache.wal =
      some (walRun (walInit file) (ops.flatMap Op.logged)) := by
    obtain ⟨cap, _, _, rfl⟩ := vcCreate_cases hc
    exact run_wal _ _
  have h := (InFlight.start (Fresh.run hc now hops).settled hwal).run hkey hrun
  -- the last call to log and the last call to store
  obtain ⟨a, ha⟩ := Option.ne_none_iff_exists'.mp (mt List.getLast?_eq_none_iff.mp hne)
  have hcalls := h.calls
  rw [hdone, Multiset.coe_nil, zero_add, Multiset.coe_eq_coe] at hcalls
  have hne' : storedCalls mvs ≠ [] := fun he => hne (List.Perm.eq_nil (he ▸ hcalls))
  obtain ⟨b, hb⟩ := Option.ne_none_iff_exists'.mp (mt List.getLast?_eq_none_iff.mp hne')
  have hlast : (ops.flatMap Op.logged ++ (loggedCalls mvs).map (Call.req key)).getLast? =
      some (a.req key) := by
    rw [List.getLast?_append, List.getLast?_map, ha]
    rfl
  obtain ⟨recs, hdec, hrec, hmax⟩ := walDecode_getLast file hfit hlast hlen
  refine ⟨_, recs, _, h.wal, hdec, List.mem_of_getLast? hrec, ?_, hmax, ?_⟩
  · cases a <;> exact clip32_of_lt hkey
  · rw [inTable_iff (h.last b hb), ha, hb, Option.map_some, Option.map_some, Option.some.injEq]

/-- Two overlapping sets that store in the order in which they logged. -/
theorem sets_in_log_order :
    let mvs : List Move := [.log (.set [1] calmEnv), .log (.set [2] calmEnv),
      .store (.set [1] calmEnv) 0, .store (.set [2] calmEnv) 0]
    let s := Machine.run (flightStep [97]) ⟨newCache (some fun _ => 0) 2, []⟩ mvs
    ∃ l recs r, s.cache.wal = some l ∧ walDecode l = some recs ∧ r ∈ recs ∧ r.key = [97] ∧
      (∀ x ∈ recs, x.seq ≤ r.seq) ∧
      (r.InTable s.cache [97] ↔
        (loggedCalls mvs).getLast?.map Call.logged = (storedCalls mvs).getLast?.map Call.stored) := by
  exact log_order_iff_memory_order
    (show vcCreate (some fun _ => 0) 2 = some (newCache (some fun _ => 0) 2) from rfl) 0 [] (by simp)
    [97] (by decide) _ (by decide +kernel) (by decide) (by decide) (by decide) (by decide +kernel)

/-- Two overlapping sets of `a`: the first to log is the last to store. No entry was evicted,
the log says `2` and the table says `1`. -/
theorem log_and_table_disagree :
    let mvs : List Move := [.log (.set [1] calmEnv), .log (.set [2] calmEnv),
      .store (.set [2] calmEnv) 0, .store (.set [1] calmEnv) 0]
    let s := Machine.run (flightStep [97]) ⟨newCache (some fun _ => 0) 2, []⟩ mvs
    vcCreate (some fun _ => 0) 2 = some (newCache (some fun _ => 0) 2) ∧
      Machine.Along (flightStep [97])
        (fun s mv => Proper [97] s mv ∧ EvictsNone [97] s mv ∧ Storable [97] s mv)
        ⟨newCache (some fun _ => 0) 2, []⟩ mvs ∧
      s.pending = [] ∧
      (s.cache.wal.bind walDecode).map (List.map fun r => (r.seq, r.op, r.key, r.val)) =
        some [(0, walSet, [97], [1]), (1, walSet, [97], [2])] ∧
      s.cache.Stores [97] [1] ∧ ¬ s.cache.Stores [97] [2] := by
  refine ⟨rfl, by decide +kernel, by decide +kernel, by decide +kernel, ?_⟩
  have hc : vcCreate (some fun _ => 0) 2 = some (newCache (some fun _ => 0) 2) := rfl
  have h : InFlight [97] (fun _ => 0) [] [.log (.set [1] calmEnv), .log (.set [2] calmEnv),
      .store (.set [2] calmEnv) 0, .store (.set [1] calmEnv) 0] _ :=
    InFlight.run (InFlight.start (Fresh.create hc 0).settled rfl) (by decide) (by decide +kernel)
  have hlast := h.last (.set [1] calmEnv) rfl
  exact ⟨(hlast [1]).mp rfl, fun h2 => by simpa [Call.stored, valMax] using (hlast [2]).mpr h2⟩

end VoidCache
