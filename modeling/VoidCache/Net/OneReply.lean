import VoidCache.Net.Behaviour

/-!
# One reply for each request

Every command of the table is answered with exactly one RESP value, except for the counters,
which answer twice, and for `KEYS` and `SCAN`, which use memory they did not get.
-/
namespace VoidCache

/-! ## The handlers that may not -/

section Exceptions

variable {srv : Srv} {conn : Conn} {argv : List (List UInt8)} {h : Host}

theorem Replies.run {P : HostReq → Prop} {p : Prog (Option Answer)} (hp : Replies P conn p)
    (h : Host) : OneValue (p.run hostExec h).2 :=
  (Calls.result_meets hp hostExec h).1

theorem oneValue_err {code msg : String} (hfits : FitsLine (str code) (str msg)) :
    OneValue ((conn.err code msg).run hostExec h).2 := by
  have herr : Speaks true AnyCall conn (conn.err code msg) := .err hfits
  exact herr.replies.run h

/-- A guard either lets the body run or answers with one error. -/
theorem oneValue_guarded {acl : UInt32} {p : Prog (Option Answer)} :
    OneValue ((guarded srv conn acl p).run hostExec h).2 ↔
      (needAuth srv conn acl = none → OneValue (p.run hostExec h).2) := by
  cases hn : needAuth srv conn acl with
  | none => simp [guarded, hn]
  | some e =>
    have hbody : Speaks true AnyCall conn (guarded srv conn acl conn.ok) := .guarded .ok
    have heq : guarded srv conn acl p = guarded srv conn acl conn.ok := by simp [guarded, hn]
    rw [heq]
    exact ⟨fun _ hnone => absurd hnone (by simp), fun _ => hbody.replies.run h⟩

theorem oneValue_argcCheck {mn mx : Nat} {p : Prog (Option Answer)} :
    OneValue ((argcCheck conn argv mn mx p).run hostExec h).2 ↔
      (mn ≤ argv.length - 1 ∧ argv.length - 1 ≤ mx → OneValue (p.run hostExec h).2) := by
  unfold argcCheck
  split
  · rename_i hbad
    exact ⟨fun _ hgood => absurd hgood (by omega), fun _ => oneValue_err (by decide)⟩
  · rename_i hgood
    exact ⟨fun hp _ => hp, fun hp => hp (by omega)⟩

/-- A counter that gets through its checks answers twice, whatever its calls return. -/
theorem oneValue_incrby (delta : Int) :
    OneValue ((cmdIncrby srv conn argv delta).run hostExec h).2 ↔
      ¬ (needAuth srv conn vcAclWrite = none ∧ 1 ≤ argv.length - 1 ∧ argv.length - 1 ≤ 2) := by
  rw [cmdIncrby, oneValue_guarded, not_and, oneValue_argcCheck]
  refine imp_congr_right fun _ => imp_congr_right fun _ => iff_of_false ?_ (by simp)
  refine Calls.result_meets (P := AnyCall) (Q := fun o => ¬ OneValue o) ?_ hostExec h
  refine .ask_bind trivial fun r => .ask_bind trivial fun _ => ?_
  show ¬ RespValue _
  rw [respWriteVcInt64, respWriteVcTyped_eq]
  exact not_respValue_bulk_append _ (by simp [respWriteInteger])

/-- One of the keys cannot be copied, each copy being one allocation. -/
def CopyFails (h : Host) (keys : List (List UInt8)) : Prop :=
  ∃ i k, keys[i]? = some k ∧ (h.envs (h.calls + i)).mallocOk ((cstr k).length + 1) = false

theorem copyFails_cons (k : List UInt8) (keys : List (List UInt8)) :
    CopyFails h (k :: keys) ↔
      (h.envs h.calls).mallocOk ((cstr k).length + 1) = false ∨ CopyFails h.allocated keys := by
  constructor
  · rintro ⟨_ | i, k', hk, hfail⟩
    · cases hk
      exact .inl hfail
    · refine .inr ⟨i, k', hk, ?_⟩
      rwa [Host.allocated_calls, Nat.add_assoc, Nat.add_comm 1]
  · rintro (hfail | ⟨i, k', hk, hfail⟩)
    · exact ⟨0, k, rfl, hfail⟩
    · refine ⟨i + 1, k', hk, ?_⟩
      rwa [Host.allocated_calls, Nat.add_assoc, Nat.add_comm 1] at hfail

theorem run_copyKey (k : List UInt8) :
    ((copyKey k).run hostExec h).1 = h.allocated ∧
      (((copyKey k).run hostExec h).2 = none ↔
        (h.envs h.calls).mallocOk ((cstr k).length + 1) = false) := by
  rw [copyKey, run_callMalloc]
  cases (h.envs h.calls).mallocOk ((cstr k).length + 1) with
  | false => simp
  | true =>
    simp only [Bool.not_true, Bool.false_eq_true, if_false]
    split <;> simp

theorem copyKeys_fails (keys : List (List UInt8)) :
    ((copyKeys keys).run hostExec h).2 = none ↔ CopyFails h keys := by
  induction keys generalizing h with
  | nil => simp [copyKeys, CopyFails]
  | cons k keys ih =>
    obtain ⟨hsame, hnone⟩ := run_copyKey (h := h) k
    rw [copyKeys, Calls.run_bind, hsame, Calls.run_bind, copyFails_cons, ← hnone, ← ih, run_pure]
    cases ((copyKey k).run hostExec h).2 <;>
      cases ((copyKeys keys).run hostExec h.allocated).2 <;> simp

/-- Either a key could not be copied, and the handler crashes, or it answers with the copies. -/
theorem oneValue_answerKeys {keys : List (List UInt8)} {reply : List (List UInt8) → List UInt8}
    (hreply : ∀ copies, RespValue (reply copies)) :
    OneValue ((answerKeys conn keys reply).run hostExec h).2 ↔ ¬ CopyFails h keys := by
  rw [answerKeys, Calls.run_bind, ← copyKeys_fails keys]
  cases ((copyKeys keys).run hostExec h).2 with
  | none => simp [OneValue]
  | some copies => simpa [OneValue, Conn.answer] using hreply copies

theorem bulks_value (resp3 : Bool) (copies : List (List UInt8)) :
    RespVersion resp3 (respWriteArrayHeader copies.length ++ (copies.map respWriteBulk).flatten) :=
  respWriteArrayHeader_value (by simp) (List.forall_mem_map.mpr fun k _ => respWriteBulk_value k)

/-- The next two allocations are both of this size and succeed. -/
def Host.TwoArrays (h : Host) (size : Nat) : Prop :=
  (h.envs h.calls).mallocOk size = true ∧ (h.envs (h.calls + 1)).mallocOk size = true

/-- `KEYS` has its arrays, but a key cannot be copied. -/
def KeysCrash (h : Host) : Prop :=
  h.TwoArrays (maxKeys * 8) ∧ CopyFails h.allocated.allocated (collectKeys h.world.cache.slotKeys)

theorem oneValue_keys :
    OneValue ((cmdKeys srv conn argv).run hostExec h).2 ↔
      ¬ (needAuth srv conn vcAclRead = none ∧ argv.length - 1 = 1 ∧ KeysCrash h) := by
  rw [cmdKeys, oneValue_guarded, not_and, oneValue_argcCheck]
  refine imp_congr_right fun _ => ?_
  rw [not_and, Nat.le_antisymm_iff, and_comm]
  refine imp_congr_right fun _ => ?_
  rw [run_callMalloc, run_callMalloc, KeysCrash, Host.TwoArrays, Host.allocated_envs,
    Host.allocated_calls]
  by_cases hok : (h.envs h.calls).mallocOk (maxKeys * 8) = true ∧
      (h.envs (h.calls + 1)).mallocOk (maxKeys * 8) = true
  · rw [if_neg (by simp [hok]), run_callTables]
    simp only [hok, and_self, true_and]
    exact oneValue_answerKeys fun copies => (bulks_value true copies).value
  · rw [if_pos (by simpa [or_iff_not_imp_left] using hok)]
    simpa [hok] using oneValue_err (by decide)

/-- `SCAN` has a key to store, but not the arrays, or no copy of it. -/
def ScanCrash (h : Host) (argv : List (List UInt8)) : Prop :=
  let keys := (scanReply h.world.cache.slotKeys argv).1
  keys ≠ [] ∧ (¬ h.TwoArrays (scanCount (argv.drop 2) 10 * 8 % 2 ^ 64).toNat ∨
    CopyFails h.allocated.allocated keys)

theorem scan_value (resp3 : Bool) (next : Nat) (copies : List (List UInt8)) :
    RespVersion resp3 (respWriteArrayHeader 2 ++ respWriteBulk (decimal next) ++
      respWriteArrayHeader copies.length ++ (copies.map respWriteBulk).flatten) := by
  have hparts := List.forall_mem_cons.mpr
    ⟨respWriteBulk_value (decimal next), List.forall_mem_singleton.mpr (bulks_value resp3 copies)⟩
  simpa using respWriteArrayHeader_value (n := 2) rfl hparts

theorem oneValue_scan :
    OneValue ((cmdScan srv conn argv).run hostExec h).2 ↔
      ¬ (needAuth srv conn vcAclRead = none ∧ ScanCrash h argv) := by
  rw [cmdScan, oneValue_guarded, not_and]
  refine imp_congr_right fun _ => ?_
  rw [run_callMalloc, run_callMalloc, run_callTables, ScanCrash, Host.TwoArrays, Host.allocated_envs,
    Host.allocated_calls, Host.allocated_world, Host.allocated_world]
  generalize (scanCount (argv.drop 2) 10 * 8 % 2 ^ 64).toNat = size
  obtain ⟨keys, next⟩ := scanReply h.world.cache.slotKeys argv
  have hcopy : OneValue ((answerKeys conn keys _).run hostExec h.allocated.allocated).2 ↔
      ¬ CopyFails h.allocated.allocated keys :=
    oneValue_answerKeys fun copies => (scan_value true next copies).value
  have hne : CopyFails h.allocated.allocated keys → keys ≠ [] := by
    rintro ⟨i, k, hk, -⟩ rfl
    cases hk
  by_cases hok : (h.envs h.calls).mallocOk size = true ∧ (h.envs (h.calls + 1)).mallocOk size = true
  · simp only [hok, Bool.not_true, Bool.or_self, Bool.false_eq_true, and_false, if_false, hcopy,
      and_self, not_true_eq_false, false_or, not_and]
    exact ⟨fun hc _ => hc, fun hc hf => hc (hne hf) hf⟩
  · have hbad : ((!(h.envs h.calls).mallocOk size || !(h.envs (h.calls + 1)).mallocOk size) = true) := by
      simpa [or_iff_not_imp_left] using hok
    by_cases hk : keys = []
    · subst hk
      simp only [ne_eq, not_true_eq_false, false_and, if_false, hcopy, not_false_eq_true, iff_true]
      exact fun hf => hne hf rfl
    · simp [hk, hok, hbad, OneValue]

end Exceptions

/-! ## Dispatch -/

section Dispatch

variable {srv : Srv} {conn : Conn} {argv : List (List UInt8)} {h : Host}

/-- `vc_dispatch` comes back, having appended exactly one value. -/
def OneReply (o : Option Dispatched) : Prop := ∃ d, o = some d ∧ RespValue d.answer.reply

/-- The table entry of the command has this name. -/
def Runs (argv : List (List UInt8)) (name : String) : Prop :=
  ∃ e, lookupCmd argv = some e ∧ e.name = name

/-- A counter that gets through its checks. -/
def CounterRuns (srv : Srv) (conn : Conn) (argv : List (List UInt8)) : Prop :=
  (∃ name ∈ ["INCR", "DECR", "INCRBY", "DECRBY"], Runs argv name) ∧
    needAuth srv conn vcAclWrite = none ∧ 1 ≤ argv.length - 1 ∧ argv.length - 1 ≤ 2

/-- A list of keys that uses memory it did not get. -/
def KeyListCrashes (srv : Srv) (conn : Conn) (argv : List (List UInt8)) (h : Host) : Prop :=
  needAuth srv conn vcAclRead = none ∧
    (Runs argv "KEYS" ∧ argv.length - 1 = 1 ∧ KeysCrash h ∨ Runs argv "SCAN" ∧ ScanCrash h argv)

/-- A command of the table is answered with one value if the guard of the table denies it or
its handler appends one value. -/
theorem oneReply_of_lookup {e : CmdEntry} (hargv : argv ≠ []) (he : lookupCmd argv = some e) :
    OneReply ((vcDispatch srv conn argv).run hostExec h).2 ↔
      ((if e.aclNeeded ≠ 0 then needAuth srv conn e.aclNeeded else none) = none →
        OneValue ((e.fn srv conn argv).run hostExec h).2) := by
  rw [vcDispatch, if_neg hargv, he]
  dsimp only
  cases hg : (if e.aclNeeded ≠ 0 then needAuth srv conn e.aclNeeded else none) with
  | some denied =>
    have hdenied : needAuth srv conn e.aclNeeded = some denied := by
      split_ifs at hg
      exact hg
    simpa [OneReply] using (needAuth_value true hdenied).value
  | none =>
    rw [Calls.run_bind]
    cases ((e.fn srv conn argv).run hostExec h).2 with
    | none => simp [OneReply, OneValue]
    | some a => simp [OneReply, OneValue]

theorem runs_iff {e : CmdEntry} (he : lookupCmd argv = some e) (name : String) :
    Runs argv name ↔ e.name = name := by
  simp [Runs, he]

/-- A command is answered with exactly one value, unless it is a counter that gets through its
checks, or a list of keys without the memory for it. -/
theorem one_request_one_reply (hargv : argv ≠ []) :
    OneReply ((vcDispatch srv conn argv).run hostExec h).2 ↔
      ¬ CounterRuns srv conn argv ∧ ¬ KeyListCrashes srv conn argv h := by
  cases he : lookupCmd argv with
  | none =>
    have hnone (name : String) : ¬ Runs argv name := by simp [Runs, he]
    have hvalue : RespVersion true (respWriteError (str "ERR")
        (str "unknown command — see https://voidcache.io/commands")) :=
      respWriteError_value (by decide) (by decide) (by decide)
    simpa [CounterRuns, KeyListCrashes, hnone, vcDispatch, hargv, he, OneReply] using hvalue.value
  | some e =>
    rw [oneReply_of_lookup hargv he]
    simp only [CounterRuns, KeyListCrashes, runs_iff he]
    cases kind_of_mem e (List.mem_of_find?_eq_some he) with
    | counter delta hname hacl hfn =>
      have hkeys : e.name ≠ "KEYS" ∧ e.name ≠ "SCAN" := by
        constructor <;> (rintro h0; rw [h0] at hname; revert hname; decide)
      rw [hfn, oneValue_incrby, hacl, if_pos (by decide)]
      simp [hkeys, hname]
    | keys hname hacl hfn =>
      rw [hfn, oneValue_keys, hacl, if_pos (by decide)]
      simp [hname]
    | scan hname hacl hfn =>
      rw [hfn, oneValue_scan, hacl, if_pos (by decide)]
      simp [hname]
    | other hname hfn =>
      simp only [List.mem_cons, not_or] at hname
      obtain ⟨conn', -, hr⟩ := hfn srv conn argv
      have hvalue := hr.run h
      simp [hname, hvalue]

end Dispatch

theorem lookup_name {argv : List (List UInt8)} {name name' : String}
    (h : (lookupCmd argv).map (·.name) = some name) : Runs argv name' ↔ name = name' := by
  obtain ⟨e, he, rfl⟩ := Option.map_eq_some_iff.mp h
  exact runs_iff he name'

theorem get_answered_once :
    OneReply ((vcDispatch openServer freshConn [str "GET", str "k"]).run hostExec
      (quietHost (newCache none 8))).2 := by
  have hget : (lookupCmd [str "GET", str "k"]).map (·.name) = some "GET" := by decide
  refine (one_request_one_reply (by decide)).mpr ⟨?_, ?_⟩
  · simp [CounterRuns, lookup_name hget]
  · simp [KeyListCrashes, lookup_name hget]

/-- `INCR` answers with a typed integer and then with a plain one. -/
theorem incr_answered_twice :
    let d := ((vcDispatch openServer freshConn [str "INCR", str "k"]).run hostExec
      (quietHost (newCache none 8))).2
    d.map (·.answer.reply) =
        some (str "$13\r\n*VC1i" ++ [1, 0, 0, 0, 0, 0, 0, 0] ++ str "\r\n:1\r\n") ∧
      ¬ OneReply d := by
  intro d
  have hreply : d.map (·.answer.reply) =
      some (respWriteBulk (str "*VC1i" ++ [1, 0, 0, 0, 0, 0, 0, 0]) ++ respWriteInteger 1) := by
    decide +kernel
  refine ⟨by rw [hreply]; decide +kernel, ?_⟩
  rintro ⟨a, ha, hvalue⟩
  rw [ha, Option.map_some, Option.some.injEq] at hreply
  rw [hreply] at hvalue
  exact not_respValue_bulk_append _ (by decide) hvalue

end VoidCache
