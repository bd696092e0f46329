import VoidCache.Lib.Evaluates
import VoidCache.Net.Capacity
import VoidCache.Net.SetNx
import VoidCache.Net.Wire

/-!
# Commands as queries on a map

`Query` are the commands on keys as a client means them, and `Query.apply` says what they mean: the
map after the query, and the reply. The handlers do no more and no less (`Query.dispatch_eq`), in a
cache that has room for all keys: `Host.Roomy` holds of it at the start, and every call that a
query makes keeps it.
-/
namespace VoidCache

inductive Query where
  | ping
  | get (key : List UInt8)
  | set (key val : List UInt8)
  | setNx (key val : List UInt8)
  | setXx (key val : List UInt8)
  | del (key : List UInt8) (keys : List (List UInt8))
  | count (key : List UInt8) (keys : List (List UInt8))
  | mget (key : List UInt8) (keys : List (List UInt8))
  | mset (pair : List UInt8 × List UInt8) (pairs : List (List UInt8 × List UInt8))
  | incr (key : List UInt8)
  | decr (key : List UInt8)
  | rename (key new : List UInt8)
  | flush
  deriving DecidableEq

inductive Reply where
  | pong
  | done
  | null
  | value (val : List UInt8)
  | number (n : Nat)
  | values (vals : List (Option (List UInt8)))
  | counter (n : Int)
  | noSuchKey
  deriving DecidableEq

/-- The reply as it is written in either version of the protocol. -/
def Reply.text (resp3 : Bool) : Reply → List UInt8
  | pong => respWriteSimple (str "PONG")
  | done => respWriteOk
  | null => respWriteNullCompat resp3
  | value val => respWriteBulk val
  | number n => respWriteInteger n
  | values vals =>
    respWriteArrayHeader vals.length ++ vals.flatMap fun o => o.elim (respWriteNullCompat resp3) respWriteBulk
  -- the typed integer first, then the plain one
  | counter n => respWriteVcInt64 n ++ respWriteInteger n
  | noSuchKey => respWriteError (str "ERR") (str "no such key")

/-! ## What a query means -/

namespace KvMap

def without (m : KvMap) (keys : List (List UInt8)) : KvMap := fun k => if k ∈ keys then none else m k

/-- The keys among the given ones that are there, each of them once. -/
def present (m : KvMap) (keys : List (List UInt8)) : Finset (List UInt8) :=
  keys.toFinset.filter fun k => (m k).isSome

def put (m : KvMap) (pairs : List (List UInt8 × List UInt8)) : KvMap :=
  pairs.foldl (fun m p => Function.update m p.1 (some p.2)) m

def bump (m : KvMap) (key : List UInt8) (delta : Int) : KvMap × Reply :=
  let n := addInt64 (kvCounter m key) delta
  (Function.update m key (some (counterBytes n)), .counter n)

end KvMap

def Query.apply (m : KvMap) : Query → KvMap × Reply
  | ping => (m, .pong)
  | get key => (m, (m key).elim .null .value)
  | set key val => (Function.update m key (some val), .done)
  | setNx key val => if (m key).isSome then (m, .null) else (Function.update m key (some val), .done)
  | setXx key val => if (m key).isSome then (Function.update m key (some val), .done) else (m, .null)
  | del key keys => (m.without (key :: keys), .number (m.present (key :: keys)).card)
  -- a key that is named twice counts twice
  | count key keys => (m, .number ((key :: keys).countP fun k => (m k).isSome))
  | mget key keys => (m, .values ((key :: keys).map m))
  | mset pair pairs => (m.put (pair :: pairs), .done)
  | incr key => m.bump key 1
  | decr key => m.bump key (-1)
  | rename key new =>
    match m key with
    | none => (m, .noSuchKey)
    | some val => (Function.update (Function.update m key none) new (some val), .done)
  | flush => (fun _ => none, .done)

/-! ## How a query is sent -/

def Query.args : Query → List (List UInt8)
  | ping => [str "PING"]
  | get key => [str "GET", key]
  | set key val => [str "SET", key, val]
  | setNx key val => [str "SET", key, val, str "NX"]
  | setXx key val => [str "SET", key, val, str "XX"]
  | del key keys => str "DEL" :: key :: keys
  | count key keys => str "EXISTS" :: key :: keys
  | mget key keys => str "MGET" :: key :: keys
  | mset pair pairs => str "MSET" :: (pair :: pairs).flatMap fun p => [p.1, p.2]
  | incr key => [str "INCR", key]
  | decr key => [str "DECR", key]
  | rename key new => [str "RENAME", key, new]
  | flush => [str "FLUSHDB"]

def Query.entry : Query → CmdEntry
  | ping => ⟨"PING", cmdPing, 0⟩
  | get _ => ⟨"GET", cmdGet, vcAclRead⟩
  | set .. | setNx .. | setXx .. => ⟨"SET", cmdSet, vcAclWrite⟩
  | del .. => ⟨"DEL", cmdDel, vcAclWrite⟩
  | count .. => ⟨"EXISTS", cmdExists, vcAclRead⟩
  | mget .. => ⟨"MGET", cmdMget, vcAclRead⟩
  | mset .. => ⟨"MSET", cmdMset, vcAclWrite⟩
  | incr _ => ⟨"INCR", cmdIncr, vcAclWrite⟩
  | decr _ => ⟨"DECR", cmdDecr, vcAclWrite⟩
  | rename .. => ⟨"RENAME", cmdRename, vcAclWrite⟩
  | flush => ⟨"FLUSHDB", cmdFlushdb, vcAclAdmin⟩

theorem Query.lookup_args (q : Query) : lookupCmd q.args = some q.entry := by
  cases q <;> rfl

/-- The keys that a query may store something under. -/
def Query.targets : Query → List (List UInt8)
  | set key _ | setNx key _ | setXx key _ | incr key | decr key => [key]
  | mset pair pairs => (pair :: pairs).map Prod.fst
  | rename _ new => [new]
  | _ => []

/-- The lengths of the values that it brings along. -/
def Query.sizes : Query → List Nat
  | set _ val | setNx _ val | setXx _ val => [val.length]
  | mset pair pairs => (pair :: pairs).map fun p => p.2.length
  -- a typed integer
  | incr _ | decr _ => [13]
  | _ => []

/-- A query that is read as it was meant, for a cache with room for the keys `K` and for values of
`L` bytes. -/
structure Query.Fits (K : Finset (List UInt8)) (L : Nat) (q : Query) : Prop where
  args : q.args.length ≤ vcMaxArgs
  lengths : ∀ a ∈ q.args, a.length ≤ vcMaxInlineArg
  plain : ∀ a ∈ q.args, hasTypeHeader a = false
  targets : ∀ k ∈ q.targets, k ∈ K ∧ 0 < k.length
  sizes : ∀ n ∈ q.sizes, 0 < n ∧ n ≤ L

/-! ## The calls of a query -/

section Calls

variable {K : Finset (List UInt8)} {L : Nat} {h : Host} {m m' : KvMap} {a : HostReq}

/-- The calls that such a cache answers as a map does. -/
def HostReq.Fits (K : Finset (List UInt8)) (L : Nat) : HostReq → Prop
  | .get key => key.length < 2 ^ 32
  | .set key val ttlSec => key ∈ K ∧ Settable key val ∧ val.length ≤ L ∧ ttlSec = 0
  | .del key => key.length < 2 ^ 32
  | .flush => True
  | .malloc _ => True
  | _ => False

/-- There is room for all keys, and `malloc` does not fail. -/
structure Host.Roomy (K : Finset (List UInt8)) (L : Nat) (h : Host) : Prop where
  ample : Ample K L h.world
  stores : ∀ n, (h.envs n).env.mallocOk = true
  allocates : ∀ n size, (h.envs n).mallocOk size = true

theorem HostReq.Fits.ops (ha : a.Fits K L) (hr : h.Roomy K L) : ∀ op ∈ h.ops a, op.Fits K L := by
  cases a with
  | get key => simpa [Host.ops, Op.Fits] using show key.length < 2 ^ 32 from ha
  | set key val ttlSec =>
    obtain ⟨hkey, hset, hlen, httl⟩ := ha
    simp [Host.ops, Op.Fits, hkey, hset, hlen, httl, hr.stores]
  | del key => simpa [Host.ops, Op.Fits] using show key.length < 2 ^ 32 from ha
  | _ => simp [Host.ops, Op.Fits]

theorem Host.Roomy.exec (hr : h.Roomy K L) (ha : a.Fits K L) : (hostExec h a).1.Roomy K L := by
  have henvs : (hostExec h a).1.envs = h.envs := by cases a <;> rfl
  refine ⟨?_, by simpa [henvs] using hr.stores, by simpa [henvs] using hr.allocates⟩
  rw [hostExec_world]
  exact hr.ample.run (ha.ops hr)

theorem Host.Roomy.reflects (hr : h.Roomy K L) (hm : h.world.cache.Reflects m) (ha : a.Fits K L) :
    (kvExec m a).2 = (hostExec h a).2 ∧ (hostExec h a).1.world.cache.Reflects (kvExec m a).1 := by
  have hcalm (key : List UInt8) : h.world.cache.Unshadowed h.time key := hr.ample.unshadowed _ key
  cases a with
  | get key =>
    obtain ⟨hans, hnext⟩ := get_reflects hm ha (hcalm key)
    exact ⟨hans.symm, hnext⟩
  | set key val ttlSec =>
    obtain ⟨-, -, hlen, -⟩ := ha
    obtain ⟨hans, hnext⟩ := @set_reflects h m key val ttlSec hm ⟨hcalm key, hr.ample.below⟩
      fun _ => hr.ample.canStore hlen (hr.stores _)
    exact ⟨hans.symm, hnext⟩
  | del key =>
    obtain ⟨hans, hnext⟩ := del_reflects hm ha (hcalm key)
    exact ⟨hans.symm, hnext⟩
  | flush =>
    refine ⟨rfl, ?_⟩
    simp only [hostExec, kvExec, Host.withCache, Host.advance]
    exact hr.ample.flush_reflects
  | malloc size => exact ⟨(hr.allocates _ size).symm, hm⟩
  | _ => exact ha.elim

/-- The host holds the map, and has room for more. -/
def Keeps (K : Finset (List UInt8)) (L : Nat) (m : KvMap) (h : Host) : Prop :=
  h.Roomy K L ∧ h.world.cache.Reflects m

theorem Keeps.exec (m : KvMap) (h : Host) (a : HostReq) (hm : Keeps K L m h) (ha : a.Fits K L) :
    (kvExec m a).2 = (hostExec h a).2 ∧ Keeps K L (kvExec m a).1 (hostExec h a).1 := by
  obtain ⟨hans, hnext⟩ := hm.1.reflects hm.2 ha
  exact ⟨hans, hm.1.exec ha, hnext⟩

/-- On the map `m` the program returns `r` and leaves `m'`, by calls that fit. -/
abbrev Does (K : Finset (List UInt8)) (L : Nat) {R : Type} (p : Prog R) (m m' : KvMap) (r : R) : Prop :=
  p.Evaluates kvExec (fun _ => HostReq.Fits K L) m m' r

namespace Does

variable {R : Type} {key val : List UInt8} {r : R}

theorem get {f : Except VcErr (List UInt8) → Prog R} (hk : key.length < 2 ^ 32)
    (hf : Does K L (f (lookupResult (m key))) m m' r) : Does K L (callGet key >>= f) m m' r :=
  .ask_bind hk hf

theorem set {f : Except VcErr Unit → Prog R} (hkey : key ∈ K) (hset : Settable key val)
    (hlen : val.length ≤ L) (hL : L ≤ valMax)
    (hf : Does K L (f (.ok ())) (Function.update m key (some val)) m' r) :
    Does K L (callSet key val 0 >>= f) m m' r := by
  have hstored : kvSet m key val = Function.update m key (some val) := by
    rw [kvSet, if_pos hset, List.take_of_length_le (hlen.trans hL)]
  refine .ask_bind ⟨hkey, hset, hlen, rfl⟩ ?_
  show Does K L (f (if Settable key val then .ok () else .error .inval)) (kvSet m key val) m' r
  rwa [if_pos hset, hstored]

theorem del {f : Except VcErr Unit → Prog R} (hk : key.length < 2 ^ 32)
    (hf : Does K L (f (if (m key).isSome then .ok () else .error .notFnd))
      (Function.update m key none) m' r) : Does K L (callDel key >>= f) m m' r :=
  .ask_bind hk hf

theorem malloc {f : Bool → Prog R} {size : Nat} (hf : Does K L (f true) m m' r) :
    Does K L (callMalloc size >>= f) m m' r :=
  .ask_bind trivial hf

theorem flush {f : Unit → Prog R} (hf : Does K L (f ()) (fun _ => none) m' r) :
    Does K L (callFlush >>= f) m m' r :=
  .ask_bind trivial hf

theorem answer (conn : Conn) (reply : List UInt8) :
    Does K L (conn.answer reply) m m (some ⟨conn, reply⟩) :=
  .pure _ m

end Does

end Calls

/-! ## The handlers -/

section Loops

variable {K : Finset (List UInt8)} {L : Nat} {m : KvMap} {keys : List (List UInt8)}

theorem KvMap.without_cons (m : KvMap) (key : List UInt8) (keys : List (List UInt8)) :
    m.without (key :: keys) = KvMap.without (Function.update m key none) keys := by
  funext k
  by_cases hk : k = key <;> simp [KvMap.without, hk]

theorem KvMap.card_present_cons (m : KvMap) (key : List UInt8) (keys : List (List UInt8)) :
    (m.present (key :: keys)).card =
      (if (m key).isSome then 1 else 0) + (KvMap.present (Function.update m key none) keys).card := by
  have herase : KvMap.present (Function.update m key none) keys = (m.present (key :: keys)).erase key := by
    ext k
    by_cases hk : k = key <;> simp [KvMap.present, hk]
  rw [herase]
  by_cases hkey : (m key).isSome = true
  · have hmem : key ∈ m.present (key :: keys) := by simp [KvMap.present, hkey]
    rw [if_pos hkey, add_comm, Finset.card_erase_add_one hmem]
  · have hnot : key ∉ m.present (key :: keys) := by simp [KvMap.present, hkey]
    rw [if_neg hkey, zero_add, Finset.erase_eq_of_notMem hnot]

theorem does_countDel (hkeys : ∀ k ∈ keys, k.length < 2 ^ 32) (n : Nat) :
    Does K L (countOk callDel keys n) m (m.without keys) (n + (m.present keys).card) := by
  induction keys generalizing m n with
  | nil =>
    have hnone : m.without [] = m := funext fun k => by simp [KvMap.without]
    rw [hnone]
    exact .pure n m
  | cons key keys ih =>
    obtain ⟨hkey, hkeys⟩ := List.forall_mem_cons.mp hkeys
    refine .del hkey ?_
    have hrest := ih (m := Function.update m key none) hkeys (if (m key).isSome then n + 1 else n)
    have hok : (if (m key).isSome then .ok () else .error .notFnd : Except VcErr Unit).isOk =
        (m key).isSome := by
      cases m key <;> rfl
    have hcount : (if (m key).isSome then n + 1 else n) +
        (KvMap.present (Function.update m key none) keys).card = n + (m.present (key :: keys)).card := by
      rw [KvMap.card_present_cons]
      split_ifs <;> omega
    rw [hcount, ← KvMap.without_cons] at hrest
    rwa [hok]

theorem does_countGet (hkeys : ∀ k ∈ keys, k.length < 2 ^ 32) (n : Nat) :
    Does K L (countOk callGet keys n) m m (n + keys.countP fun k => (m k).isSome) := by
  induction keys generalizing n with
  | nil => exact .pure n m
  | cons key keys ih =>
    obtain ⟨hkey, hkeys⟩ := List.forall_mem_cons.mp hkeys
    refine .get hkey ?_
    have hrest := ih hkeys (if (m key).isSome then n + 1 else n)
    have hcount : (if (m key).isSome then n + 1 else n) + keys.countP (fun k => (m k).isSome) =
        n + (key :: keys).countP fun k => (m k).isSome := by
      rw [List.countP_cons]
      split_ifs <;> omega
    rw [hcount] at hrest
    rwa [isOk_lookupResult]

theorem does_mgetParts (resp3 : Bool) (hkeys : ∀ k ∈ keys, k.length < 2 ^ 32) :
    Does K L (mgetParts resp3 keys) m m
      (keys.map fun k => (m k).elim (respWriteNullCompat resp3) respWriteBulk) := by
  induction keys with
  | nil => exact .pure _ m
  | cons key keys ih =>
    obtain ⟨hkey, hkeys⟩ := List.forall_mem_cons.mp hkeys
    refine .get hkey (.bind (ih hkeys) ?_)
    rw [List.map_cons]
    cases m key <;> exact .pure _ m

theorem does_msetLoop (hL : L ≤ valMax) {pairs : List (List UInt8 × List UInt8)}
    (hpairs : ∀ p ∈ pairs, p.1 ∈ K ∧ Settable p.1 p.2 ∧ p.2.length ≤ L) :
    Does K L (msetLoop (pairs.flatMap fun p => [p.1, p.2])) m (m.put pairs) () := by
  induction pairs generalizing m with
  | nil => exact .pure () m
  | cons p pairs ih =>
    obtain ⟨⟨hkey, hset, hlen⟩, hpairs⟩ := List.forall_mem_cons.mp hpairs
    exact .set hkey hset hlen hL (ih hpairs)

end Loops

/-- All values have at least one byte, and at most `L`. -/
def KvMap.Sized (L : Nat) (m : KvMap) : Prop := ∀ k v, m k = some v → 0 < v.length ∧ v.length ≤ L

section Handlers

variable {K : Finset (List UInt8)} {L : Nat} {m : KvMap} {srv : Srv} {conn : Conn}
  {name key val new : List UInt8} {keys : List (List UInt8)}

theorem guarded_of_may {acl : UInt32} (hmay : needAuth srv conn acl = none) (p : Prog (Option Answer)) :
    guarded srv conn acl p = p := by
  rw [guarded, hmay]

theorem does_get (hmay : needAuth srv conn vcAclRead = none) (hlt : key.length < 2 ^ 32) :
    Does K L (cmdGet srv conn [name, key]) m m
      (some ⟨conn, ((Query.get key).apply m).2.text conn.resp3⟩) := by
  rw [cmdGet_eq hmay, Query.apply]
  refine .get hlt ?_
  cases m key <;> exact .answer conn _

theorem does_del (hmay : needAuth srv conn vcAclWrite = none)
    (hkeys : ∀ k ∈ key :: keys, k.length < 2 ^ 32) :
    Does K L (cmdDel srv conn (name :: key :: keys)) m (m.without (key :: keys))
      (some ⟨conn, respWriteInteger (m.present (key :: keys)).card⟩) := by
  have hcount := does_countDel (K := K) (L := L) (m := m) hkeys 0
  rw [Nat.zero_add] at hcount
  rw [cmdDel, guarded_of_may hmay, if_neg (by simp)]
  exact .bind hcount (Does.answer conn _)

theorem does_exists (hmay : needAuth srv conn vcAclRead = none)
    (hkeys : ∀ k ∈ key :: keys, k.length < 2 ^ 32) :
    Does K L (cmdExists srv conn (name :: key :: keys)) m m
      (some ⟨conn, respWriteInteger ((key :: keys).countP fun k => (m k).isSome)⟩) := by
  have hcount := does_countGet (K := K) (L := L) (m := m) hkeys 0
  rw [Nat.zero_add] at hcount
  rw [cmdExists, guarded_of_may hmay, if_neg (by simp)]
  exact .bind hcount (Does.answer conn _)

theorem does_mget (hmay : needAuth srv conn vcAclRead = none)
    (hkeys : ∀ k ∈ key :: keys, k.length < 2 ^ 32) :
    Does K L (cmdMget srv conn (name :: key :: keys)) m m
      (some ⟨conn, (Reply.values ((key :: keys).map m)).text conn.resp3⟩) := by
  rw [cmdMget, guarded_of_may hmay, if_neg (by simp), Reply.text, List.flatMap_map, List.flatMap_def,
    List.length_map]
  exact .bind (does_mgetParts conn.resp3 hkeys) (Does.answer conn _)

theorem does_mset (hmay : needAuth srv conn vcAclWrite = none) (hL : L ≤ valMax)
    {pair : List UInt8 × List UInt8} {pairs : List (List UInt8 × List UInt8)}
    (hpairs : ∀ p ∈ pair :: pairs, p.1 ∈ K ∧ Settable p.1 p.2 ∧ p.2.length ≤ L) :
    Does K L (cmdMset srv conn (name :: (pair :: pairs).flatMap fun p => [p.1, p.2])) m
      (m.put (pair :: pairs)) (some ⟨conn, respWriteOk⟩) := by
  have hodd : ((pair :: pairs).flatMap fun p => [p.1, p.2]).length = (pairs.length + 1) * 2 := by
    simp [List.length_flatMap]
    omega
  rw [cmdMset, guarded_of_may hmay, if_neg (by rw [List.length_cons, hodd]; omega)]
  exact .bind (does_msetLoop hL hpairs) (Does.answer conn _)

theorem does_flushdb (name : List UInt8) (hmay : needAuth srv conn vcAclAdmin = none) :
    Does K L (cmdFlushdb srv conn [name]) m (fun _ => none) (some ⟨conn, respWriteOk⟩) := by
  rw [cmdFlushdb, guarded_of_may hmay]
  exact .flush (.answer conn _)

/-- `SET` with the options `NX` and `XX`, or without them. -/
theorem does_set (name : List UInt8) {opts : List (List UInt8)} {nx xx : Bool}
    (hopts : setOptions opts ⟨0, false, false⟩ = ⟨0, nx, xx⟩)
    (hmay : needAuth srv conn vcAclWrite = none) (hkey : key ∈ K) (hset : Settable key val)
    (hlen : val.length ≤ L) (hL : L ≤ valMax) :
    let refused := (nx && (m key).isSome) || (xx && (m key).isNone)
    Does K L (cmdSet srv conn (name :: key :: val :: opts)) m
      (if refused then m else Function.update m key (some val))
      (some ⟨conn, if refused then respWriteNullCompat conn.resp3 else respWriteOk⟩) := by
  intro refused
  have htaken : Does K L (nxTaken nx key) m m (nx && (m key).isSome) := by
    cases nx
    · exact .pure _ m
    · refine .get hset.2.1 ?_
      rw [isOk_lookupResult]
      exact .pure _ m
  have hmissing : Does K L (xxMissing xx key) m m (xx && (m key).isNone) := by
    cases xx
    · exact .pure _ m
    · refine .get hset.2.1 ?_
      rw [isOk_lookupResult, Option.not_isSome]
      exact .pure _ m
  have hvalue : setValue val = val := if_pos hset.2.2
  have hbody : cmdSet srv conn (name :: key :: val :: opts) = nxTaken nx key >>= fun taken =>
      if taken then conn.nullReply
      else xxMissing xx key >>= fun missing =>
        if missing then conn.nullReply else storeReply conn key val 0 := by
    rw [cmdSet, guarded_of_may hmay, if_neg (by simp)]
    simp [arg, hopts]
  rw [hbody]
  refine .bind htaken ?_
  by_cases htook : (nx && (m key).isSome) = true
  · have hrefused : refused = true := by simp [refused, htook]
    rw [if_pos htook, if_pos hrefused, if_pos hrefused]
    exact Does.answer conn _
  rw [if_neg htook]
  refine .bind hmissing ?_
  by_cases hmiss : (xx && (m key).isNone) = true
  · have hrefused : refused = true := by simp [refused, hmiss]
    rw [if_pos hmiss, if_pos hrefused, if_pos hrefused]
    exact Does.answer conn _
  · have hrefused : refused = false := by simp [refused, htook, hmiss]
    rw [if_neg hmiss, hrefused, storeReply_eq, hvalue]
    exact Does.set hkey hset hlen hL (Does.answer conn _)

theorem does_incrby (hmay : needAuth srv conn vcAclWrite = none) (hkey : key ∈ K) (hpos : 0 < key.length)
    (hlt : key.length < 2 ^ 32) (hroom : 13 ≤ L) (hL : L ≤ valMax) (delta : Int) :
    Does K L (cmdIncrby srv conn [name, key] delta) m (m.bump key delta).1
      (some ⟨conn, (m.bump key delta).2.text conn.resp3⟩) := by
  have hstore (n : Int) : Does K L
      (callSet key (counterBytes n) 0 >>= fun _ => conn.answer (respWriteVcInt64 n ++ respWriteInteger n))
      m (Function.update m key (some (counterBytes n)))
      (some ⟨conn, (Reply.counter n).text conn.resp3⟩) := by
    refine .set hkey ⟨hpos, hlt, ?_⟩ ?_ hL (.answer conn _)
    · rw [length_counterBytes]
      exact Nat.succ_pos _
    · rwa [length_counterBytes]
  rw [cmdIncrby, guarded_of_may hmay]
  refine .get hlt ?_
  unfold KvMap.bump kvCounter
  cases hval : m key with
  | none => simpa [arg, hval, lookupResult] using hstore (addInt64 0 delta)
  | some val => simpa [arg, hval, lookupResult] using hstore (addInt64 (counterValue val) delta)

theorem does_rename (hm : m.Sized L) (hmay : needAuth srv conn vcAclWrite = none) (hkey : new ∈ K)
    (hpos : 0 < new.length) (hnew : new.length < 2 ^ 32) (hlt : key.length < 2 ^ 32) (hL : L ≤ valMax) :
    Does K L (cmdRename srv conn [name, key, new]) m ((Query.rename key new).apply m).1
      (some ⟨conn, ((Query.rename key new).apply m).2.text conn.resp3⟩) := by
  rw [cmdRename, guarded_of_may hmay]
  refine .get hlt ?_
  rw [Query.apply]
  cases hval : m key with
  | none => 
    simp only [arg, List.getD_cons_succ, List.getD_cons_zero, hval]
    exact .answer conn _
  | some val =>
    simp only [arg, List.getD_cons_succ, List.getD_cons_zero, hval]
    obtain ⟨hone, hlen⟩ := hm key val hval
    exact .malloc (.del hlt (.set hkey ⟨hpos, hnew, hone⟩ hlen hL (.answer conn _)))

end Handlers

section Dispatch

variable {K : Finset (List UInt8)} {L : Nat} {m : KvMap} {srv : Srv} {conn : Conn} {q : Query} {h : Host}

theorem Query.Fits.short (hq : q.Fits K L) : ∀ a ∈ q.args, a.length < 2 ^ 32 :=
  fun a ha => Nat.lt_of_le_of_lt (hq.lengths a ha) (by decide)

/-- The handler of a query does to a map what the query means. -/
theorem Query.Fits.does (hq : q.Fits K L) (hm : m.Sized L) (hL : L ≤ valMax)
    (hmay : needAuth srv conn q.entry.aclNeeded = none) :
    Does K L (q.entry.fn srv conn q.args) m (q.apply m).1
      (some ⟨conn, (q.apply m).2.text conn.resp3⟩) := by
  have hshort := hq.short
  have htargets := hq.targets
  have hsizes := hq.sizes
  have hput (key val : List UInt8) (hkey : key ∈ q.args) (htarget : key ∈ q.targets)
      (hsize : val.length ∈ q.sizes) : key ∈ K ∧ Settable key val ∧ val.length ≤ L :=
    ⟨(htargets key htarget).1, ⟨(htargets key htarget).2, hshort key hkey, (hsizes _ hsize).1⟩,
      (hsizes _ hsize).2⟩
  cases q with
  | ping => exact Does.answer conn _
  | get key => exact does_get hmay (hshort key (by simp [Query.args]))
  | set key val =>
    obtain ⟨hkey, hset, hlen⟩ := hput key val (by simp [Query.args])
      (by simp [Query.targets]) (by simp [Query.sizes])
    have hopts : setOptions [] ⟨0, false, false⟩ = ⟨0, false, false⟩ := rfl
    exact does_set (str "SET") hopts hmay hkey hset hlen hL
  | setNx key val =>
    obtain ⟨hkey, hset, hlen⟩ := hput key val (by simp [Query.args])
      (by simp [Query.targets]) (by simp [Query.sizes])
    have hopts : setOptions [str "NX"] ⟨0, false, false⟩ = ⟨0, true, false⟩ := rfl
    have hdoes := does_set (m := m) (str "SET") hopts hmay hkey hset hlen hL
    rw [Query.apply]
    cases hval : m key <;> rw [hval] at hdoes <;> exact hdoes
  | setXx key val =>
    obtain ⟨hkey, hset, hlen⟩ := hput key val (by simp [Query.args])
      (by simp [Query.targets]) (by simp [Query.sizes])
    have hopts : setOptions [str "XX"] ⟨0, false, false⟩ = ⟨0, false, true⟩ := rfl
    have hdoes := does_set (m := m) (str "SET") hopts hmay hkey hset hlen hL
    rw [Query.apply]
    cases hval : m key <;> rw [hval] at hdoes <;> exact hdoes
  | del key keys => exact does_del hmay fun k hk => hshort k (List.mem_cons_of_mem _ hk)
  | count key keys => exact does_exists hmay fun k hk => hshort k (List.mem_cons_of_mem _ hk)
  | mget key keys => exact does_mget hmay fun k hk => hshort k (List.mem_cons_of_mem _ hk)
  | mset pair pairs =>
    exact does_mset hmay hL fun p hp =>
      hput p.1 p.2 (List.mem_cons_of_mem _ (List.mem_flatMap.mpr ⟨p, hp, by simp⟩))
        (List.mem_map.mpr ⟨p, hp, rfl⟩) (List.mem_map.mpr ⟨p, hp, rfl⟩)
  | incr key =>
    obtain ⟨hkey, hpos⟩ := htargets key (by simp [Query.targets])
    exact does_incrby hmay hkey hpos (hshort key (by simp [Query.args]))
      (hsizes _ (List.mem_singleton_self _)).2 hL 1
  | decr key =>
    obtain ⟨hkey, hpos⟩ := htargets key (by simp [Query.targets])
    exact does_incrby hmay hkey hpos (hshort key (by simp [Query.args]))
      (hsizes _ (List.mem_singleton_self _)).2 hL (-1)
  | rename key new =>
    obtain ⟨hkey, hpos⟩ := htargets new (by simp [Query.targets])
    exact does_rename hm hmay hkey hpos (hshort new (by simp [Query.args]))
      (hshort key (by simp [Query.args])) hL
  | flush => exact does_flushdb (str "FLUSHDB") hmay

theorem KvMap.Sized.update (hm : m.Sized L) {key : List UInt8} {o : Option (List UInt8)}
    (ho : ∀ v, o = some v → 0 < v.length ∧ v.length ≤ L) : KvMap.Sized L (Function.update m key o) := by
  intro k v hv
  by_cases hk : k = key
  · rw [hk, Function.update_self] at hv
    exact ho v hv
  · rw [Function.update_of_ne hk] at hv
    exact hm k v hv

theorem KvMap.Sized.put (hm : m.Sized L) {pairs : List (List UInt8 × List UInt8)}
    (hpairs : ∀ p ∈ pairs, 0 < p.2.length ∧ p.2.length ≤ L) : KvMap.Sized L (m.put pairs) := by
  induction pairs generalizing m with
  | nil => exact hm
  | cons p pairs ih =>
    obtain ⟨hp, hpairs⟩ := List.forall_mem_cons.mp hpairs
    exact ih (hm.update fun v hv => Option.some.inj hv ▸ hp) hpairs

theorem Query.Fits.sized (hq : q.Fits K L) (hm : m.Sized L) : KvMap.Sized L (q.apply m).1 := by
  have hsizes := hq.sizes
  have hstored {key val : List UInt8} (hsize : val.length ∈ q.sizes) :
      KvMap.Sized L (Function.update m key (some val)) :=
    hm.update fun v hv => Option.some.inj hv ▸ hsizes _ hsize
  have hbump (key : List UInt8) (delta : Int) (hsize : 13 ∈ q.sizes) :
      KvMap.Sized L (m.bump key delta).1 :=
    hstored (by rwa [length_counterBytes])
  cases q with
  | ping => exact hm
  | get key => exact hm
  | set key val => exact hstored (List.mem_singleton_self _)
  | setNx key val =>
    rw [Query.apply]
    split
    · exact hm
    · exact hstored (List.mem_singleton_self _)
  | setXx key val =>
    rw [Query.apply]
    split
    · exact hstored (List.mem_singleton_self _)
    · exact hm
  | del key keys =>
    intro k v hv
    by_cases hk : k ∈ key :: keys <;> simp only [Query.apply, KvMap.without, hk] at hv
    · cases hv
    · exact hm k v hv
  | count key keys => exact hm
  | mget key keys => exact hm
  | mset pair pairs => exact hm.put fun p hp => hsizes _ (List.mem_map.mpr ⟨p, hp, rfl⟩)
  | incr key => exact hbump key 1 (List.mem_singleton_self _)
  | decr key => exact hbump key (-1) (List.mem_singleton_self _)
  | rename key new =>
    rw [Query.apply]
    cases hval : m key with
    | none => exact hm
    | some val =>
      have hgone : KvMap.Sized L (Function.update m key none) := hm.update fun v hv => absurd hv (by simp)
      exact hgone.update fun v hv => Option.some.inj hv ▸ hm key val hval
  | flush =>
    intro k v hv
    cases hv

/-- The server after one more command. -/
def Srv.counted (srv : Srv) : Srv := { srv with totalCommands := (srv.totalCommands + 1) % 2 ^ 64 }

/-- Dispatching a query does what the query means to a cache with room for it. -/
theorem Query.Fits.dispatch (hq : q.Fits K L) (hm : m.Sized L)
    (hmay : needAuth srv conn q.entry.aclNeeded = none) (hr : h.Roomy K L)
    (hreflects : h.world.cache.Reflects m) :
    ∃ h', (vcDispatch srv conn q.args).run hostExec h =
        (h', some ⟨srv.counted, conn, (q.apply m).2.text conn.resp3⟩) ∧
      h'.Roomy K L ∧ h'.world.cache.Reflects (q.apply m).1 := by
  have hne : q.args ≠ [] := by cases q <;> simp [Query.args]
  have hrun := hq.does hm hr.ample.enough.len hmay
  obtain ⟨h', hh', hr', hreflects'⟩ := hrun.simulates Keeps.exec ⟨hr, hreflects⟩
  refine ⟨h', ?_, hr', hreflects'⟩
  rw [vcDispatch_of_executed (executed_eq_some.mpr ⟨hne, q.lookup_args, .inr hmay⟩), Calls.run_bind, hh']
  rfl

/-! ## On the wire -/

def Query.wire (q : Query) : List UInt8 := respArray q.args

/-- The command that the parser makes of a query. -/
def Query.cmd (q : Query) : VcCmd := (VcCmd.pushAll ⟨[], 0⟩ 0 q.args).upper

theorem Query.wire_ne_nil (q : Query) : q.wire ≠ [] := by simp [Query.wire, respArray]

theorem Query.Fits.parse (hq : q.Fits K L) (x : List UInt8) :
    respParseCommand (q.wire ++ x) = .ok q.cmd q.wire.length :=
  respParseCommand_respArray hq.args hq.lengths x

theorem Query.Fits.args_cmd (hq : q.Fits K L) (beyond : Nat → Nat → UInt8) :
    q.cmd.args beyond = q.args := by
  have hplain : q.args.map stripTypeHeader = q.args :=
    (List.map_congr_left fun a ha => stripTypeHeader_eq_self (hq.plain a ha)).trans (List.map_id _)
  rw [Query.cmd, args_pushAll, hplain]
  cases q <;> rfl

end Dispatch

end VoidCache
