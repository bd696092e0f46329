import VoidCache.Net.Conn

/-!
# Command handlers

One definition per `cmd_` function, under its name. The programs make the same calls in the
same order as the code, and they ignore the results that the code ignores.
-/
namespace VoidCache

/-! ## Calls -/

def callGet (key : List UInt8) : Prog (Except VcErr (List UInt8)) := Calls.ask (HostReq.get key)

def callSet (key val : List UInt8) (ttlSec : UInt32) : Prog (Except VcErr Unit) :=
  Calls.ask (HostReq.set key val ttlSec)

def callDel (key : List UInt8) : Prog (Except VcErr Unit) := Calls.ask (HostReq.del key)

def callFlush : Prog Unit := Calls.ask HostReq.flush

def callStats : Prog Stats := Calls.ask HostReq.stats

def callTables : Prog (Nat → List (Option (List UInt8))) := Calls.ask HostReq.tables

def callMalloc (size : Nat) : Prog Bool := Calls.ask (HostReq.malloc size)

def callOverread (n : Nat) : Prog (Fin n → UInt8) := Calls.ask (HostReq.overread n)

section Run

variable {R : Type} (h : Host)

@[simp] theorem run_callGet (key : List UInt8) (f : Except VcErr (List UInt8) → Prog R) :
    (callGet key >>= f).run hostExec h = (f (h.get key).2).run hostExec (h.get key).1 := rfl

@[simp] theorem run_callSet (key val : List UInt8) (ttlSec : UInt32) (f : Except VcErr Unit → Prog R) :
    (callSet key val ttlSec >>= f).run hostExec h =
      (f (h.set key val ttlSec).2).run hostExec (h.set key val ttlSec).1 := rfl

@[simp] theorem run_callDel (key : List UInt8) (f : Except VcErr Unit → Prog R) :
    (callDel key >>= f).run hostExec h = (f (h.del key).2).run hostExec (h.del key).1 := rfl

@[simp] theorem run_callMalloc (size : Nat) (f : Bool → Prog R) :
    (callMalloc size >>= f).run hostExec h =
      (f ((h.envs h.calls).mallocOk size)).run hostExec h.allocated := rfl

@[simp] theorem run_callOverread (n : Nat) (f : (Fin n → UInt8) → Prog R) :
    (callOverread n >>= f).run hostExec h =
      (f fun i => (h.envs h.calls).spill i).run hostExec h := rfl

@[simp] theorem run_callTables (f : (Nat → List (Option (List UInt8))) → Prog R) :
    (callTables >>= f).run hostExec h = (f h.world.cache.slotKeys).run hostExec h := rfl

@[simp] theorem run_answer (conn : Conn) (reply : List UInt8) :
    (conn.answer reply).run hostExec h = (h, some ⟨conn, reply⟩) := rfl

@[simp] theorem run_pure (r : R) : (pure r : Prog R).run hostExec h = (h, r) := rfl

end Run

/-! ## Connection commands -/

def cmdPing : Handler := fun _ conn argv =>
  if 1 < argv.length then conn.bulk (arg argv 1) else conn.simple "PONG"

/-- The `AUTH` options of `HELLO`, from one argument on: the user that is held in the end, and
whether no pair was refused. -/
def helloAuth (db : AuthDb) : List (List UInt8) → Option VcUser → Option VcUser × Bool
  | a :: name :: pass :: rest, user =>
    if isWord a "AUTH" then
      match vcAuthVerify db (cstr name) (cstr pass) with
      | none => (user, false)
      | some u => helloAuth db rest (some u)
    else helloAuth db (name :: pass :: rest) user
  | _, user => (user, true)

def cmdHello : Handler := fun srv conn argv =>
  let proto : Int := if 2 ≤ argv.length then toInt32 (parseNum (arg argv 1)) else 2
  if proto ≠ 2 ∧ proto ≠ 3 then conn.err "NOPROTO" "unsupported protocol version"
  else
    let (user, accepted) := helloAuth srv.auth (argv.drop 2) conn.user
    let conn := { conn with user := user }
    if !accepted then conn.err "WRONGPASS" "Invalid username or password"
    else
      let conn := { conn with resp3 := decide (proto = 3) }
      conn.answer (respWriteHello vcServerVersion (cstr srv.nodeId) conn.resp3)

def cmdAuth : Handler := fun srv conn argv =>
  if argv.length < 2 ∨ 3 < argv.length then conn.err "ERR" "wrong number of arguments for AUTH"
  else
    let name := if argv.length = 2 then str "default" else arg argv 1
    let pass := if argv.length = 2 then arg argv 1 else arg argv 2
    if !srv.auth.requireAuth then conn.ok
    else
      match vcAuthVerify srv.auth name pass with
      | none => conn.err "WRONGPASS" "Invalid username or password"
      | some u => Conn.ok { conn with user := some u }

def cmdSelect : Handler := fun _ conn argv =>
  argcCheck conn argv 1 1 <|
    if parseNum (arg argv 1) ≠ 0 then
      conn.err "ERR" "VoidCache supports only DB 0 (keyspace is global)"
    else conn.ok

def cmdQuit : Handler := fun _ conn _ => Conn.ok { conn with state := .closing }

def cmdReset : Handler := fun _ conn _ => Conn.simple { conn with dbIdx := 0 } "RESET"

def clientInfo (conn : Conn) : List UInt8 :=
  snprintfStr 256 (str "id=" ++ decimalInt conn.fd ++ str "\r\naddr=" ++ cstr conn.peerAddr ++
    str ":" ++ decimal conn.peerPort ++ str "\r\ncmd=client\r\n")

/-- The line of `CLIENT LIST`; it fits its buffer. -/
def clientList (conn : Conn) : List UInt8 :=
  str "id=" ++ decimalInt conn.fd ++ str " addr=" ++ cstr conn.peerAddr ++ str ":" ++
    decimal conn.peerPort ++ str " fd=" ++ decimalInt conn.fd ++
    str " name= age=0 idle=0 flags=N db=0 sub=0 psub=0 multi=-1 rbs=16384 rbp=0 obl=0 oll=0 omem=0 events=r cmd=client resp=2\n"

def cmdClient : Handler := fun _ conn argv =>
  if argv.length < 2 then conn.err "ERR" "wrong arguments"
  else
    let sub := arg argv 1
    if isWord sub "SETNAME" then conn.ok
    else if isWord sub "GETNAME" then conn.bulk []
    else if isWord sub "ID" then conn.int conn.fd
    else if isWord sub "NO-EVICT" then conn.ok
    else if isWord sub "NO-TOUCH" then conn.ok
    else if isWord sub "UNPAUSE" then conn.ok
    else if isWord sub "PAUSE" then conn.ok
    else if isWord sub "CACHING" then conn.ok
    else if isWord sub "REPLY" then conn.ok
    else if isWord sub "TRACKING" then conn.ok
    else if isWord sub "INFO" then conn.bulk (clientInfo conn)
    else if isWord sub "LIST" then conn.bulk (clientList conn)
    else conn.err "ERR" "unknown CLIENT subcommand"

/-! ## Core key commands -/

structure SetOpts where
  ttlSec : UInt32
  nx : Bool
  xx : Bool
  deriving DecidableEq

/-- The options after the value. `EX` and `PX` take the next argument with them. -/
def setOptions : List (List UInt8) → SetOpts → SetOpts
  | [], o => o
  | [a], o =>
    if isWord a "NX" then { o with nx := true }
    else if isWord a "XX" then { o with xx := true }
    else o
  | a :: v :: rest, o =>
    if isWord a "EX" then setOptions rest { o with ttlSec := toUInt32 (parseNum v) }
    else if isWord a "PX" then
      setOptions rest { o with ttlSec := toUInt32 ((parseNum v).tdiv 1000) }
    else if isWord a "NX" then setOptions (v :: rest) { o with nx := true }
    else if isWord a "XX" then setOptions (v :: rest) { o with xx := true }
    else setOptions (v :: rest) o

/-- An empty value is stored as the zero byte that ends it. -/
def setValue (val : List UInt8) : List UInt8 := if 0 < val.length then val else [0]

/-- With `NX`, whether the key is there already. -/
def nxTaken (nx : Bool) (key : List UInt8) : Prog Bool :=
  if nx then do
    let r ← callGet key
    pure r.isOk
  else pure false

/-- With `XX`, whether the key is missing. -/
def xxMissing (xx : Bool) (key : List UInt8) : Prog Bool :=
  if xx then do
    let r ← callGet key
    pure !r.isOk
  else pure false

def storeReply (conn : Conn) (key val : List UInt8) (ttlSec : UInt32) : Prog (Option Answer) := do
  match ← callSet key (setValue val) ttlSec with
  | .error _ => conn.err "ERR" "storage error"
  | .ok _ => conn.ok

def cmdSet : Handler := fun srv conn argv =>
  guarded srv conn vcAclWrite <|
    if argv.length < 3 then conn.err "ERR" "wrong arguments"
    else do
      let key := arg argv 1
      let opts := setOptions (argv.drop 3) ⟨0, false, false⟩
      let taken ← nxTaken opts.nx key
      if taken then conn.nullReply
      else do
        let missing ← xxMissing opts.xx key
        if missing then conn.nullReply else storeReply conn key (arg argv 2) opts.ttlSec

/-- What `SET` makes of the result of the store. -/
def storeText : Except VcErr Unit → List UInt8
  | .error _ => respWriteError (str "ERR") (str "storage error")
  | .ok _ => respWriteOk

theorem storeReply_eq (conn : Conn) (key val : List UInt8) (ttlSec : UInt32) :
    storeReply conn key val ttlSec =
      callSet key (setValue val) ttlSec >>= fun r => conn.answer (storeText r) := by
  rw [storeReply]
  congr 1
  funext r
  cases r <;> rfl

/-- Without options `SET` only stores. -/
theorem cmdSet_plain {srv : Srv} {conn : Conn} (hmay : needAuth srv conn vcAclWrite = none)
    (name k v : List UInt8) :
    cmdSet srv conn [name, k, v] =
      callSet k (setValue v) 0 >>= fun r => conn.answer (storeText r) := by
  rw [← storeReply_eq]
  simp only [cmdSet, guarded, hmay]
  rfl

def cmdGet : Handler := fun srv conn argv =>
  guarded srv conn vcAclRead <| argcCheck conn argv 1 1 do
    match ← callGet (arg argv 1) with
    | .error .notFnd => conn.nullReply
    | .error .expired => conn.nullReply
    | .error _ => conn.err "ERR" "get error"
    -- a typed payload and a plain one are written alike
    | .ok val => conn.bulk val

/-- How many of the keys a call succeeds on. -/
def countOk {α : Type} (call : List UInt8 → Prog (Except VcErr α)) : List (List UInt8) → Nat → Prog Nat
  | [], n => pure n
  | key :: keys, n => do
    let r ← call key
    countOk call keys (if r.isOk then n + 1 else n)

def cmdDel : Handler := fun srv conn argv =>
  guarded srv conn vcAclWrite <|
    if argv.length < 2 then conn.err "ERR" "wrong arguments"
    else do
      let deleted ← countOk callDel (argv.drop 1) 0
      conn.int deleted

def cmdExists : Handler := fun srv conn argv =>
  guarded srv conn vcAclRead <|
    if argv.length < 2 then conn.err "ERR" "wrong arguments"
    else do
      let found ← countOk callGet (argv.drop 1) 0
      conn.int found

/-- `EXPIRE` and `PERSIST`: read the value, copy it, and set it again with another TTL. -/
def setAgain (conn : Conn) (key : List UInt8) (ttlSec : UInt32) : Prog (Option Answer) := do
  match ← callGet key with
  | .error _ => conn.int 0
  | .ok val =>
    let copied ← callMalloc val.length
    if !copied then conn.err "ERR" "OOM"
    else do
      let _ ← callSet key val ttlSec
      conn.int 1

def cmdExpire : Handler := fun srv conn argv =>
  guarded srv conn vcAclWrite <| argcCheck conn argv 2 2 <|
    setAgain conn (arg argv 1) (toUInt32 (parseNum (arg argv 2)))

def cmdTtl : Handler := fun srv conn argv =>
  guarded srv conn vcAclRead <| argcCheck conn argv 1 1 do
    match ← callGet (arg argv 1) with
    | .error _ => conn.int (-2)
    | .ok _ => conn.int (-1)

def cmdPttl : Handler := cmdTtl

def cmdPersist : Handler := fun srv conn argv =>
  guarded srv conn vcAclWrite <| argcCheck conn argv 1 1 <| setAgain conn (arg argv 1) 0

/-- The type byte of a value that starts with the magic, if it does. -/
def typeByte (val : List UInt8) : Option UInt8 :=
  if hasTypeHeader val then some (val.getD vcWireMagic.length 0) else none

def typeName (val : List UInt8) : String :=
  match typeByte val with
  | none => "string"
  | some t =>
    if t = vcTypeInt64 then "integer"
    else if t = vcTypeFloat64 then "float"
    else if t = vcTypeBool then "boolean"
    else if t = vcTypeJson then "json"
    else if t = vcTypeList then "list"
    else if t = vcTypeHash then "hash"
    else if t = vcTypeBinary then "binary"
    else "string"

def cmdType : Handler := fun srv conn argv =>
  guarded srv conn vcAclRead <| argcCheck conn argv 1 1 do
    match ← callGet (arg argv 1) with
    | .error _ => conn.simple "none"
    | .ok val => conn.simple (typeName val)

/-! ## Several keys at once -/

def mgetParts (resp3 : Bool) : List (List UInt8) → Prog (List (List UInt8))
  | [] => pure []
  | key :: keys => do
    let r ← callGet key
    let part := match r with
      | .ok val => respWriteBulk val
      | .error _ => respWriteNullCompat resp3
    let parts ← mgetParts resp3 keys
    pure (part :: parts)

def cmdMget : Handler := fun srv conn argv =>
  guarded srv conn vcAclRead <|
    if argv.length < 2 then conn.err "ERR" "wrong arguments"
    else do
      let parts ← mgetParts conn.resp3 (argv.drop 1)
      conn.answer (respWriteArrayHeader (argv.length - 1) ++ parts.flatten)

def msetLoop : List (List UInt8) → Prog Unit
  | key :: val :: rest => do
    let _ ← callSet key val 0
    msetLoop rest
  | _ => pure ()

def cmdMset : Handler := fun srv conn argv =>
  guarded srv conn vcAclWrite <|
    if argv.length < 3 ∨ argv.length % 2 = 0 then conn.err "ERR" "wrong number of arguments"
    else do
      msetLoop (argv.drop 1)
      conn.ok

/-! ## Counters -/

/-- The number a stored value stands for: a typed integer, or the text at its start. -/
def counterValue (val : List UInt8) : Int :=
  if val.length = vcWireMagic.length + 1 + 8 ∧ val.take vcWireMagic.length = vcWireMagic ∧
      val.getD vcWireMagic.length 0 = vcTypeInt64 then
    toInt64 (leNat (val.drop (vcWireMagic.length + 1)))
  else parseNum (val.take (if val.length < 31 then val.length else 31))

def counterBytes (v : Int) : List UInt8 := vcWireMagic ++ vcTypeInt64 :: int64Bytes v

/-- The typed integer is written before the value is stored, the plain one after it. -/
def cmdIncrby (srv : Srv) (conn : Conn) (argv : List (List UInt8)) (delta : Int) :
    Prog (Option Answer) :=
  guarded srv conn vcAclWrite <| argcCheck conn argv 1 2 do
    let delta := if argv.length = 3 then parseNum (arg argv 2) else delta
    let r ← callGet (arg argv 1)
    let cur := match r with
      | .ok val => counterValue val
      | .error _ => 0
    let cur := addInt64 cur delta
    let _ ← callSet (arg argv 1) (counterBytes cur) 0
    conn.answer (respWriteVcInt64 cur ++ respWriteInteger cur)

def cmdIncr : Handler := fun srv conn argv => cmdIncrby srv conn argv 1

def cmdDecr : Handler := fun srv conn argv => cmdIncrby srv conn argv (-1)

def cmdIncrby2 : Handler := fun srv conn argv =>
  cmdIncrby srv conn argv (if argv.length = 3 then parseNum (arg argv 2) else 0)

def cmdDecrby : Handler := fun srv conn argv =>
  cmdIncrby srv conn argv (-(if argv.length = 3 then parseNum (arg argv 2) else 0))

/-! ## APPEND and RENAME -/

def cmdAppend : Handler := fun srv conn argv =>
  guarded srv conn vcAclWrite <| argcCheck conn argv 2 2 do
    match ← callGet (arg argv 1) with
    | .ok val =>
      let copied ← callMalloc (val.length + (arg argv 2).length)
      if !copied then conn.err "ERR" "OOM"
      else do
        let _ ← callSet (arg argv 1) (val ++ arg argv 2) 0
        conn.int ((val.length + (arg argv 2).length : Nat) : Int)
    | .error _ =>
      let _ ← callSet (arg argv 1) (arg argv 2) 0
      conn.int ((arg argv 2).length : Int)

def cmdRename : Handler := fun srv conn argv =>
  guarded srv conn vcAclWrite <| argcCheck conn argv 2 2 do
    match ← callGet (arg argv 1) with
    | .error _ => conn.err "ERR" "no such key"
    | .ok val =>
      let copied ← callMalloc val.length
      if !copied then conn.err "ERR" "OOM"
      else do
        let _ ← callDel (arg argv 1)
        let _ ← callSet (arg argv 2) val 0
        conn.ok

/-! ## The keyspace -/

def cmdDbsize : Handler := fun srv conn _ =>
  guarded srv conn vcAclRead do
    let st ← callStats
    conn.int (toInt64 st.totalKeys)

/-- A copy made by `strndup(k, kl)` and read back over `kl` bytes. The copy ends at the first
zero byte of the key; what follows it is not known. `none` is a copy that was not allocated. -/
def copyKey (key : List UInt8) : Prog (Option (List UInt8)) := do
  let copied ← callMalloc ((cstr key).length + 1)
  if !copied then pure none
  else if (cstr key).length = key.length then pure (some key)
  else do
    let beyond ← callOverread (key.length - (cstr key).length - 1)
    pure (some (cstr key ++ 0 :: List.ofFn beyond))

/-- Copies of all the keys, unless one of them fails. -/
def copyKeys : List (List UInt8) → Prog (Option (List (List UInt8)))
  | [] => pure (some [])
  | key :: keys => do
    let k ← copyKey key
    let ks ← copyKeys keys
    pure (k.bind fun k => ks.map (k :: ·))

/-- Copy the keys and answer with the copies. A copy that was not allocated is read all the
same. -/
def answerKeys (conn : Conn) (keys : List (List UInt8)) (reply : List (List UInt8) → List UInt8) :
    Prog (Option Answer) := do
  match ← copyKeys keys with
  | none => pure none
  | some copies => conn.answer (reply copies)

def maxKeys : Nat := 65536

/-- The live keys among the slots, as long as there are fewer than `limit` in all. -/
def takeKeys (limit : Nat) : List (Option (List UInt8)) → List (List UInt8) → List (List UInt8)
  | [], acc => acc
  | o :: slots, acc =>
    if acc.length < limit then
      match o with
      | none => takeKeys limit slots acc
      | some k => takeKeys limit slots (acc ++ [k])
    else acc

/-- The keys that `KEYS` lists: shard after shard, up to the limit. -/
def collectKeys (tables : Nat → List (Option (List UInt8))) : List (List UInt8) :=
  (List.range numShards).foldl (fun acc si => takeKeys maxKeys (tables si) acc) []

/-- The pattern is not looked at. -/
def cmdKeys : Handler := fun srv conn argv =>
  guarded srv conn vcAclRead <| argcCheck conn argv 1 1 do
    let kptrs ← callMalloc (maxKeys * 8)
    let klens ← callMalloc (maxKeys * 8)
    if !kptrs || !klens then conn.err "ERR" "OOM"
    else do
      let tables ← callTables
      answerKeys conn (collectKeys tables) fun copies =>
        respWriteArrayHeader copies.length ++ (copies.map respWriteBulk).flatten

/-- One shard of a scan, from a slot on: the keys so far, and the slot at which it stops. -/
def scanSlots (count : Int) :
    List (Option (List UInt8)) → Nat → List (List UInt8) → List (List UInt8) × Nat
  | [], slot, acc => (acc, slot)
  | o :: slots, slot, acc =>
    if (acc.length : Int) < count then
      match o with
      | none => scanSlots count slots (slot + 1) acc
      | some k => scanSlots count slots (slot + 1) (acc ++ [k])
    else (acc, slot)

/-- The scan from a shard and a slot on, with `n` shards to go: its keys and the next cursor.
A scan that has enough keys just as a shard ends leaves the cursor at 0. -/
def scanShards (tables : Nat → List (Option (List UInt8))) (count : Int) :
    Nat → Nat → Nat → List (List UInt8) → List (List UInt8) × Nat
  | 0, _, _, acc => (acc, 0)
  | n + 1, shard, slot, acc =>
    if (acc.length : Int) < count then
      let (acc, slot) := scanSlots count ((tables shard).drop slot) slot acc
      if (tables shard).length ≤ slot then scanShards tables count n (shard + 1) 0 acc
      else (acc, (shard <<< 20) ||| slot)
    else (acc, 0)

/-- The last `COUNT` option wins. -/
def scanCount : List (List UInt8) → Int → Int
  | a :: v :: rest, count =>
    scanCount (v :: rest) (if isWord a "COUNT" then parseNum v else count)
  | _, count => count

def scanCursor (argv : List (List UInt8)) : Int :=
  if 2 ≤ argv.length then parseNum (arg argv 1) else 0

/-- The keys that a `SCAN` command answers with, and the cursor. -/
def scanReply (tables : Nat → List (Option (List UInt8))) (argv : List (List UInt8)) :
    List (List UInt8) × Nat :=
  let shard := (scanCursor argv / 2 ^ 20 % 64).toNat
  let slot := (scanCursor argv % 2 ^ 20).toNat
  scanShards tables (toInt32 (scanCount (argv.drop 2) 10)) (numShards - shard) shard slot []

def cmdScan : Handler := fun srv conn argv =>
  guarded srv conn vcAclRead do
    let size := (scanCount (argv.drop 2) 10 * 8 % 2 ^ 64).toNat
    let kptrs ← callMalloc size
    let klens ← callMalloc size
    let tables ← callTables
    let (keys, next) := scanReply tables argv
    -- neither array is checked before the first key is stored in it
    if keys ≠ [] ∧ (!kptrs || !klens) then pure none
    else
      answerKeys conn keys fun copies =>
        respWriteArrayHeader 2 ++ respWriteBulk (decimal next) ++
          respWriteArrayHeader copies.length ++ (copies.map respWriteBulk).flatten

def cmdFlushdb : Handler := fun srv conn _ =>
  guarded srv conn vcAclAdmin do
    callFlush
    conn.ok

/-! ## Server information -/

def modeText (srv : Srv) : List UInt8 :=
  if srv.clusterEnabled then str "cluster" else str "standalone"

/-- The text of `INFO`; it fits its buffer. -/
def infoText (srv : Srv) (st : Stats) : List UInt8 :=
  str "# Server\r\nredis_version:" ++ vcServerVersion ++
  str "\r\nredis_mode:" ++ modeText srv ++
  str "\r\nserver:voidcache\r\nversion:" ++ vcServerVersion ++
  str "\r\nnode_id:" ++ cstr srv.nodeId ++
  str "\r\nmode:" ++ modeText srv ++
  str "\r\nos:Linux\r\narch_bits:64\r\n\r\n# Clients\r\nconnected_clients:" ++ decimal srv.totalConns ++
  str "\r\ntotal_connections_received:" ++ decimal srv.totalConns ++
  str "\r\n\r\n# Stats\r\ntotal_commands_processed:" ++ decimal srv.totalCommands ++
  str "\r\nkeyspace_hits:" ++ decimal st.hits ++
  str "\r\nkeyspace_misses:" ++ decimal st.misses ++
  str "\r\nevicted_keys:" ++ decimal st.evictions ++
  str "\r\nexpired_keys:" ++ decimal st.expirations ++
  str "\r\n\r\n# Keyspace\r\ndb0:keys=" ++ decimal st.totalKeys ++
  str "\r\n\r\n# Replication\r\nrole:master\r\nconnected_slaves:0\r\nmaster_failover_state:no-failover\r\n" ++
  str "master_replid:0000000000000000000000000000000000000000\r\nmaster_repl_offset:0\r\n\r\n" ++
  str "# Persistence\r\nloading:0\r\nrdb_changes_since_last_save:0\r\nrdb_last_bgsave_status:ok\r\n" ++
  str "aof_enabled:0\r\n\r\n# CPU\r\nused_cpu_sys:0\r\nused_cpu_user:0\r\n\r\n# Memory\r\nused_memory:" ++
  decimal st.memoryBytes ++ str "\r\nmaxmemory:" ++ decimal srv.maxMemory ++ crlf

def cmdInfo : Handler := fun srv conn _ =>
  guarded srv conn vcAclRead do
    let st ← callStats
    conn.bulk (infoText srv st)

/-- `CFGMATCH`. The empty pattern matches nothing, whatever stands before it in memory. -/
def cfgMatch (pat k : List UInt8) : Bool :=
  pat == str "*" || strcaseeq pat k ||
    (pat.getLast? == some 42 && pat.dropLast.map toLower == (k.take (pat.length - 1)).map toLower)

def configEntries (srv : Srv) : List (List UInt8 × List UInt8) :=
  [(str "hz", str "10"), (str "maxmemory", decimal srv.maxMemory),
   (str "maxmemory-policy", str "allkeys-lru"), (str "save", str ""), (str "appendonly", str "no"),
   (str "list-max-ziplist-size", str "-2"), (str "list-compress-depth", str "0"),
   (str "activerehashing", str "yes"), (str "lazyfree-lazy-eviction", str "no"),
   (str "latency-tracking", str "yes"), (str "latency-tracking-info-percentiles", str "50 99 99.9"),
   (str "proto-max-bulk-len", str "536870912"), (str "activedefrag", str "no"),
   (str "repl-backlog-size", str "1048576"), (str "bind-source-addr", str ""),
   (str "socket-mark-id", str "0")]

def cmdConfig : Handler := fun srv conn argv =>
  if argv.length < 2 then conn.err "ERR" "wrong arguments"
  else if isWord (arg argv 1) "GET" ∧ 3 ≤ argv.length then
    let matched := (configEntries srv).filter fun e => cfgMatch (cstr (arg argv 2)) e.1
    conn.answer (respWriteArrayHeader (matched.length * 2) ++
      matched.flatMap fun e => respWriteBulk e.1 ++ respWriteBulk e.2)
  else if isWord (arg argv 1) "SET" then conn.ok
  else if isWord (arg argv 1) "RESETSTAT" then conn.ok
  else conn.err "ERR" "unknown CONFIG subcommand"

def cmdCommand : Handler := fun _ conn argv =>
  if argv.length < 2 then conn.emptyArray
  else
    let sub := arg argv 1
    if isWord sub "COUNT" then conn.int 0
    else if isWord sub "DOCS" then
      if conn.resp3 then conn.answer (respWriteMapHeader 0) else conn.emptyArray
    else if isWord sub "INFO" then
      if argv.length - 2 = 0 then conn.emptyArray
      else
        conn.answer (respWriteArrayHeader (argv.length - 2) ++
          (List.replicate (argv.length - 2) (respWriteNullCompat conn.resp3)).flatten)
    else conn.emptyArray

def cmdDebug : Handler := fun srv conn _ => guarded srv conn vcAclAdmin conn.ok

/-! ## Typed values -/

/-- The type byte that a type name of `VCSET` stands for. -/
def typeOfName (name : List UInt8) : Option UInt8 :=
  if isWord name "int" then some vcTypeInt64
  else if isWord name "float" then some vcTypeFloat64
  else if isWord name "bool" then some vcTypeBool
  else if isWord name "json" then some vcTypeJson
  else if isWord name "binary" then some vcTypeBinary
  else if isWord name "string" then some 83
  else none

/-- The typed bulk string that `VCSET` encodes its value to. -/
def vcsetWire (libm : Libm) (type : UInt8) (val : List UInt8) : List UInt8 :=
  if type = vcTypeInt64 then respWriteVcInt64 (parseNum val)
  else if type = vcTypeFloat64 then respWriteVcTyped vcTypeFloat64 (libm.strtod (cstr val))
  else if type = vcTypeBool then respWriteVcBool (isWord val "true" || cstr val == str "1")
  else if type = vcTypeJson then respWriteVcJson val
  else respWriteVcBinary val

/-- What stands between the first CR LF of a bulk string and its last two bytes. -/
def bulkPayload (wire : List UInt8) : Option (List UInt8) :=
  let cr := (wire.takeWhile (· ≠ 13)).length
  if cr + 2 < wire.length then some ((wire.drop (cr + 2)).take (wire.length - (cr + 2) - 2))
  else none

def cmdVcset : Handler := fun srv conn argv =>
  guarded srv conn vcAclWrite <|
    if argv.length < 4 then conn.err "ERR" "Usage: VCSET key type value"
    else
      match typeOfName (arg argv 2) with
      | none => conn.err "ERR" "unknown type; use int|float|bool|json|binary|string"
      | some type => do
        let val := arg argv 3
        let tb ← callMalloc (vcWireMagic.length + 1 + val.length + 16)
        if !tb then conn.err "ERR" "OOM"
        else
          match bulkPayload (vcsetWire srv.libm type val) with
          | none => conn.ok
          | some payload => do
            let _ ← callSet (arg argv 1) payload 0
            conn.ok

/-- `n` bytes at the start of a payload, whether it has them or not. -/
def readAhead (payload : List UInt8) (n : Nat) : Prog (List UInt8) :=
  if n ≤ payload.length then pure (payload.take n)
  else do
    let beyond ← callOverread (n - payload.length)
    pure (payload ++ List.ofFn beyond)

/-- The type name and the encoded value that `VCGET` answers with. -/
def vcgetParts (libm : Libm) (val : List UInt8) : Prog (List UInt8 × List UInt8) :=
  match typeByte val with
  | none => pure (str "string", respWriteBulk val)
  | some t =>
    let payload := val.drop (vcWireMagic.length + 1)
    if t = vcTypeInt64 then pure (str "int", respWriteInteger (toInt64 (leNat (payload.take 8))))
    else if t = vcTypeFloat64 then do
      let d ← readAhead payload 8
      pure (str "float", respWriteDouble (libm.fmtG d))
    else if t = vcTypeBool then do
      let b ← readAhead payload 1
      pure (str "bool", respWriteBool (b.getD 0 0 != 0))
    else if t = vcTypeJson then pure (str "json", respWriteBulk payload)
    else pure (str "binary", respWriteBulk payload)

def cmdVcget : Handler := fun srv conn argv =>
  guarded srv conn vcAclRead <| argcCheck conn argv 1 1 do
    match ← callGet (arg argv 1) with
    | .error _ => conn.nullReply
    | .ok val => do
      let (name, value) ← vcgetParts srv.libm val
      conn.answer (respWriteMapHeader 2 ++ respWriteBulk (str "type") ++ respWriteBulk name ++
        respWriteBulk (str "value") ++ value)

def vcinfoText (srv : Srv) (st : Stats) : List UInt8 :=
  str "\x7b\"server\":\"voidcache\",\"version\":\"" ++ vcServerVersion ++
  str "\",\"node_id\":\"" ++ cstr srv.nodeId ++
  str "\",\"shards\":" ++ decimal numShards ++
  str ",\"max_memory\":" ++ decimal srv.maxMemory ++
  str ",\"keys\":" ++ decimal st.totalKeys ++
  str ",\"hits\":" ++ decimal st.hits ++
  str ",\"misses\":" ++ decimal st.misses ++
  str ",\"evictions\":" ++ decimal st.evictions ++
  str ",\"memory_bytes\":" ++ decimal st.memoryBytes ++ str "\x7d"

def cmdVcinfo : Handler := fun srv conn _ =>
  guarded srv conn vcAclRead do
    let st ← callStats
    conn.answer (respWriteVcJson (vcinfoText srv st))

/-! ## Cluster, users and stubs -/

def clusterInfo (srv : Srv) : List UInt8 :=
  str "cluster_enabled:" ++ decimal (if srv.clusterEnabled then 1 else 0) ++
  str "\r\ncluster_state:ok\r\ncluster_slots_assigned:16384\r\ncluster_slots_ok:16384\r\n" ++
  str "cluster_known_nodes:1\r\ncluster_size:1\r\n"

def announced (srv : Srv) : List UInt8 := cstr (srv.announceAddr.getD (str "127.0.0.1"))

def clusterNodes (srv : Srv) : List UInt8 :=
  let port := if srv.announcePort ≠ 0 then srv.announcePort else srv.port
  snprintfStr 256 (cstr srv.nodeId ++ str " " ++ announced srv ++ str ":" ++ decimal port ++
    str "@" ++ decimal (port + 10000) ++ str " myself,master - 0 0 1 connected 0-16383\n")

def cmdCluster : Handler := fun srv conn argv =>
  if argv.length < 2 then conn.err "ERR" "wrong arguments"
  else
    let sub := arg argv 1
    if isWord sub "INFO" then conn.bulk (snprintfStr 512 (clusterInfo srv))
    else if isWord sub "MYID" then conn.bulk (cstr srv.nodeId)
    else if isWord sub "NODES" then conn.bulk (clusterNodes srv)
    else if isWord sub "SLOTS" then
      conn.answer (respWriteArrayHeader 1 ++ respWriteArrayHeader 3 ++ respWriteInteger 0 ++
        respWriteInteger 16383 ++ respWriteArrayHeader 2 ++ respWriteBulk (announced srv) ++
        respWriteInteger srv.port)
    else conn.err "ERR" "unknown CLUSTER subcommand"

/-- The name of the user, or `default`. -/
def whoami (conn : Conn) : List UInt8 :=
  match conn.user with
  | none => str "default"
  | some u => if cstr u.username = [] then str "default" else cstr u.username

def cmdAcl : Handler := fun _ conn argv =>
  if argv.length < 2 then conn.err "ERR" "wrong arguments"
  else
    let sub := arg argv 1
    if isWord sub "WHOAMI" then conn.bulk (whoami conn)
    else if isWord sub "CAT" then
      conn.answer (respWriteArrayHeader 4 ++ respWriteBulk (str "read") ++
        respWriteBulk (str "write") ++ respWriteBulk (str "admin") ++ respWriteBulk (str "pubsub"))
    else if isWord sub "LIST" then
      conn.answer (respWriteArrayHeader 1 ++
        respWriteBulk (snprintfStr 128 (str "user " ++ whoami conn ++ str " on ~* &* +@all")))
    else if isWord sub "GETUSER" then conn.nullReply
    else if isWord sub "SETUSER" || isWord sub "DELUSER" || isWord sub "LOG" || isWord sub "RESET" then
      conn.ok
    else conn.err "ERR" "unknown ACL subcommand"

def cmdLatency : Handler := fun _ conn argv =>
  if argv.length < 2 then conn.err "ERR" "wrong arguments"
  else
    let sub := arg argv 1
    if isWord sub "LATEST" then conn.emptyArray
    else if isWord sub "HISTORY" then conn.emptyArray
    else if isWord sub "RESET" then conn.int 0
    else if isWord sub "GRAPH" then conn.bulk []
    else conn.err "ERR" "unknown LATENCY subcommand"

def cmdSlowlog : Handler := fun _ conn argv =>
  if argv.length < 2 then conn.err "ERR" "wrong arguments"
  else
    let sub := arg argv 1
    if isWord sub "GET" then conn.emptyArray
    else if isWord sub "LEN" then conn.int 0
    else if isWord sub "RESET" then conn.ok
    else conn.err "ERR" "unknown SLOWLOG subcommand"

def cmdObject : Handler := fun _ conn argv =>
  if argv.length < 2 then conn.err "ERR" "wrong arguments"
  else
    let sub := arg argv 1
    -- seven bytes of a six-letter word: the zero goes out too
    if isWord sub "ENCODING" then conn.bulk (str "embstr" ++ [0])
    else if isWord sub "REFCOUNT" then conn.int 1
    else if isWord sub "IDLETIME" then conn.int 0
    else if isWord sub "FREQ" then conn.int 0
    else if isWord sub "HELP" then conn.emptyArray
    else conn.err "ERR" "unknown OBJECT subcommand"

def cmdWait : Handler := fun _ conn _ => conn.int 0

def cmdXlen : Handler := fun _ conn _ =>
  conn.err "WRONGTYPE" "Operation against a key holding the wrong kind of value"

def cmdSrandmember : Handler := fun _ conn _ =>
  conn.err "WRONGTYPE" "Operation against a key holding the wrong kind of value"

/-! ## Dispatch -/

structure CmdEntry where
  name : String
  fn : Handler
  aclNeeded : UInt32

def cmdTable : List CmdEntry :=
  [⟨"PING", cmdPing, 0⟩, ⟨"HELLO", cmdHello, 0⟩, ⟨"AUTH", cmdAuth, 0⟩, ⟨"SELECT", cmdSelect, 0⟩,
   ⟨"QUIT", cmdQuit, 0⟩, ⟨"CLIENT", cmdClient, 0⟩,
   ⟨"GET", cmdGet, vcAclRead⟩, ⟨"MGET", cmdMget, vcAclRead⟩, ⟨"EXISTS", cmdExists, vcAclRead⟩,
   ⟨"TTL", cmdTtl, vcAclRead⟩, ⟨"PTTL", cmdPttl, vcAclRead⟩, ⟨"TYPE", cmdType, vcAclRead⟩,
   ⟨"DBSIZE", cmdDbsize, vcAclRead⟩, ⟨"KEYS", cmdKeys, vcAclRead⟩, ⟨"SCAN", cmdScan, vcAclRead⟩,
   ⟨"INFO", cmdInfo, vcAclRead⟩,
   ⟨"SET", cmdSet, vcAclWrite⟩, ⟨"MSET", cmdMset, vcAclWrite⟩, ⟨"DEL", cmdDel, vcAclWrite⟩,
   ⟨"EXPIRE", cmdExpire, vcAclWrite⟩, ⟨"PERSIST", cmdPersist, vcAclWrite⟩,
   ⟨"RENAME", cmdRename, vcAclWrite⟩, ⟨"APPEND", cmdAppend, vcAclWrite⟩,
   ⟨"INCR", cmdIncr, vcAclWrite⟩, ⟨"DECR", cmdDecr, vcAclWrite⟩, ⟨"INCRBY", cmdIncrby2, vcAclWrite⟩,
   ⟨"DECRBY", cmdDecrby, vcAclWrite⟩,
   ⟨"FLUSHDB", cmdFlushdb, vcAclAdmin⟩, ⟨"FLUSHALL", cmdFlushdb, vcAclAdmin⟩,
   ⟨"CONFIG", cmdConfig, vcAclAdmin⟩, ⟨"DEBUG", cmdDebug, vcAclAdmin⟩, ⟨"COMMAND", cmdCommand, 0⟩,
   ⟨"CLUSTER", cmdCluster, 0⟩,
   ⟨"VCSET", cmdVcset, vcAclWrite⟩, ⟨"VCGET", cmdVcget, vcAclRead⟩, ⟨"VCINFO", cmdVcinfo, vcAclRead⟩,
   ⟨"RESET", cmdReset, 0⟩, ⟨"ACL", cmdAcl, 0⟩, ⟨"LATENCY", cmdLatency, vcAclAdmin⟩,
   ⟨"SLOWLOG", cmdSlowlog, vcAclAdmin⟩, ⟨"OBJECT", cmdObject, vcAclRead⟩, ⟨"WAIT", cmdWait, 0⟩,
   ⟨"XLEN", cmdXlen, vcAclRead⟩, ⟨"SRANDMEMBER", cmdSrandmember, vcAclRead⟩]

/-- The table entry that a command runs, if it gets that far. -/
def lookupCmd (argv : List (List UInt8)) : Option CmdEntry :=
  cmdTable.find? fun e => isWord (arg argv 0) e.name

/-- What `vc_dispatch` leaves of the server, and the answer. -/
structure Dispatched where
  srv : Srv
  answer : Answer

def vcDispatch (srv : Srv) (conn : Conn) (argv : List (List UInt8)) : Prog (Option Dispatched) :=
  if argv = [] then pure (some ⟨srv, conn, []⟩)
  else
    match lookupCmd argv with
    | none =>
      pure (some ⟨srv, conn, respWriteError (str "ERR")
        (str "unknown command — see https://voidcache.io/commands")⟩)
    | some e =>
      match (if e.aclNeeded ≠ 0 then needAuth srv conn e.aclNeeded else none) with
      | some denied => pure (some ⟨srv, conn, denied⟩)
      | none => do
        match ← e.fn srv conn argv with
        | none => pure none
        | some a => pure (some ⟨{ srv with totalCommands := (srv.totalCommands + 1) % 2 ^ 64 }, a⟩)

end VoidCache
