import VoidCache.Net.Auth
import VoidCache.Net.Host
import VoidCache.Net.Reply

/-!
# The server and a connection, as command handlers see them

What the handlers read and write of `vcserver_t` and `vc_conn_t`, the libc conversions of
doubles that two of them use, and the guards that most of them start with. A handler is given
the arguments as the byte strings that `argv` and `argl` delimit, each followed by a zero.
-/
namespace VoidCache

/-- The libc conversions between doubles, given by their eight bytes, and text. -/
structure Libm where
  strtod : List UInt8 → List UInt8
  fmtG : List UInt8 → List UInt8
  length_strtod : ∀ s, (strtod s).length = 8
  fmtG_plain : ∀ d, Plain (fmtG d)
  length_fmtG : ∀ d, (fmtG d).length ≤ 32

structure Srv where
  auth : AuthDb
  libm : Libm
  nodeId : List UInt8
  clusterEnabled : Bool
  announceAddr : Option (List UInt8)
  announcePort : Nat
  port : Nat
  maxMemory : Nat
  totalConns : Nat
  totalCommands : Nat

inductive ConnState where
  | free | connected | tlsHand | authed | closing
  deriving DecidableEq, Repr

structure Conn where
  fd : Int
  state : ConnState
  resp3 : Bool
  user : Option VcUser
  dbIdx : Int
  peerAddr : List UInt8
  peerPort : Nat
  deriving DecidableEq

/-- A server with the given users and its other settings at their defaults. -/
def Srv.plain (auth : AuthDb) : Srv where
  auth := auth
  libm :=
    { strtod _ := List.replicate 8 0
      fmtG _ := str "0"
      length_strtod _ := rfl
      fmtG_plain _ := by decide
      length_fmtG _ := by decide }
  nodeId := str "0123456789abcdef"
  clusterEnabled := false
  announceAddr := none
  announcePort := 0
  port := 6379
  maxMemory := 268435456
  totalConns := 1
  totalCommands := 0

/-- A server that asks nobody for a password. -/
def openServer : Srv := .plain ⟨[], false, by decide⟩

/-- A connection as `conn_alloc` leaves it. -/
def freshConn : Conn := ⟨7, .connected, false, none, 0, str "127.0.0.1", 50000⟩

/-- What a handler leaves: the connection, and the bytes appended to its output buffer. -/
structure Answer where
  conn : Conn
  reply : List UInt8
  deriving DecidableEq

/-- `none` stands for a crash: a store through a null pointer. -/
abbrev Handler := Srv → Conn → List (List UInt8) → Prog (Option Answer)

def Conn.answer (conn : Conn) (reply : List UInt8) : Prog (Option Answer) :=
  pure (some ⟨conn, reply⟩)

def Conn.err (conn : Conn) (code msg : String) : Prog (Option Answer) :=
  conn.answer (respWriteError (str code) (str msg))

def Conn.ok (conn : Conn) : Prog (Option Answer) := conn.answer respWriteOk

def Conn.int (conn : Conn) (n : Int) : Prog (Option Answer) := conn.answer (respWriteInteger n)

def Conn.bulk (conn : Conn) (data : List UInt8) : Prog (Option Answer) :=
  conn.answer (respWriteBulk data)

def Conn.nullReply (conn : Conn) : Prog (Option Answer) :=
  conn.answer (respWriteNullCompat conn.resp3)

def Conn.simple (conn : Conn) (s : String) : Prog (Option Answer) :=
  conn.answer (respWriteSimple (str s))

/-- An array with no elements. -/
def Conn.emptyArray (conn : Conn) : Prog (Option Answer) := conn.answer (respWriteArrayHeader 0)

/-! ## Guards -/

def noAuth : List UInt8 :=
  respWriteError (str "NOAUTH") (str "Authentication required. Use AUTH command.")

def noPerm : List UInt8 :=
  respWriteError (str "NOPERM") (str "Permission denied for this command.")

/-- `need_auth`: the error it writes when it returns true. -/
def needAuth (srv : Srv) (conn : Conn) (acl : UInt32) : Option (List UInt8) :=
  if !srv.auth.requireAuth then none
  else if conn.user = none then some noAuth
  else if !vcAclCheck conn.user acl then some noPerm
  else none

/-- `if (need_auth(srv, conn, acl)) return;` before a handler's body. -/
def guarded (srv : Srv) (conn : Conn) (acl : UInt32) (body : Prog (Option Answer)) :
    Prog (Option Answer) :=
  match needAuth srv conn acl with
  | some e => conn.answer e
  | none => body

/-- `ARGC_CHECK`. -/
def argcCheck (conn : Conn) (argv : List (List UInt8)) (mn mx : Nat) (body : Prog (Option Answer)) :
    Prog (Option Answer) :=
  if argv.length - 1 < mn ∨ mx < argv.length - 1 then conn.err "ERR" "wrong number of arguments"
  else body

/-- `argv[i]`. -/
def arg (argv : List (List UInt8)) (i : Nat) : List UInt8 := argv.getD i []

/-- The value that `parse_int64` of the commands leaves; its callers ignore what it returns. -/
def parseNum (s : List UInt8) : Int := (strtoll (cstr s)).value

/-- `(int)v` -/
def toInt32 (v : Int) : Int :=
  if v % 2 ^ 32 < 2 ^ 31 then v % 2 ^ 32 else v % 2 ^ 32 - 2 ^ 32

/-- `(uint32_t)v` -/
def toUInt32 (v : Int) : UInt32 := UInt32.ofNat (v % 2 ^ 32).toNat

/-- The sum of two `int64_t`, which wraps. -/
def addInt64 (a b : Int) : Int := toInt64 ((a + b) % 2 ^ 64).toNat

theorem addInt64_eq {a b : Int} (hge : -2 ^ 63 ≤ a + b) (hlt : a + b < 2 ^ 63) : addInt64 a b = a + b :=
  toInt64_emod hge hlt

/-- `snprintf` into `size` bytes, read back as a string. -/
def snprintfStr (size : Nat) (text : List UInt8) : List UInt8 := text.take (size - 1)

/-- Whether an argument is a given word, in any letter case. -/
def isWord (a : List UInt8) (w : String) : Bool := strcaseeq a (str w)

/-- Words that are equal but for the letter case are equal to the same words. -/
theorem isWord_congr {name : List UInt8} {w : String} (h : isWord name w = true) (w' : String) :
    isWord name w' = isWord (str w) w' := by
  unfold isWord strcaseeq at h ⊢
  rw [beq_iff_eq.mp h]

end VoidCache
