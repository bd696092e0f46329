import VoidCache.Net.Handlers

/-!
# What the handlers do

`Replies P conn p` says that whatever its calls return, the program `p` only makes calls in
`P`, appends exactly one complete RESP value, and leaves the connection as `conn`. All handlers
do, with their own `P`, except for the counters, `KEYS` and `SCAN`. For all but `VCGET` the value
is one of the version of the protocol that the connection speaks (`Speaks`). The tables at the
end say what a command may do to the connection, and which calls it may make for the permission
it needs.
-/
namespace VoidCache

/-- Calls that leave the cache as it is, but for clock bits and statistics. -/
def ReadOnly : HostReq → Prop
  | .set .. => False
  | .del _ => False
  | .flush => False
  | _ => True

/-- Any call. -/
def AnyCall : HostReq → Prop := fun _ => True

/-- The handler came back, having appended exactly one value. -/
def OneValue : Option Answer → Prop
  | some a => RespValue a.reply
  | none => False

/-- Whatever the calls return: calls in `P` only, one value, and the connection `conn`. -/
def Replies (P : HostReq → Prop) (conn : Conn) (p : Prog (Option Answer)) : Prop :=
  p.Meets P fun o => OneValue o ∧ ∀ a, o = some a → a.conn = conn

/-- The handler came back, having appended one value of the given version of the protocol. -/
def OneIn (resp3 : Bool) : Option Answer → Prop
  | some a => RespVersion resp3 a.reply
  | none => False

/-- As `Replies`, with a value of the given version of the protocol. -/
def Speaks (resp3 : Bool) (P : HostReq → Prop) (conn : Conn) (p : Prog (Option Answer)) : Prop :=
  p.Meets P fun o => OneIn resp3 o ∧ ∀ a, o = some a → a.conn = conn

theorem OneIn.oneValue {resp3 : Bool} {o : Option Answer} (h : OneIn resp3 o) : OneValue o := by
  cases o with
  | none => exact h
  | some a => exact h.value

theorem Speaks.replies {resp3 : Bool} {P : HostReq → Prop} {conn : Conn} {p : Prog (Option Answer)}
    (h : Speaks resp3 P conn p) : Replies P conn p :=
  h.mono (fun _ ha => ha) fun _ ho => ⟨ho.1.oneValue, ho.2⟩

/-- The credentials that a command presents. `AUTH` takes whole arguments, `HELLO` takes C
strings, at any place after its protocol version. -/
inductive Presents : String → List (List UInt8) → List UInt8 → List UInt8 → Prop where
  | default (cmd pw : List UInt8) : Presents "AUTH" [cmd, pw] (str "default") pw
  | auth (cmd name pw : List UInt8) : Presents "AUTH" [cmd, name, pw] name pw
  | hello {argv before after : List (List UInt8)} {a name pw : List UInt8}
      (hargv : argv.drop 2 = before ++ a :: name :: pw :: after) (ha : isWord a "AUTH") :
      Presents "HELLO" argv (cstr name) (cstr pw)

/-- A user that verified credentials of the command give. -/
def Verified (srv : Srv) (cmd : String) (argv : List (List UInt8)) (u : VcUser) : Prop :=
  ∃ name pw, Presents cmd argv name pw ∧ vcAuthVerify srv.auth name pw = some u

/-- What the command `cmd` may do to a connection. -/
structure After (srv : Srv) (cmd : String) (argv : List (List UInt8)) (conn conn' : Conn) : Prop where
  state : conn'.state = if cmd = "QUIT" then .closing else conn.state
  user : conn'.user = conn.user ∨ ∃ u, Verified srv cmd argv u ∧ conn'.user = some u

theorem After.refl {srv : Srv} {cmd : String} {argv : List (List UInt8)} {conn : Conn}
    (h : cmd ≠ "QUIT") : After srv cmd argv conn conn :=
  ⟨(if_neg h).symm, .inl rfl⟩

/-- The calls that a handler may make under the permission its table entry asks for. -/
def Allowed (acl : UInt32) : HostReq → Prop :=
  if acl = 0 then fun _ => False else if acl = vcAclRead then ReadOnly else AnyCall

/-- A code and a message that make a line `buf_printf` can write. -/
def FitsLine (code msg : List UInt8) : Prop :=
  Plain code ∧ Plain msg ∧ code.length + msg.length < 252

instance (code msg : List UInt8) : Decidable (FitsLine code msg) :=
  inferInstanceAs (Decidable (_ ∧ _))

section Guards

variable {P : HostReq → Prop} {Q : Option Answer → Prop} {srv : Srv} {conn : Conn}
  {argv : List (List UInt8)} {p : Prog (Option Answer)}

theorem needAuth_value {acl : UInt32} {e : List UInt8} (resp3 : Bool)
    (he : needAuth srv conn acl = some e) : RespVersion resp3 e := by
  unfold needAuth at he
  split_ifs at he <;> cases he
  · exact respWriteError_value (by decide) (by decide) (by decide)
  · exact respWriteError_value (by decide) (by decide) (by decide)

/-- A guard answers with one error, or lets the body run. -/
theorem meets_guarded {acl : UInt32}
    (hdenied : ∀ e, RespVersion false e → Q (some ⟨conn, e⟩)) (h : p.Meets P Q) :
    (guarded srv conn acl p).Meets P Q := by
  unfold guarded
  split
  · rename_i e he
    exact hdenied e (needAuth_value false he)
  · exact h

theorem meets_argcCheck {mn mx : Nat} (hdenied : ∀ e, RespVersion false e → Q (some ⟨conn, e⟩))
    (h : p.Meets P Q) : (argcCheck conn argv mn mx p).Meets P Q :=
  .ite (fun _ => hdenied _ (respWriteError_value (by decide) (by decide) (by decide))) fun _ => h

end Guards

namespace Speaks

variable {resp3 : Bool} {P : HostReq → Prop} {srv : Srv} {conn : Conn} {argv : List (List UInt8)}
  {p q : Prog (Option Answer)}

theorem answer {r : List UInt8} (h : RespVersion resp3 r) : Speaks resp3 P conn (conn.answer r) :=
  ⟨h, by rintro a ⟨⟩; rfl⟩

theorem err {code msg : String} (h : FitsLine (str code) (str msg)) :
    Speaks resp3 P conn (conn.err code msg) :=
  answer (respWriteError_value h.1 h.2.1 h.2.2)

theorem ok : Speaks resp3 P conn conn.ok := answer respWriteOk_value

theorem int (n : Int) : Speaks resp3 P conn (conn.int n) := answer (respWriteInteger_value n)

theorem bulk (data : List UInt8) : Speaks resp3 P conn (conn.bulk data) :=
  answer (respWriteBulk_value data)

theorem nullReply (h : conn.resp3 = true → resp3 = true) : Speaks resp3 P conn conn.nullReply :=
  answer (respWriteNullCompat_value h)

theorem emptyArray : Speaks resp3 P conn conn.emptyArray := answer (.array [] (by simp))

theorem simple {s : String} (h : Plain (str s)) (hlen : (str s).length < 253) :
    Speaks resp3 P conn (conn.simple s) := answer (respWriteSimple_value h hlen)

theorem ite {c : Prop} [Decidable c] (hp : Speaks resp3 P conn p) (hq : Speaks resp3 P conn q) :
    Speaks resp3 P conn (if c then p else q) :=
  Calls.Meets.ite (fun _ => hp) fun _ => hq

theorem guarded {acl : UInt32} (h : Speaks resp3 P conn p) :
    Speaks resp3 P conn (guarded srv conn acl p) :=
  meets_guarded (fun _ he => answer (P := P) (he.mono resp3)) h

theorem argcCheck {mn mx : Nat} (h : Speaks resp3 P conn p) :
    Speaks resp3 P conn (argcCheck conn argv mn mx p) :=
  meets_argcCheck (fun _ he => answer (P := P) (he.mono resp3)) h

/-- A call, whatever it returns. -/
theorem ask {a : HostReq} {f : a.Resp → Prog (Option Answer)} (ha : P a)
    (h : ∀ v, Speaks resp3 P conn (f v)) : Speaks resp3 P conn (Calls.ask a >>= f) :=
  Calls.Meets.ask_bind ha h

/-- A part that returns something in `Q`, and the rest for all of that. -/
theorem bind {R : Type} {p : Prog R} {Q : R → Prop} {f : R → Prog (Option Answer)}
    (hp : p.Meets P Q) (h : ∀ r, Q r → Speaks resp3 P conn (f r)) : Speaks resp3 P conn (p >>= f) :=
  Calls.Meets.bind hp h

end Speaks

/-- Any program makes some calls and returns something. -/
theorem meets_any {R : Type} (p : Prog R) : p.Meets AnyCall fun _ => True := by
  induction p with
  | ret r => trivial
  | call a next ih => exact ⟨trivial, ih⟩

/-! ## The handlers that answer with one value -/

section Handlers

variable {P : HostReq → Prop} (srv : Srv) (conn : Conn) (argv : List (List UInt8))

theorem speaks_ping : Speaks conn.resp3 P conn (cmdPing srv conn argv) :=
  .ite (.bulk _) (.simple (by decide) (by decide))

/-- Ten elements, counted as five pairs or one by one. -/
theorem respWriteHello_value (ver node : List UInt8) (resp3 : Bool) :
    RespVersion resp3 (respWriteHello ver node resp3) := by
  let keys := [respWriteBulk (str "server"), respWriteBulk (str "version"),
    respWriteBulk (str "proto"), respWriteBulk (str "id"), respWriteBulk (str "mode")]
  let values := [respWriteBulk (str "voidcache"), respWriteBulk ver,
    respWriteInteger (if resp3 then 3 else 2), respWriteBulk node, respWriteBulk (str "standalone")]
  have hk : ∀ p ∈ keys, RespVersion resp3 p := by simp [keys, respWriteBulk_value]
  have hv : ∀ p ∈ values, RespVersion resp3 p := by
    simp [values, respWriteBulk_value, respWriteInteger_value]
  cases resp3 with
  | true =>
    have hlen : keys.length = values.length := rfl
    have h := respWriteMapHeader_value (n := 5) rfl rfl hlen hk hv
    simpa [respWriteHello, keys, values] using h
  | false =>
    have hparts : ∀ p ∈ (List.zipWith (fun k v => [k, v]) keys values).flatten, RespVersion false p := by
      simp [keys, values, respWriteBulk_value, respWriteInteger_value]
    have h := respWriteArrayHeader_value (n := 10) rfl hparts
    simpa [respWriteHello, keys, values] using h

/-- The user that `HELLO` leaves is the one it found, or one it verified. -/
theorem helloAuth_user (db : AuthDb) (args : List (List UInt8)) (user : Option VcUser) :
    (helloAuth db args user).1 = user ∨
      ∃ before a name pw after u, args = before ++ a :: name :: pw :: after ∧ isWord a "AUTH" ∧
        vcAuthVerify db (cstr name) (cstr pw) = some u ∧ (helloAuth db args user).1 = some u := by
  fun_induction helloAuth db args user with
  | case1 a name pass rest user ha hv => exact .inl rfl
  | case2 a name pass rest user ha u hv ih =>
    rcases ih with h | ⟨before, a', name', pw', after, u', rfl, ha', hv', h⟩
    · exact .inr ⟨[], a, name, pass, rest, u, rfl, ha, hv, h⟩
    · exact .inr ⟨a :: name :: pass :: before, a', name', pw', after, u', rfl, ha', hv', h⟩
  | case3 a name pass rest user ha ih =>
    rcases ih with h | ⟨before, a', name', pw', after, u', heq, ha', hv', h⟩
    · exact .inl h
    · exact .inr ⟨a :: before, a', name', pw', after, u', by rw [heq]; rfl, ha', hv', h⟩
  | case4 args user h => exact .inl rfl

theorem after_hello {conn' : Conn} (hstate : conn'.state = conn.state)
    (huser : conn'.user = (helloAuth srv.auth (argv.drop 2) conn.user).1) :
    After srv "HELLO" argv conn conn' := by
  refine ⟨hstate, ?_⟩
  rcases helloAuth_user srv.auth (argv.drop 2) conn.user with h | ⟨_, _, _, _, _, u, hargv, ha, hv, h⟩
  · exact .inl (huser.trans h)
  · exact .inr ⟨u, ⟨_, _, .hello hargv ha, hv⟩, huser.trans h⟩

theorem speaks_hello :
    ∃ conn', After srv "HELLO" argv conn conn' ∧ Speaks conn'.resp3 P conn' (cmdHello srv conn argv) := by
  unfold cmdHello
  dsimp only
  generalize (if 2 ≤ argv.length then toInt32 (parseNum (arg argv 1)) else 2) = proto
  split_ifs with hproto hbad
  · exact ⟨conn, .refl (by decide), .err (by decide)⟩
  · let conn' := { conn with user := (helloAuth srv.auth (argv.drop 2) conn.user).1 }
    exact ⟨conn', after_hello srv conn argv rfl rfl, .err (by decide)⟩
  · let conn' := { conn with
      user := (helloAuth srv.auth (argv.drop 2) conn.user).1, resp3 := decide (proto = 3) }
    exact ⟨conn', after_hello srv conn argv rfl rfl, .answer (respWriteHello_value _ _ _)⟩

theorem presents_auth (h : ¬ (argv.length < 2 ∨ 3 < argv.length)) :
    Presents "AUTH" argv (if argv.length = 2 then str "default" else arg argv 1)
      (if argv.length = 2 then arg argv 1 else arg argv 2) := by
  rcases argv with _ | ⟨cmd, _ | ⟨a, _ | ⟨b, _ | ⟨c, rest⟩⟩⟩⟩
  · simp at h
  · simp at h
  · exact .default cmd a
  · exact .auth cmd a b
  · simp at h

theorem speaks_auth :
    ∃ conn', After srv "AUTH" argv conn conn' ∧ Speaks conn'.resp3 P conn' (cmdAuth srv conn argv) := by
  unfold cmdAuth
  by_cases hargc : argv.length < 2 ∨ 3 < argv.length
  · rw [if_pos hargc]
    exact ⟨conn, .refl (by decide), .err (by decide)⟩
  have hp := presents_auth argv hargc
  rw [if_neg hargc]
  dsimp only
  generalize (if argv.length = 2 then str "default" else arg argv 1) = name at hp ⊢
  generalize (if argv.length = 2 then arg argv 1 else arg argv 2) = pw at hp ⊢
  split
  · exact ⟨conn, .refl (by decide), .ok⟩
  · split
    · exact ⟨conn, .refl (by decide), .err (by decide)⟩
    · rename_i u hu
      exact ⟨{ conn with user := some u }, ⟨rfl, .inr ⟨u, ⟨name, pw, hp, hu⟩, rfl⟩⟩, .ok⟩

theorem speaks_select : Speaks conn.resp3 P conn (cmdSelect srv conn argv) :=
  .argcCheck (.ite (.err (by decide)) .ok)

theorem speaks_client : Speaks conn.resp3 P conn (cmdClient srv conn argv) := by
  refine .ite (.err (by decide)) ?_
  refine .ite .ok (.ite (.bulk _) (.ite (.int _) ?_))
  refine .ite .ok (.ite .ok (.ite .ok (.ite .ok (.ite .ok (.ite .ok (.ite .ok ?_))))))
  exact .ite (.bulk _) (.ite (.bulk _) (.err (by decide)))

theorem speaks_store (key val : List UInt8) (ttlSec : UInt32) :
    Speaks conn.resp3 AnyCall conn (storeReply conn key val ttlSec) := by
  refine .ask trivial fun r => ?_
  cases r with
  | error e => exact .err (by decide)
  | ok u => exact .ok

theorem speaks_set : Speaks conn.resp3 AnyCall conn (cmdSet srv conn argv) := by
  refine .guarded (.ite (.err (by decide)) ?_)
  refine .bind (meets_any _) fun taken _ => ?_
  refine .ite (.nullReply id) (.bind (meets_any _) fun missing _ => ?_)
  exact .ite (.nullReply id) (speaks_store ..)

theorem speaks_get : Speaks conn.resp3 ReadOnly conn (cmdGet srv conn argv) := by
  refine .guarded (.argcCheck (.ask trivial fun r => ?_))
  cases r with
  | error e =>
    cases e with
    | notFnd => exact .nullReply id
    | expired => exact .nullReply id
    | oom => exact .err (by decide)
    | full => exact .err (by decide)
    | wal => exact .err (by decide)
    | inval => exact .err (by decide)
  | ok val => exact .bulk _

theorem speaks_del : Speaks conn.resp3 AnyCall conn (cmdDel srv conn argv) :=
  .guarded (.ite (.err (by decide)) (.bind (meets_any _) fun n _ => .int n))

theorem countOk_get_meets (keys : List (List UInt8)) (n : Nat) :
    (countOk callGet keys n).Meets ReadOnly fun _ => True := by
  induction keys generalizing n with
  | nil => trivial
  | cons key keys ih => exact .ask_bind trivial fun _ => ih _

theorem speaks_exists : Speaks conn.resp3 ReadOnly conn (cmdExists srv conn argv) :=
  .guarded (.ite (.err (by decide)) (.bind (countOk_get_meets _ _) fun n _ => .int n))

theorem speaks_setAgain (key : List UInt8) (ttlSec : UInt32) :
    Speaks conn.resp3 AnyCall conn (setAgain conn key ttlSec) := by
  refine .ask trivial fun r => ?_
  cases r with
  | error e => exact .int 0
  | ok val => exact .ask trivial fun copied => .ite (.err (by decide)) (.ask trivial fun _ => .int 1)

theorem speaks_expire : Speaks conn.resp3 AnyCall conn (cmdExpire srv conn argv) :=
  .guarded (.argcCheck (speaks_setAgain ..))

theorem speaks_persist : Speaks conn.resp3 AnyCall conn (cmdPersist srv conn argv) :=
  .guarded (.argcCheck (speaks_setAgain ..))

theorem speaks_ttl : Speaks conn.resp3 ReadOnly conn (cmdTtl srv conn argv) := by
  refine .guarded (.argcCheck (.ask trivial fun r => ?_))
  cases r with
  | error e => exact .int (-2)
  | ok val => exact .int (-1)

theorem speaks_typeName (val : List UInt8) : Speaks conn.resp3 P conn (conn.simple (typeName val)) := by
  unfold typeName
  split
  · exact .simple (by decide) (by decide)
  · split_ifs <;> exact .simple (by decide) (by decide)

theorem speaks_type : Speaks conn.resp3 ReadOnly conn (cmdType srv conn argv) := by
  refine .guarded (.argcCheck (.ask trivial fun r => ?_))
  cases r with
  | error e => exact .simple (by decide) (by decide)
  | ok val => exact speaks_typeName conn val

/-- As many values as there are keys. -/
theorem mgetParts_meets (resp3 : Bool) (keys : List (List UInt8)) :
    (mgetParts resp3 keys).Meets ReadOnly
      fun parts => parts.length = keys.length ∧ ∀ p ∈ parts, RespVersion resp3 p := by
  induction keys with
  | nil => exact ⟨rfl, by simp⟩
  | cons key keys ih =>
    refine .ask_bind trivial fun r => .bind ih fun parts hparts => ⟨by simp [hparts.1], ?_⟩
    refine List.forall_mem_cons.mpr ⟨?_, hparts.2⟩
    cases r with
    | ok val => exact respWriteBulk_value val
    | error e => exact respWriteNullCompat_value id

theorem speaks_mget : Speaks conn.resp3 ReadOnly conn (cmdMget srv conn argv) := by
  refine .guarded (.ite (.err (by decide)) (.bind (mgetParts_meets _ _) fun parts h => .answer ?_))
  exact respWriteArrayHeader_value (by simp [h.1]) h.2

theorem speaks_mset : Speaks conn.resp3 AnyCall conn (cmdMset srv conn argv) :=
  .guarded (.ite (.err (by decide)) (.bind (meets_any _) fun _ _ => .ok))

theorem speaks_append : Speaks conn.resp3 AnyCall conn (cmdAppend srv conn argv) := by
  refine .guarded (.argcCheck (.ask trivial fun r => ?_))
  cases r with
  | ok val => exact .ask trivial fun copied => .ite (.err (by decide)) (.ask trivial fun _ => .int _)
  | error e => exact .ask trivial fun _ => .int _

theorem speaks_rename : Speaks conn.resp3 AnyCall conn (cmdRename srv conn argv) := by
  refine .guarded (.argcCheck (.ask trivial fun r => ?_))
  cases r with
  | error e => exact .err (by decide)
  | ok val =>
    exact .ask trivial fun copied => .ite (.err (by decide)) (.ask trivial fun _ => .ask trivial fun _ => .ok)

theorem speaks_dbsize : Speaks conn.resp3 ReadOnly conn (cmdDbsize srv conn argv) :=
  .guarded (.ask trivial fun _ => .int _)

theorem speaks_flushdb : Speaks conn.resp3 AnyCall conn (cmdFlushdb srv conn argv) :=
  .guarded (.ask trivial fun _ => .ok)

theorem speaks_info : Speaks conn.resp3 ReadOnly conn (cmdInfo srv conn argv) :=
  .guarded (.ask trivial fun _ => .bulk _)

theorem config_pairs_value (resp3 : Bool) (es : List (List UInt8 × List UInt8)) :
    RespVersion resp3 (respWriteArrayHeader (es.length * 2) ++
      es.flatMap fun e => respWriteBulk e.1 ++ respWriteBulk e.2) := by
  have hparts : ∀ p ∈ es.flatMap fun e => [respWriteBulk e.1, respWriteBulk e.2], RespVersion resp3 p := by
    intro p hp
    obtain ⟨e, -, hp⟩ := List.mem_flatMap.mp hp
    rcases List.mem_pair.mp hp with rfl | rfl <;> exact respWriteBulk_value _
  have hlen : (es.flatMap fun e => [respWriteBulk e.1, respWriteBulk e.2]).length = es.length * 2 := by
    simp [List.length_flatMap]
  have h := respWriteArrayHeader_value hlen hparts
  simpa [List.flatten_eq_flatMap, List.flatMap_assoc] using h

theorem speaks_config : Speaks conn.resp3 P conn (cmdConfig srv conn argv) :=
  .ite (.err (by decide)) (.ite (.answer (config_pairs_value _ _)) (.ite .ok (.ite .ok (.err (by decide)))))

theorem speaks_command : Speaks conn.resp3 P conn (cmdCommand srv conn argv) := by
  refine .ite .emptyArray (.ite (.int 0) (.ite ?_ (.ite (.ite .emptyArray ?_) .emptyArray)))
  · exact Calls.Meets.ite (fun h3 => Speaks.answer (.map h3 [] [] rfl (by simp) (by simp)))
      fun _ => Speaks.emptyArray
  · refine .answer (respWriteArrayHeader_value (by simp) fun p hp => ?_)
    rw [List.eq_of_mem_replicate hp]
    exact respWriteNullCompat_value id

theorem speaks_debug : Speaks conn.resp3 P conn (cmdDebug srv conn argv) := .guarded .ok

theorem speaks_quit :
    ∃ conn', After srv "QUIT" argv conn conn' ∧ Speaks conn'.resp3 P conn' (cmdQuit srv conn argv) :=
  ⟨{ conn with state := .closing }, ⟨rfl, .inl rfl⟩, .ok⟩

theorem speaks_reset :
    ∃ conn', After srv "RESET" argv conn conn' ∧ Speaks conn'.resp3 P conn' (cmdReset srv conn argv) :=
  ⟨{ conn with dbIdx := 0 }, ⟨rfl, .inl rfl⟩, .simple (by decide) (by decide)⟩

theorem speaks_vcset : Speaks conn.resp3 AnyCall conn (cmdVcset srv conn argv) := by
  refine .guarded (.ite (.err (by decide)) ?_)
  split
  · exact .err (by decide)
  · refine .ask trivial fun tb => .ite (.err (by decide)) ?_
    split
    · exact .ok
    · exact .ask trivial fun _ => .ok

theorem readAhead_meets (payload : List UInt8) (n : Nat) :
    (readAhead payload n).Meets ReadOnly fun _ => True :=
  .ite (fun _ => trivial) fun _ => .ask_bind trivial fun _ => trivial

/-- The value of a typed payload is one value, whatever the payload holds. -/
theorem vcgetParts_meets (libm : Libm) (val : List UInt8) :
    (vcgetParts libm val).Meets ReadOnly fun part => RespVersion true part.2 := by
  unfold vcgetParts
  split
  · exact respWriteBulk_value val
  · refine .ite (fun _ => ?_) fun _ => .ite (fun _ => ?_) fun _ => .ite (fun _ => ?_) fun _ =>
      .ite (fun _ => ?_) fun _ => ?_
    · exact respWriteInteger_value _
    · refine .bind (readAhead_meets _ _) fun d _ => ?_
      have hlen := libm.length_fmtG d
      exact respWriteDouble_value rfl (libm.fmtG_plain d) (by omega)
    · exact .bind (readAhead_meets _ _) fun b _ => respWriteBool_value rfl _
    · exact respWriteBulk_value _
    · exact respWriteBulk_value _

/-- `VCGET` speaks RESP3, whatever version the connection does. -/
theorem speaks_vcget : Speaks true ReadOnly conn (cmdVcget srv conn argv) := by
  refine .guarded (.argcCheck (.ask trivial fun r => ?_))
  cases r with
  | error e => exact .nullReply fun _ => rfl
  | ok val =>
    refine .bind (vcgetParts_meets _ _) fun part hpart => .answer ?_
    let keys := [respWriteBulk (str "type"), respWriteBulk (str "value")]
    let values := [respWriteBulk part.1, part.2]
    have hk : ∀ p ∈ keys, RespVersion true p := by simp [keys, respWriteBulk_value]
    have hv : ∀ p ∈ values, RespVersion true p := by simp [values, respWriteBulk_value, hpart]
    have hlen : keys.length = values.length := rfl
    have h := respWriteMapHeader_value (n := 2) rfl rfl hlen hk hv
    simpa [keys, values] using h

theorem speaks_vcinfo : Speaks conn.resp3 ReadOnly conn (cmdVcinfo srv conn argv) := by
  refine .guarded (.ask trivial fun st => .answer ?_)
  rw [respWriteVcJson, respWriteVcTyped_eq]
  exact respWriteBulk_value _

theorem cluster_slots_value (resp3 : Bool) :
    RespVersion resp3 (respWriteArrayHeader 1 ++ respWriteArrayHeader 3 ++ respWriteInteger 0 ++
      respWriteInteger 16383 ++ respWriteArrayHeader 2 ++ respWriteBulk (announced srv) ++
      respWriteInteger srv.port) := by
  have haddr : RespVersion resp3 (respWriteArrayHeader 2 ++
      [respWriteBulk (announced srv), respWriteInteger srv.port].flatten) :=
    respWriteArrayHeader_value rfl (by simp [respWriteBulk_value, respWriteInteger_value])
  have hrange : RespVersion resp3 (respWriteArrayHeader 3 ++ [respWriteInteger 0, respWriteInteger 16383,
      respWriteArrayHeader 2 ++ [respWriteBulk (announced srv), respWriteInteger srv.port].flatten].flatten) :=
    respWriteArrayHeader_value rfl (by simpa [respWriteInteger_value] using haddr)
  have hall := respWriteArrayHeader_value (n := 1) rfl (List.forall_mem_singleton.mpr hrange)
  simpa using hall

theorem speaks_cluster : Speaks conn.resp3 P conn (cmdCluster srv conn argv) :=
  .ite (.err (by decide)) (.ite (.bulk _) (.ite (.bulk _) (.ite (.bulk _)
    (.ite (.answer (cluster_slots_value srv _)) (.err (by decide))))))

theorem speaks_acl : Speaks conn.resp3 P conn (cmdAcl srv conn argv) := by
  refine .ite (.err (by decide)) (.ite (.bulk _) (.ite (.answer ?_) (.ite (.answer ?_)
    (.ite (.nullReply id) (.ite .ok (.err (by decide)))))))
  · have hcats : ∀ p ∈ [str "read", str "write", str "admin", str "pubsub"].map respWriteBulk,
        RespVersion conn.resp3 p :=
      List.forall_mem_map.mpr fun w _ => respWriteBulk_value w
    have h := respWriteArrayHeader_value (n := 4) rfl hcats
    simpa using h
  · have hrule : RespVersion conn.resp3
        (respWriteBulk (snprintfStr 128 (str "user " ++ whoami conn ++ str " on ~* &* +@all"))) :=
      respWriteBulk_value _
    have h := respWriteArrayHeader_value (n := 1) rfl (List.forall_mem_singleton.mpr hrule)
    simpa using h

theorem speaks_latency : Speaks conn.resp3 P conn (cmdLatency srv conn argv) :=
  .ite (.err (by decide)) (.ite .emptyArray (.ite .emptyArray (.ite (.int 0) (.ite (.bulk _)
    (.err (by decide))))))

theorem speaks_slowlog : Speaks conn.resp3 P conn (cmdSlowlog srv conn argv) :=
  .ite (.err (by decide)) (.ite .emptyArray (.ite (.int 0) (.ite .ok (.err (by decide)))))

theorem speaks_object : Speaks conn.resp3 P conn (cmdObject srv conn argv) :=
  .ite (.err (by decide)) (.ite (.bulk _) (.ite (.int 1) (.ite (.int 0) (.ite (.int 0)
    (.ite .emptyArray (.err (by decide)))))))

theorem speaks_wait : Speaks conn.resp3 P conn (cmdWait srv conn argv) := Speaks.int 0

theorem speaks_wrongType : Speaks conn.resp3 P conn (cmdXlen srv conn argv) := Speaks.err (by decide)

end Handlers

/-! ## The table -/

/-- The connection is the one the handler was given. -/
def KeepsConn (conn : Conn) (o : Option Answer) : Prop := ∀ a, o = some a → a.conn = conn

theorem keepsConn_answer (conn : Conn) (r : List UInt8) : KeepsConn conn (some ⟨conn, r⟩) := by
  rintro a ⟨⟩
  rfl

section Exceptions

variable {P : HostReq → Prop} {srv : Srv} {conn : Conn} {argv : List (List UInt8)}

theorem Replies.keepsConn {p : Prog (Option Answer)} (h : Replies P conn p) :
    p.Meets P (KeepsConn conn) :=
  h.mono (fun _ hp => hp) fun _ ho => ho.2

theorem keepsConn_incrby (delta : Int) :
    (cmdIncrby srv conn argv delta).Meets AnyCall (KeepsConn conn) :=
  meets_guarded (fun _ _ => keepsConn_answer conn _) <| meets_argcCheck (fun _ _ => keepsConn_answer conn _) <|
    .ask_bind trivial fun _ => .ask_bind trivial fun _ => keepsConn_answer conn _

theorem copyKey_meets (key : List UInt8) : (copyKey key).Meets ReadOnly fun _ => True :=
  .ask_bind trivial fun _ => .ite (fun _ => trivial) fun _ =>
    .ite (fun _ => trivial) fun _ => .ask_bind trivial fun _ => trivial

theorem copyKeys_meets (keys : List (List UInt8)) :
    (copyKeys keys).Meets ReadOnly fun _ => True := by
  induction keys with
  | nil => trivial
  | cons key keys ih => exact .bind (copyKey_meets key) fun _ _ => .bind ih fun _ _ => trivial

theorem keepsConn_answerKeys (keys : List (List UInt8)) (reply : List (List UInt8) → List UInt8) :
    (answerKeys conn keys reply).Meets ReadOnly (KeepsConn conn) := by
  refine .bind (copyKeys_meets keys) fun copies _ => ?_
  cases copies with
  | none => exact fun a ha => absurd ha (by simp)
  | some copies => exact keepsConn_answer conn _

theorem keepsConn_keys : (cmdKeys srv conn argv).Meets ReadOnly (KeepsConn conn) := by
  refine meets_guarded (fun _ _ => keepsConn_answer conn _) ?_
  refine meets_argcCheck (fun _ _ => keepsConn_answer conn _) ?_
  refine .ask_bind trivial fun _ => .ask_bind trivial fun _ => ?_
  refine .ite (fun _ => keepsConn_answer conn _) fun _ => ?_
  exact .ask_bind trivial fun _ => keepsConn_answerKeys _ _

theorem keepsConn_scan : (cmdScan srv conn argv).Meets ReadOnly (KeepsConn conn) := by
  refine meets_guarded (fun _ _ => keepsConn_answer conn _) ?_
  refine .ask_bind trivial fun _ => .ask_bind trivial fun _ => .ask_bind trivial fun _ => ?_
  exact .ite (fun _ a ha => absurd ha (by simp)) fun _ => keepsConn_answerKeys _ _

end Exceptions

/-- What each handler of the table does, by the kind it belongs to. -/
inductive Kind (e : CmdEntry) : Prop where
  | counter (delta : List (List UInt8) → Int)
      (hname : e.name ∈ ["INCR", "DECR", "INCRBY", "DECRBY"]) (hacl : e.aclNeeded = vcAclWrite)
      (hfn : ∀ srv conn argv, e.fn srv conn argv = cmdIncrby srv conn argv (delta argv))
  | keys (hname : e.name = "KEYS") (hacl : e.aclNeeded = vcAclRead) (hfn : e.fn = cmdKeys)
  | scan (hname : e.name = "SCAN") (hacl : e.aclNeeded = vcAclRead) (hfn : e.fn = cmdScan)
  | other (hname : e.name ∉ ["INCR", "DECR", "INCRBY", "DECRBY", "KEYS", "SCAN"])
      (hfn : ∀ srv conn argv, ∃ conn', After srv e.name argv conn conn' ∧
        Replies (Allowed e.aclNeeded) conn' (e.fn srv conn argv))

/-- What each handler says to its client, by the kind it belongs to. -/
inductive Voice (e : CmdEntry) : Prop where
  | counter (delta : List (List UInt8) → Int)
      (hname : e.name ∈ ["INCR", "DECR", "INCRBY", "DECRBY"]) (hacl : e.aclNeeded = vcAclWrite)
      (hfn : ∀ srv conn argv, e.fn srv conn argv = cmdIncrby srv conn argv (delta argv))
  | keys (hname : e.name = "KEYS") (hacl : e.aclNeeded = vcAclRead) (hfn : e.fn = cmdKeys)
  | scan (hname : e.name = "SCAN") (hacl : e.aclNeeded = vcAclRead) (hfn : e.fn = cmdScan)
  | vcget (hname : e.name = "VCGET") (hacl : e.aclNeeded = vcAclRead) (hfn : e.fn = cmdVcget)
  | other (hname : e.name ∉ ["INCR", "DECR", "INCRBY", "DECRBY", "KEYS", "SCAN"])
      (hvcget : e.name ≠ "VCGET")
      (hfn : ∀ srv conn argv, ∃ conn', After srv e.name argv conn conn' ∧
        Speaks conn'.resp3 (Allowed e.aclNeeded) conn' (e.fn srv conn argv))

theorem Voice.plain {e : CmdEntry}
    (hname : e.name ∉ ["INCR", "DECR", "INCRBY", "DECRBY", "KEYS", "SCAN"]) (hvcget : e.name ≠ "VCGET")
    (hquit : e.name ≠ "QUIT")
    (hfn : ∀ srv conn argv, Speaks conn.resp3 (Allowed e.aclNeeded) conn (e.fn srv conn argv)) : Voice e :=
  .other hname hvcget fun srv conn argv => ⟨conn, .refl hquit, hfn srv conn argv⟩

theorem voice_of_mem : ∀ e ∈ cmdTable, Voice e := by
  simp only [cmdTable, List.forall_mem_cons]
  exact ⟨
    .plain (by decide) (by decide) (by decide) speaks_ping, .other (by decide) (by decide) speaks_hello,
    .other (by decide) (by decide) speaks_auth, .plain (by decide) (by decide) (by decide) speaks_select,
    .other (by decide) (by decide) speaks_quit, .plain (by decide) (by decide) (by decide) speaks_client,
    .plain (by decide) (by decide) (by decide) speaks_get, .plain (by decide) (by decide) (by decide) speaks_mget,
    .plain (by decide) (by decide) (by decide) speaks_exists, .plain (by decide) (by decide) (by decide) speaks_ttl,
    .plain (by decide) (by decide) (by decide) speaks_ttl, .plain (by decide) (by decide) (by decide) speaks_type,
    .plain (by decide) (by decide) (by decide) speaks_dbsize, .keys rfl rfl rfl, .scan rfl rfl rfl,
    .plain (by decide) (by decide) (by decide) speaks_info, .plain (by decide) (by decide) (by decide) speaks_set,
    .plain (by decide) (by decide) (by decide) speaks_mset, .plain (by decide) (by decide) (by decide) speaks_del,
    .plain (by decide) (by decide) (by decide) speaks_expire, .plain (by decide) (by decide) (by decide) speaks_persist,
    .plain (by decide) (by decide) (by decide) speaks_rename, .plain (by decide) (by decide) (by decide) speaks_append,
    .counter (fun _ => 1) (by decide) rfl (fun _ _ _ => rfl),
    .counter (fun _ => -1) (by decide) rfl (fun _ _ _ => rfl),
    .counter _ (by decide) rfl (fun _ _ _ => rfl), .counter _ (by decide) rfl (fun _ _ _ => rfl),
    .plain (by decide) (by decide) (by decide) speaks_flushdb, .plain (by decide) (by decide) (by decide) speaks_flushdb,
    .plain (by decide) (by decide) (by decide) speaks_config, .plain (by decide) (by decide) (by decide) speaks_debug,
    .plain (by decide) (by decide) (by decide) speaks_command, .plain (by decide) (by decide) (by decide) speaks_cluster,
    .plain (by decide) (by decide) (by decide) speaks_vcset, .vcget rfl rfl rfl,
    .plain (by decide) (by decide) (by decide) speaks_vcinfo, .other (by decide) (by decide) speaks_reset,
    .plain (by decide) (by decide) (by decide) speaks_acl, .plain (by decide) (by decide) (by decide) speaks_latency,
    .plain (by decide) (by decide) (by decide) speaks_slowlog, .plain (by decide) (by decide) (by decide) speaks_object,
    .plain (by decide) (by decide) (by decide) speaks_wait, .plain (by decide) (by decide) (by decide) speaks_wrongType,
    .plain (by decide) (by decide) (by decide) speaks_wrongType, by simp⟩

theorem Voice.kind {e : CmdEntry} (h : Voice e) : Kind e := by
  cases h with
  | counter delta hname hacl hfn => exact .counter delta hname hacl hfn
  | keys hname hacl hfn => exact .keys hname hacl hfn
  | scan hname hacl hfn => exact .scan hname hacl hfn
  | vcget hname hacl hfn =>
    refine .other (by rw [hname]; decide) fun srv conn argv => ⟨conn, .refl (by rw [hname]; decide), ?_⟩
    rw [hfn, hacl]
    exact (speaks_vcget srv conn argv).replies
  | other hname _ hfn =>
    refine .other hname fun srv conn argv => ?_
    obtain ⟨conn', hafter, hs⟩ := hfn srv conn argv
    exact ⟨conn', hafter, hs.replies⟩

theorem kind_of_mem (e : CmdEntry) (he : e ∈ cmdTable) : Kind e := (voice_of_mem e he).kind

theorem After.of_eq {srv : Srv} {cmd : String} {argv : List (List UInt8)} {conn conn' : Conn}
    (hquit : cmd ≠ "QUIT") (h : conn' = conn) : After srv cmd argv conn conn' :=
  h ▸ .refl hquit

/-- A handler makes the calls its permission allows, and treats the connection as its command may. -/
theorem fn_meets {e : CmdEntry} (he : e ∈ cmdTable) (srv : Srv) (conn : Conn)
    (argv : List (List UInt8)) :
    (e.fn srv conn argv).Meets (Allowed e.aclNeeded)
      fun o => ∀ a, o = some a → After srv e.name argv conn a.conn := by
  cases kind_of_mem e he with
  | counter delta hname hacl hfn =>
    have hquit : e.name ≠ "QUIT" := by rintro h0; rw [h0] at hname; revert hname; decide
    rw [hfn, hacl]
    exact (keepsConn_incrby _).mono (fun _ h => h) fun o ho a ha => .of_eq hquit (ho a ha)
  | keys hname hacl hfn =>
    have hquit : e.name ≠ "QUIT" := by rw [hname]; decide
    rw [hfn, hacl]
    exact keepsConn_keys.mono (fun _ h => h) fun o ho a ha => .of_eq hquit (ho a ha)
  | scan hname hacl hfn =>
    have hquit : e.name ≠ "QUIT" := by rw [hname]; decide
    rw [hfn, hacl]
    exact keepsConn_scan.mono (fun _ h => h) fun o ho a ha => .of_eq hquit (ho a ha)
  | other hname hfn =>
    obtain ⟨conn', hafter, hr⟩ := hfn srv conn argv
    refine hr.keepsConn.mono (fun _ h => h) fun o ho a ha => ?_
    rw [ho a ha]
    exact hafter

/-! ## Dispatch -/

section Dispatch

variable {srv : Srv} {conn : Conn} {argv : List (List UInt8)}

/-- The table entry whose handler `vc_dispatch` executes. -/
def executed (srv : Srv) (conn : Conn) (argv : List (List UInt8)) : Option CmdEntry :=
  if argv = [] then none
  else (lookupCmd argv).filter fun e => e.aclNeeded = 0 ∨ needAuth srv conn e.aclNeeded = none

theorem executed_eq_some {e : CmdEntry} :
    executed srv conn argv = some e ↔ argv ≠ [] ∧ lookupCmd argv = some e ∧
      (e.aclNeeded = 0 ∨ needAuth srv conn e.aclNeeded = none) := by
  unfold executed
  split <;> simp_all [Option.filter_eq_some_iff]

theorem lookup_set (rest : List (List UInt8)) :
    lookupCmd (str "SET" :: rest) = some ⟨"SET", cmdSet, vcAclWrite⟩ := by
  rfl

theorem executed_set (hmay : needAuth srv conn vcAclWrite = none) (rest : List (List UInt8)) :
    executed srv conn (str "SET" :: rest) = some ⟨"SET", cmdSet, vcAclWrite⟩ :=
  executed_eq_some.mpr ⟨by simp, lookup_set rest, .inr hmay⟩

theorem mem_of_executed {e : CmdEntry} (h : executed srv conn argv = some e) : e ∈ cmdTable :=
  List.mem_of_find?_eq_some (executed_eq_some.mp h).2.1

theorem vcDispatch_of_executed {e : CmdEntry} (h : executed srv conn argv = some e) :
    vcDispatch srv conn argv = e.fn srv conn argv >>= fun o => pure (o.map fun a =>
      ⟨{ srv with totalCommands := (srv.totalCommands + 1) % 2 ^ 64 }, a⟩) := by
  obtain ⟨hne, hlookup, hok⟩ := executed_eq_some.mp h
  have hguard : (if e.aclNeeded ≠ 0 then needAuth srv conn e.aclNeeded else none) = none := by
    split
    · exact hok.resolve_left ‹_›
    · rfl
  rw [vcDispatch, if_neg hne, hlookup]
  simp only [hguard]
  congr 1
  funext o
  cases o <;> rfl

theorem vcDispatch_run {σ : Type} {exec : σ → (a : HostReq) → σ × a.Resp} {e : CmdEntry}
    (h : executed srv conn argv = some e) (s : σ) :
    (vcDispatch srv conn argv).run exec s =
      (((e.fn srv conn argv).run exec s).1, ((e.fn srv conn argv).run exec s).2.map fun a =>
        ⟨{ srv with totalCommands := (srv.totalCommands + 1) % 2 ^ 64 }, a⟩) := by
  rw [vcDispatch_of_executed h, Calls.run_bind]
  rfl

theorem vcDispatch_log {σ : Type} {exec : σ → (a : HostReq) → σ × a.Resp} {e : CmdEntry}
    (h : executed srv conn argv = some e) (s : σ) :
    (vcDispatch srv conn argv).log exec s = (e.fn srv conn argv).log exec s := by
  rw [vcDispatch_of_executed h, Calls.log_bind_pure]

/-- A command that the user may not give. -/
theorem vcDispatch_of_denied {e : CmdEntry} {denied : List UInt8} (hlookup : lookupCmd argv = some e)
    (hne : argv ≠ []) (hacl : e.aclNeeded ≠ 0) (hdenied : needAuth srv conn e.aclNeeded = some denied) :
    vcDispatch srv conn argv = pure (some ⟨srv, conn, denied⟩) := by
  rw [vcDispatch, if_neg hne, hlookup]
  simp only [if_pos hacl, hdenied]

/-- A command that no handler is executed for makes no call, leaves the connection and is
answered with RESP2 values. -/
theorem vcDispatch_of_not_executed (h : executed srv conn argv = none) :
    ∃ r, RespValues false r ∧ vcDispatch srv conn argv = pure (some ⟨srv, conn, r⟩) := by
  by_cases hne : argv = []
  · exact ⟨[], ⟨[], by simp, rfl⟩, by rw [vcDispatch, if_pos hne]⟩
  rw [vcDispatch, if_neg hne]
  cases hlookup : lookupCmd argv with
  | none =>
    have hvalue : RespVersion false (respWriteError (str "ERR")
        (str "unknown command — see https://voidcache.io/commands")) :=
      respWriteError_value (by decide) (by decide) (by decide)
    exact ⟨_, hvalue.values, rfl⟩
  | some e =>
    cases hguard : (if e.aclNeeded ≠ 0 then needAuth srv conn e.aclNeeded else none) with
    | some denied =>
      have hdenied : needAuth srv conn e.aclNeeded = some denied := by
        split_ifs at hguard
        exact hguard
      exact ⟨denied, (needAuth_value false hdenied).values, by simp only [hguard]⟩
    | none =>
      have hok : e.aclNeeded = 0 ∨ needAuth srv conn e.aclNeeded = none := by
        split_ifs at hguard with h0
        · exact .inr hguard
        · exact .inl (not_not.mp h0)
      simp [executed_eq_some.mpr ⟨hne, hlookup, hok⟩] at h

/-- What a dispatch does: the calls its handler is allowed, and to the connection what its
command may do. -/
theorem vcDispatch_meets (srv : Srv) (conn : Conn) (argv : List (List UInt8)) :
    (vcDispatch srv conn argv).Meets
      (fun a => ∃ e, executed srv conn argv = some e ∧ Allowed e.aclNeeded a)
      fun o => ∀ d, o = some d → d.srv.auth = srv.auth ∧
        match executed srv conn argv with
        | none => d.answer.conn = conn
        | some e => After srv e.name argv conn d.answer.conn := by
  cases h : executed srv conn argv with
  | none =>
    obtain ⟨r, -, hr⟩ := vcDispatch_of_not_executed h
    rw [hr]
    rintro d ⟨⟩
    exact ⟨rfl, rfl⟩
  | some e =>
    rw [vcDispatch_of_executed h]
    have hfn := (fn_meets (mem_of_executed h) srv conn argv).mono
      (fun a ha => (⟨e, rfl, ha⟩ : ∃ e', some e = some e' ∧ Allowed e'.aclNeeded a)) fun _ ho => ho
    refine hfn.bind fun o ho d hd => ?_
    obtain ⟨a, rfl, rfl⟩ := Option.map_eq_some_iff.mp hd
    exact ⟨rfl, ho a rfl⟩

end Dispatch

end VoidCache
