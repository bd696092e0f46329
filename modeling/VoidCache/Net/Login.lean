import VoidCache.Net.Access
import VoidCache.Net.WriteReply

/-!
# HELLO and AUTH

Both commands can authenticate a connection. `AUTH` takes its two arguments as they are, `HELLO`
takes them as C strings, which end at the first zero byte. `HELLO` also sets the user clause by
clause, so a clause that is refused finds the user of the clauses before it already set.
-/
namespace VoidCache

/-- The command is accepted, and the connection has this user then. -/
def LogsIn (p : Prog (Option Answer)) (h : Host) (u : VcUser) : Prop :=
  ∃ a, (p.run hostExec h).2 = some a ∧ ¬ IsErrorReply a.reply ∧ a.conn.user = some u

/-- The first user of the table with these credentials. -/
def AuthDb.First (db : AuthDb) (name pass : List UInt8) (u : VcUser) : Prop :=
  db.Valid name pass u ∧ ∃ before after, db.users = before ++ u :: after ∧
    ∀ x ∈ before, ¬ db.Valid name pass x

/-- A version of the protocol that `HELLO` knows. -/
def Supported (v : List UInt8) : Prop := toInt32 (parseNum v) = 2 ∨ toInt32 (parseNum v) = 3

instance (v : List UInt8) : Decidable (Supported v) := inferInstanceAs (Decidable (_ ∨ _))

section Accepted

variable {db : AuthDb} {name pass : List UInt8} {u : VcUser}

theorem valid_iff {x : VcUser} (hx : x ∈ db.users) :
    (x.enabled && cstr x.username == name && x.pwSha256 == vcSha256 pass) = true ↔
      db.Valid name pass x := by
  simp [AuthDb.Valid, hx, and_assoc]

/-- `vc_auth_verify` finds the first user with the credentials. -/
theorem vcAuthVerify_eq_some (hreq : db.requireAuth = true) :
    vcAuthVerify db name pass = some u ↔ db.First name pass u := by
  simp only [vcAuthVerify, hreq, Bool.not_true, Bool.false_eq_true, if_false]
  rw [List.find?_eq_some_iff_append]
  constructor
  · rintro ⟨htest, before, after, husers, hbefore⟩
    have hu : u ∈ db.users := by rw [husers]; simp
    refine ⟨(valid_iff hu).mp htest, before, after, husers, fun x hx hvalid => ?_⟩
    have hxu : x ∈ db.users := by rw [husers]; simp [hx]
    have hnot := hbefore x hx
    rw [(valid_iff hxu).mpr hvalid] at hnot
    cases hnot
  · rintro ⟨hvalid, before, after, husers, hbefore⟩
    refine ⟨(valid_iff hvalid.1).mpr hvalid, before, after, husers, fun x hx => ?_⟩
    have hxu : x ∈ db.users := by rw [husers]; simp [hx]
    rw [Bool.not_eq_true', ← Bool.not_eq_true]
    exact fun htest => hbefore x hx ((valid_iff hxu).mp htest)

variable {srv : Srv} {conn : Conn} {h : Host}

theorem logsIn_pure {a : Answer} :
    LogsIn (pure (some a)) h u ↔ ¬ IsErrorReply a.reply ∧ a.conn.user = some u := by
  constructor
  · rintro ⟨a, ha, hok, hu⟩
    cases ha
    exact ⟨hok, hu⟩
  · exact fun ⟨hok, hu⟩ => ⟨_, rfl, hok, hu⟩

theorem wrongpass_isError :
    IsErrorReply (respWriteError (str "WRONGPASS") (str "Invalid username or password")) := by
  decide +kernel

theorem noproto_isError :
    IsErrorReply (respWriteError (str "NOPROTO") (str "unsupported protocol version")) := by
  decide +kernel

theorem respWriteHello_not_error (ver node : List UInt8) (resp3 : Bool) :
    ¬ IsErrorReply (respWriteHello ver node resp3) := by
  cases resp3 <;> simp [IsErrorReply, respWriteHello, respWriteMapHeader, respWriteArrayHeader]

/-- `AUTH name pass` authenticates as the first user with these credentials. -/
theorem logsIn_auth (hreq : srv.auth.requireAuth = true) (cmd : List UInt8) :
    LogsIn (cmdAuth srv conn [cmd, name, pass]) h u ↔ srv.auth.First name pass u := by
  rw [← vcAuthVerify_eq_some hreq]
  simp only [cmdAuth, List.length_cons, List.length_nil, hreq, Bool.not_true, arg]
  cases hv : vcAuthVerify srv.auth name pass with
  | none =>
    simp [hv, Conn.err, Conn.answer, logsIn_pure, wrongpass_isError]
  | some u' =>
    simp [hv, Conn.ok, Conn.answer, logsIn_pure, show ¬ IsErrorReply respWriteOk by decide]

/-! ## The clauses of HELLO -/

/-- The name and password of each `AUTH` clause, from one argument on. -/
def helloPairs : List (List UInt8) → List (List UInt8 × List UInt8)
  | a :: name :: pass :: rest =>
    if isWord a "AUTH" then (name, pass) :: helloPairs rest else helloPairs (name :: pass :: rest)
  | _ => []

/-- The users of the clauses, up to the first that is refused. -/
def acceptedUsers (db : AuthDb) : List (List UInt8 × List UInt8) → List VcUser
  | [] => []
  | p :: ps =>
    match vcAuthVerify db (cstr p.1) (cstr p.2) with
    | none => []
    | some u => u :: acceptedUsers db ps

theorem acceptedUsers_cons_some (ps : List (List UInt8 × List UInt8))
    (hv : vcAuthVerify db (cstr name) (cstr pass) = some u) :
    acceptedUsers db ((name, pass) :: ps) = u :: acceptedUsers db ps := by
  simp only [acceptedUsers, hv]

theorem acceptedUsers_cons_none (ps : List (List UInt8 × List UInt8))
    (hv : vcAuthVerify db (cstr name) (cstr pass) = none) : acceptedUsers db ((name, pass) :: ps) = [] := by
  simp only [acceptedUsers, hv]

/-- The last user that was accepted is set, or the user stays. -/
theorem helloAuth_eq (args : List (List UInt8)) (user : Option VcUser) :
    helloAuth db args user =
      ((acceptedUsers db (helloPairs args)).getLast?.or user,
        decide ((acceptedUsers db (helloPairs args)).length = (helloPairs args).length)) := by
  induction args, user using helloAuth.induct db with
  | case1 a name pass rest user hauth hnone =>
    rw [helloAuth, helloPairs, if_pos hauth, if_pos hauth]
    simp [hnone, acceptedUsers_cons_none]
  | case2 a name pass rest user hauth u hsome ih =>
    rw [helloAuth, helloPairs, if_pos hauth, if_pos hauth]
    rw [acceptedUsers_cons_some _ hsome, List.getLast?_cons]
    simp only [hsome, ih, List.length_cons, Nat.add_right_cancel_iff]
    cases (acceptedUsers db (helloPairs rest)).getLast? <;> rfl
  | case3 a name pass rest user hauth ih =>
    rw [helloAuth, helloPairs, if_neg hauth, if_neg hauth]
    exact ih
  | case4 args user hshort =>
    rw [helloAuth, helloPairs]
    · rfl
    · exact hshort
    · exact hshort

/-- The version that `HELLO` is asked for. -/
def helloVersion (argv : List (List UInt8)) : Int :=
  if 2 ≤ argv.length then toInt32 (parseNum (arg argv 1)) else 2

/-- What `HELLO` leaves. -/
def helloAnswer (srv : Srv) (conn : Conn) (argv : List (List UInt8)) : Answer :=
  let users := acceptedUsers srv.auth (helloPairs (argv.drop 2))
  if helloVersion argv ≠ 2 ∧ helloVersion argv ≠ 3 then
    ⟨conn, respWriteError (str "NOPROTO") (str "unsupported protocol version")⟩
  else if users.length = (helloPairs (argv.drop 2)).length then
    ⟨{ conn with user := users.getLast?.or conn.user, resp3 := decide (helloVersion argv = 3) },
      respWriteHello vcServerVersion (cstr srv.nodeId) (decide (helloVersion argv = 3))⟩
  else
    ⟨{ conn with user := users.getLast?.or conn.user },
      respWriteError (str "WRONGPASS") (str "Invalid username or password")⟩

theorem cmdHello_eq (argv : List (List UInt8)) :
    cmdHello srv conn argv = pure (some (helloAnswer srv conn argv)) := by
  unfold cmdHello helloAnswer
  dsimp only
  rw [helloAuth_eq, ← helloVersion]
  split_ifs with hversion haccepted <;> simp_all [Conn.err, Conn.answer]

/-- `HELLO v AUTH name pass` authenticates as the first user with the credentials up to their first
zero bytes, if it knows the version. -/
theorem logsIn_hello (hreq : srv.auth.requireAuth = true) (cmd v : List UInt8) :
    LogsIn (cmdHello srv conn [cmd, v, str "AUTH", name, pass]) h u ↔
      Supported v ∧ srv.auth.First (cstr name) (cstr pass) u := by
  have hpairs : helloPairs [str "AUTH", name, pass] = [(name, pass)] := rfl
  have hversion : helloVersion [cmd, v, str "AUTH", name, pass] = toInt32 (parseNum v) := rfl
  rw [← vcAuthVerify_eq_some hreq, cmdHello_eq, logsIn_pure, helloAnswer, Supported, hversion]
  simp only [List.drop_succ_cons, List.drop_zero, hpairs]
  by_cases hv : toInt32 (parseNum v) ≠ 2 ∧ toInt32 (parseNum v) ≠ 3
  · rw [if_pos hv]
    simp only [noproto_isError, not_true_eq_false, false_and, false_iff]
    rintro ⟨hs, -⟩
    exact hs.elim hv.1 hv.2
  · rw [if_neg hv, and_iff_right (show toInt32 (parseNum v) = 2 ∨ toInt32 (parseNum v) = 3 by tauto)]
    cases hu : vcAuthVerify srv.auth (cstr name) (cstr pass) with
    | none => simp [acceptedUsers_cons_none _ hu, wrongpass_isError]
    | some u' =>
      have hone : acceptedUsers srv.auth [(name, pass)] = [u'] := acceptedUsers_cons_some [] hu
      simp [hone, respWriteHello_not_error]

/-! ## Refused commands -/

/-- A refused `AUTH` changes nothing. -/
theorem auth_refused {argv : List (List UInt8)} {a : Answer}
    (ha : ((cmdAuth srv conn argv).run hostExec h).2 = some a) (herr : IsErrorReply a.reply) :
    a.conn = conn := by
  unfold cmdAuth at ha
  dsimp only at ha
  split_ifs at ha with hargc hreq
  · cases ha
    rfl
  · cases ha
    rfl
  all_goals
    split at ha
    · cases ha
      rfl
    · cases ha
      exact absurd herr (by decide : ¬ IsErrorReply respWriteOk)

/-- A refused `HELLO` keeps the version; it keeps the user too if the last clause that was accepted,
if there is one, is for that user. -/
theorem hello_refused {argv : List (List UInt8)} {a : Answer}
    (ha : ((cmdHello srv conn argv).run hostExec h).2 = some a) (herr : IsErrorReply a.reply) :
    a.conn.resp3 = conn.resp3 ∧ (a.conn.user = conn.user ↔
      helloVersion argv ≠ 2 ∧ helloVersion argv ≠ 3 ∨
        ∀ u, (acceptedUsers srv.auth (helloPairs (argv.drop 2))).getLast? = some u → conn.user = some u) := by
  rw [cmdHello_eq] at ha
  obtain rfl : helloAnswer srv conn argv = a := Option.some.inj ha
  unfold helloAnswer at herr ⊢
  dsimp only at herr ⊢
  split_ifs at herr ⊢ with hversion haccepted
  · simp [hversion]
  · exact absurd herr (respWriteHello_not_error _ _ _)
  · refine ⟨rfl, ?_⟩
    simp only [hversion, false_or]
    cases (acceptedUsers srv.auth (helloPairs (argv.drop 2))).getLast? with
    | none => simp
    | some u => simp [eq_comm]

end Accepted

/-- With `require_auth`, the two commands accept the same users if and only if the version is known
(or `AUTH` accepts nobody) and the first user with the credentials is also the first with the
credentials up to their zero bytes. A refused `AUTH` keeps user and version; a refused `HELLO` keeps
the version, and the user if and only if it does not get to the clauses, or if the last clause that
it accepts before it fails, if there is one, is for that user. -/
theorem hello_auth_agree (srv : Srv) (conn : Conn) (h : Host) :
    (srv.auth.requireAuth = true → ∀ hello auth v name pass : List UInt8,
      (∀ u, LogsIn (cmdHello srv conn [hello, v, str "AUTH", name, pass]) h u ↔
          LogsIn (cmdAuth srv conn [auth, name, pass]) h u) ↔
        ∀ u, Supported v ∧ srv.auth.First (cstr name) (cstr pass) u ↔ srv.auth.First name pass u) ∧
    (∀ argv a, ((cmdAuth srv conn argv).run hostExec h).2 = some a → IsErrorReply a.reply →
      a.conn.user = conn.user ∧ a.conn.resp3 = conn.resp3) ∧
    (∀ argv a, ((cmdHello srv conn argv).run hostExec h).2 = some a → IsErrorReply a.reply →
      (a.conn.user = conn.user ∧ a.conn.resp3 = conn.resp3 ↔
        helloVersion argv ≠ 2 ∧ helloVersion argv ≠ 3 ∨
          ∀ u, (acceptedUsers srv.auth (helloPairs (argv.drop 2))).getLast? = some u →
            conn.user = some u)) := by
  refine ⟨fun hreq hello auth v name pass => ?_, fun argv a ha herr => ?_, fun argv a ha herr => ?_⟩
  · simp only [logsIn_hello hreq, logsIn_auth hreq]
  · rw [auth_refused ha herr]
    exact ⟨rfl, rfl⟩
  · obtain ⟨hversion, huser⟩ := hello_refused ha herr
    rw [and_iff_left hversion, huser]

theorem reader_first : readerSlot.srv.auth.First (str "reader") (str "secret") reader :=
  ⟨⟨List.mem_singleton_self _, rfl, by decide +kernel, rfl⟩, [], [], rfl, by simp⟩

/-- Without zero bytes the condition on the credentials is met. -/
theorem hello_auth_agree_reader :
    LogsIn (cmdAuth readerSlot.srv freshConn [str "AUTH", str "reader", str "secret"]) newHost reader ∧
      LogsIn (cmdHello readerSlot.srv freshConn
        [str "HELLO", str "3", str "AUTH", str "reader", str "secret"]) newHost reader := by
  have hauth := (@logsIn_auth (str "reader") (str "secret") reader readerSlot.srv freshConn newHost rfl
    (str "AUTH")).mpr reader_first
  refine ⟨hauth, (((hello_auth_agree readerSlot.srv freshConn newHost).1 rfl (str "HELLO") (str "AUTH")
    (str "3") (str "reader") (str "secret")).mpr fun u => ?_) reader |>.mpr hauth⟩
  rw [show cstr (str "reader") = str "reader" by decide +kernel,
    show cstr (str "secret") = str "secret" by decide +kernel]
  exact and_iff_right (by decide +kernel)

/-- A password with a zero byte that only `HELLO` accepts, and a refused `HELLO` that leaves an
anonymous connection with a user. -/
theorem hello_auth_differ :
    readerSlot.srv.auth.requireAuth = true ∧
    LogsIn (cmdHello readerSlot.srv freshConn
      [str "HELLO", str "3", str "AUTH", str "reader", str "secret" ++ [0, 120]]) newHost reader ∧
    ¬ LogsIn (cmdAuth readerSlot.srv freshConn
      [str "AUTH", str "reader", str "secret" ++ [0, 120]]) newHost reader ∧
    ∃ a, ((cmdHello readerSlot.srv freshConn [str "HELLO", str "3", str "AUTH", str "reader",
        str "secret", str "AUTH", str "nobody", str "secret"]).run hostExec newHost).2 = some a ∧
      IsErrorReply a.reply ∧ a.conn.user = some reader ∧ freshConn.user = none := by
  have hname : cstr (str "reader") = str "reader" := by decide +kernel
  have hpass : cstr (str "secret") = str "secret" := by decide +kernel
  have hcut : cstr (str "secret" ++ [0, 120]) = str "secret" := by decide +kernel
  refine ⟨rfl, (logsIn_hello rfl _ _).mpr ⟨by decide +kernel, ?_⟩, ?_, ?_⟩
  · rw [hname, hcut]
    exact reader_first
  · rw [logsIn_auth rfl]
    rintro ⟨hvalid, -⟩
    exact absurd hvalid.2.2.2 (by decide +kernel)
  · have haccepted : acceptedUsers readerSlot.srv.auth
        [(str "reader", str "secret"), (str "nobody", str "secret")] = [reader] := by
      have hnobody : vcAuthVerify readerSlot.srv.auth (cstr (str "nobody")) (cstr (str "secret")) = none := by
        rw [Option.eq_none_iff_forall_ne_some]
        intro u hu
        obtain ⟨hmem, -, hnamed, -⟩ := ((vcAuthVerify_eq_some rfl).mp hu).1
        rw [List.mem_singleton.mp hmem] at hnamed
        exact absurd hnamed (by decide +kernel)
      have hreader : vcAuthVerify readerSlot.srv.auth (cstr (str "reader")) (cstr (str "secret")) =
          some reader := by
        rw [hname, hpass]
        exact (vcAuthVerify_eq_some rfl).mpr reader_first
      rw [acceptedUsers_cons_some _ hreader, acceptedUsers_cons_none _ hnobody]
    have hpairs : helloPairs [str "AUTH", str "reader", str "secret", str "AUTH", str "nobody",
        str "secret"] = [(str "reader", str "secret"), (str "nobody", str "secret")] := rfl
    have hversion : helloVersion [str "HELLO", str "3", str "AUTH", str "reader", str "secret",
        str "AUTH", str "nobody", str "secret"] = 3 := by decide +kernel
    rw [cmdHello_eq, helloAnswer, hversion]
    simp only [List.drop_succ_cons, List.drop_zero, hpairs, haccepted]
    exact ⟨_, rfl, wrongpass_isError, rfl, rfl⟩

end VoidCache
