import VoidCache.Cluster.Refresh

/-!
# What the client takes for a redirection

`resp_read_reply` returns the text of a reply without its type, and `vc_cluster_cmd` looks for a
redirection in that text. `cmdTreat` is what it does after the reply, and `NodeReply` are the replies
a node can send. A stored value that reads like a redirection is one to the client, which goes to the
address in it with its password: `only_redirections_redirect_iff` says which replies are treated as
they should be.
-/
namespace VoidCache

/-! ## What is done with a reply -/

/-- The client has no reply, returns it, or takes it for a redirection. -/
inductive Treatment where
  | failed
  | returned (rep : List UInt8)
  | redirected (rep : List UInt8)
  deriving DecidableEq, Repr

def treatReply : Option (List UInt8) → Treatment
  | none => .failed
  | some rep => if isMoved rep then .redirected rep else .returned rep

/-- The rest of an attempt. A redirection leads to the node that it names, which is added if it is
not known, and to a refresh. -/
def cmdTreat (ni : Nat) : Treatment → ClusterProg Attempt
  | .failed => do
    setAlive ni false
    pure (.again ni)
  | .returned rep => pure (.done rep)
  | .redirected rep =>
    match movedAddr rep with
    | none => pure (.again ni)
    | some (host, port) => do
      let ni ← findOrAdd host port
      match ← vcClusterRefresh with
      | none => pure .broken
      | some _ => pure (.again ni)

/-- An attempt, put together from what is done with the reply. -/
def attemptByTreatment (cmd : List UInt8) (ni : Nat) : ClusterProg Attempt := do
  match ← connGet ni with
  | none =>
    setAlive ni false
    pure (.again ni)
  | some j =>
    if !(← sendMsg ni j (.cmd cmd)) then
      nodeConnClose ni j
      setAlive ni false
      pure (.again ni)
    else
      let rep ← readReply ni j
      nodeConnRelease ni j
      cmdTreat ni (treatReply rep)

theorem cmdAttempt_eq_byTreatment (cmd : List UInt8) (ni : Nat) :
    cmdAttempt cmd ni = attemptByTreatment cmd ni := by
  unfold cmdAttempt attemptByTreatment
  refine congrArg (connGet ni >>= ·) (funext fun got => ?_)
  cases got with
  | none => rfl
  | some j =>
    refine congrArg (sendMsg ni j (.cmd cmd) >>= ·) (funext fun (sent : Bool) => ?_)
    cases sent with
    | false => rfl
    | true =>
      refine congrArg (readReply ni j >>= ·) (funext fun (rep : Option (List UInt8)) => ?_)
      refine congrArg (nodeConnRelease ni j >>= ·) (funext fun _ => ?_)
      cases rep with
      | none => rfl
      | some rep =>
        unfold treatReply
        by_cases hmoved : isMoved rep = true
        · simp only [if_pos hmoved]
          rfl
        · simp only [if_neg hmoved]
          rfl

/-! ## The replies of a node -/

/-- What a node can send for a reply: one RESP value. -/
inductive NodeReply where
  | simple (text : List UInt8) (h : Plain text)
  | error (text : List UInt8) (h : Plain text)
  | integer (n : Int)
  | bulk (data : List UInt8) (h : data.length < 2 ^ 63)
  | nullBulk
  | array (parts : List (List UInt8)) (h : ∀ p ∈ parts, RespValue p)
  | double (text : List UInt8) (h : Plain text)
  | boolean (v : Bool)
  | null
  | map (keys values : List (List UInt8)) (hlen : keys.length = values.length)
      (hk : ∀ p ∈ keys, RespValue p) (hv : ∀ p ∈ values, RespValue p)

namespace NodeReply

def encode : NodeReply → List UInt8
  | simple text _ => 43 :: text ++ crlf
  | error text _ => 45 :: text ++ crlf
  | integer n => 58 :: decimalInt n ++ crlf
  | bulk data _ => 36 :: decimal data.length ++ crlf ++ data ++ crlf
  | nullBulk => 36 :: 45 :: 49 :: crlf
  | array parts _ => 42 :: decimal parts.length ++ crlf ++ parts.flatten
  | double text _ => 44 :: text ++ crlf
  | boolean v => 35 :: (if v then 116 else 102) :: crlf
  | null => 95 :: crlf
  | map keys values _ _ _ => 37 :: decimal keys.length ++ crlf ++ (List.zipWith (· ++ ·) keys values).flatten

theorem respValue (r : NodeReply) : RespValue r.encode := by
  cases r with
  | simple text h => exact .simple h
  | error text h => exact .error h
  | integer n => exact .integer n
  | bulk data h => exact .bulk data
  | nullBulk => exact .nullBulk
  | array parts h => exact .array parts h
  | double text h => exact .double h
  | boolean v => exact .boolean v
  | null => exact .null
  | map keys values hlen hk hv => exact .map keys values hlen hk hv

/-- They are all values of the protocol, up to its limit on lengths. -/
theorem exists_of_respValue {v : List UInt8} (hv : RespValue v) (hlen : v.length < 2 ^ 63) :
    ∃ r : NodeReply, r.encode = v := by
  cases hv with
  | simple h => exact ⟨simple _ h, rfl⟩
  | error h => exact ⟨error _ h, rfl⟩
  | integer n => exact ⟨integer n, rfl⟩
  | double h => exact ⟨double _ h, rfl⟩
  | boolean v => exact ⟨boolean v, rfl⟩
  | null => exact ⟨null, rfl⟩
  | nullBulk => exact ⟨nullBulk, rfl⟩
  | bulk data =>
    refine ⟨bulk data (lt_of_le_of_lt ?_ hlen), rfl⟩
    simp only [List.length_append, List.length_cons]
    omega
  | array parts h => exact ⟨array parts h, rfl⟩
  | map keys values hkv hk hv => exact ⟨map keys values hkv hk hv, rfl⟩

/-- The text of the reply, if it consists of one. -/
def text? : NodeReply → Option (List UInt8)
  | simple text _ => some text
  | error text _ => some text
  | integer n => some (decimalInt n)
  | bulk data _ => some data
  | _ => none

/-- An error whose text starts with `MOVED `. -/
def IsRedirection : NodeReply → Prop
  | error text _ => isMoved text = true
  | _ => False

end NodeReply

/-- Redirections, and nothing else, are followed, and every other reply is returned as it is. -/
def TreatedRight (r : NodeReply) (t : Treatment) : Prop :=
  ((∃ rep, t = .redirected rep) ↔ r.IsRedirection) ∧
    (¬ r.IsRedirection → ∃ text, r.text? = some text ∧ t = .returned text)

/-- A line with this text can be read into 1024 bytes, and there is memory for what `strdup` copies. -/
def LineFits (mallocOk : Nat → Bool) (text : List UInt8) : Prop :=
  text.length + 3 < 1024 ∧ mallocOk ((cstr text).length + 1) = true

instance (mallocOk : Nat → Bool) (text : List UInt8) : Decidable (LineFits mallocOk text) :=
  inferInstanceAs (Decidable (_ ∧ _))

/-- The replies that are treated right. -/
def NodeReply.Harmless (mallocOk : Nat → Bool) : NodeReply → Prop
  | simple text _ => LineFits mallocOk text ∧ 0 ∉ text ∧ isMoved text = false
  | error text _ => LineFits mallocOk text ∧ (0 ∈ text → isMoved text = true)
  | integer n => LineFits mallocOk (decimalInt n)
  | bulk data _ => mallocOk (data.length + 3) = true ∧ isMoved data = false
  | _ => False

/-! ## Reading replies -/

theorem cstr_append_terminator (text tl : List UInt8) : cstr (text ++ 0 :: tl) = cstr text := by
  unfold cstr
  rw [List.takeWhile_append]
  split_ifs with h
  · simpa using ((List.takeWhile_prefix _).eq_of_length h).symm
  · rfl

/-- A redirection is one before its first zero byte. -/
theorem isMoved_cstr (text : List UInt8) : isMoved (cstr text) = isMoved text := by
  unfold isMoved
  refine decide_eq_decide.mpr ⟨fun h => h.trans (List.takeWhile_prefix _), ?_⟩
  rintro ⟨rest, rfl⟩
  rw [cstr, List.takeWhile_append_of_pos (by decide +kernel)]
  exact List.prefix_append _ _

/-- A line is a reply if it is not too long. -/
theorem respReadReply_line (mallocOk : Nat → Bool) {c : UInt8} (hc : c = 43 ∨ c = 45 ∨ c = 58) {text : List UInt8}
    (hno : NoCrlf (c :: text)) (more : List UInt8) :
    (respReadReply mallocOk (c :: text ++ crlf ++ more)).1 =
      if LineFits mallocOk text then some (cstr text) else none := by
  unfold respReadReply LineFits
  by_cases hlen : text.length + 3 < 1024
  · rw [sockReadline_line [] more (by simpa using hlen) hno]
    have hreply : (replyOfLine mallocOk (c :: text ++ 0 :: 10 :: []) more).1 =
        strdup mallocOk (text ++ 0 :: 10 :: []) := by
      rcases hc with rfl | rfl | rfl <;> rfl
    simp only [hlen, true_and, List.drop_nil, if_true]
    rw [hreply, strdup, cstr_append_terminator]
  · have hlong : (sockReadline 1024 [] (c :: text ++ crlf ++ more)).ok = false :=
      sockReadline_long [] more (by simp only [List.length_cons]; omega) hno
    simp only [hlong, hlen, false_and, Bool.false_eq_true, if_false]

theorem respReadReply_bulk (mallocOk : Nat → Bool) {data : List UInt8} (hlen : data.length < 2 ^ 63)
    (more : List UInt8) :
    (respReadReply mallocOk (36 :: decimal data.length ++ crlf ++ data ++ crlf ++ more)).1 =
      if mallocOk (data.length + 3) then some data else none := by
  have hdec : (decimal data.length).length ≤ 19 := length_decimal_le (by decide) (by omega)
  have hatoll : atoll (decimal data.length ++ [0, 10]) = data.length := by
    rw [atoll, strtoll_decimal_append hlen (by simp; decide)]
  have hneg : ¬ (data.length : Int) < 0 := by omega
  rw [respReadReply, List.append_assoc, List.append_assoc, sockReadline_line [] _ (by simp; omega)
    (noCrlf_of_plain (cr_notMem_decimal (by decide) _))]
  by_cases hm : mallocOk (data.length + 3) = true
  · simp [replyOfLine, hatoll, hm, sockReadn, crlf, if_neg hneg]
    rw [List.take_take, Nat.min_eq_left (by omega), List.take_left]
  · simp [replyOfLine, hatoll, hm, if_neg hneg]

/-! ## Which replies are treated right -/

/-- What becomes of a reply that is a line. -/
theorem treatReply_line (mallocOk : Nat → Bool) {c : UInt8} (hc : c = 43 ∨ c = 45 ∨ c = 58) {text : List UInt8}
    (hno : NoCrlf (c :: text)) (more : List UInt8) :
    treatReply (respReadReply mallocOk (c :: text ++ crlf ++ more)).1 =
      if LineFits mallocOk text then
        if isMoved text then .redirected (cstr text) else .returned (cstr text)
      else .failed := by
  rw [respReadReply_line mallocOk hc hno]
  by_cases hfits : LineFits mallocOk text
  · simp only [if_pos hfits, treatReply, isMoved_cstr]
  · simp only [if_neg hfits, treatReply]

theorem treatReply_bulk (mallocOk : Nat → Bool) {data : List UInt8} (hlen : data.length < 2 ^ 63)
    (more : List UInt8) :
    treatReply (respReadReply mallocOk (36 :: decimal data.length ++ crlf ++ data ++ crlf ++ more)).1 =
      if mallocOk (data.length + 3) then
        if isMoved data then .redirected data else .returned data
      else .failed := by
  rw [respReadReply_bulk mallocOk hlen]
  cases mallocOk (data.length + 3) <;> rfl

theorem Plain.noCrlf {text : List UInt8} (h : Plain text) {c : UInt8} (hc : c ≠ 13) : NoCrlf (c :: text) :=
  (noCrlf_of_plain fun b hb => (h b hb).1).cons hc

/-- A text is copied as it is if it holds no zero byte. -/
theorem cstr_eq_self_iff (text : List UInt8) : cstr text = text ↔ 0 ∉ text := by
  refine ⟨fun h h0 => ?_, cstr_eq_self⟩
  rw [← h] at h0
  simpa using List.mem_takeWhile_imp h0

theorem decimalInt_not_moved (n : Int) : isMoved (decimalInt n) = false := by
  refine Bool.eq_false_iff.mpr fun hmoved => ?_
  have hpre : str "MOVED " <+: decimalInt n := by simpa [isMoved] using hmoved
  have hM : (77 : UInt8) ∈ decimalInt n := hpre.subset (by decide +kernel)
  rcases isDigit_or_minus hM with h | h
  · exact absurd h (by decide)
  · exact absurd h (by decide)

/-- A line that is no redirection is treated right if it is returned without a cut. -/
theorem treatedRight_line {r : NodeReply} {mallocOk : Nat → Bool} {text : List UInt8} (hr : ¬ r.IsRedirection)
    (htext : r.text? = some text) :
    TreatedRight r (if LineFits mallocOk text then
        if isMoved text then .redirected (cstr text) else .returned (cstr text) else .failed) ↔
      LineFits mallocOk text ∧ 0 ∉ text ∧ isMoved text = false := by
  unfold TreatedRight
  rw [htext]
  by_cases hfits : LineFits mallocOk text
  · by_cases hmoved : isMoved text = true
    · simp [hfits, hmoved, hr]
    · simp [hfits, hmoved, hr, ← cstr_eq_self_iff, eq_comm]
  · simp [hfits, hr]

/-- A reply is followed just if it is a redirection, and returned as it is if not, if and only if it is
a short error without zero bytes or a redirection, a short simple string without zero bytes that
does not read like one, an integer, or a bulk string that does not read like one, and there is
memory for it. -/
theorem only_redirections_redirect_iff (mallocOk : Nat → Bool) (r : NodeReply) (more : List UInt8) :
    TreatedRight r (treatReply (respReadReply mallocOk (r.encode ++ more)).1) ↔ r.Harmless mallocOk := by
  cases r with
  | simple text h =>
    unfold NodeReply.encode
    rw [treatReply_line mallocOk (.inl rfl) (h.noCrlf (by decide))]
    exact treatedRight_line (fun hr => hr) rfl
  | error text h =>
    unfold NodeReply.encode
    rw [treatReply_line mallocOk (.inr (.inl rfl)) (h.noCrlf (by decide))]
    by_cases hmoved : isMoved text = true
    · by_cases hfits : LineFits mallocOk text
      · simp [TreatedRight, NodeReply.IsRedirection, NodeReply.Harmless, hmoved, hfits]
      · simp [TreatedRight, NodeReply.IsRedirection, NodeReply.Harmless, hmoved, hfits]
    · refine (treatedRight_line (r := .error text h) hmoved rfl).trans ?_
      simp [NodeReply.Harmless, hmoved]
  | integer n =>
    have hno : NoCrlf (58 :: decimalInt n) := by
      refine NoCrlf.cons (noCrlf_of_plain fun b hb => ?_) (by decide)
      rcases isDigit_or_minus hb with h | h
      · rintro rfl
        exact absurd h (by decide)
      · rw [h]
        decide
    unfold NodeReply.encode
    rw [treatReply_line mallocOk (.inr (.inr rfl)) hno, treatedRight_line (r := .integer n) (fun hr => hr) rfl]
    simp [NodeReply.Harmless, decimalInt_not_moved, zero_notMem_decimalInt]
  | bulk data h =>
    unfold NodeReply.encode
    rw [treatReply_bulk mallocOk h]
    cases hm : mallocOk (data.length + 3) <;> cases hmoved : isMoved data <;>
      simp [TreatedRight, NodeReply.IsRedirection, NodeReply.Harmless, NodeReply.text?, hm, hmoved]
  | _ =>
    -- of these there is no text to return
    refine iff_of_false (fun hright => ?_) fun h => h
    obtain ⟨text, htext, -⟩ := hright.2 fun h => h
    cases htext

/-- A value that somebody has stored under a key. -/
def storedRedirection : List UInt8 := str "MOVED 0 evil:1"

/-- A client with a password, whose only node replies to a command with that value. -/
def steeredClient : ClusterWorld where
  cl := { seedCluster with slotMap := fun _ => 0, password := str "secret" }
  envs := fun n =>
    if n = 3 then { calmNet with delivery := .executed (respWriteBulk storedRedirection) } else calmNet
  calls := 0
  executed := []

/-- A command that reads a key. -/
def getCall : Option (List UInt8) × List UInt8 := (some (str "k"), str "*2\r\n$3\r\nGET\r\n$1\r\nk\r\n")

/-- The value is not returned: the client adds the node in it, gives it the password, and sends it the
command. -/
theorem stored_value_redirects :
    ¬ TreatedRight (.bulk storedRedirection (by decide +kernel))
        (treatReply (respReadReply (fun _ => true) (respWriteBulk storedRedirection)).1) ∧
      (cmdStep steeredClient getCall).2 = some (.ok (str "OK")) ∧
      (cmdStep steeredClient getCall).1.cl.addrs = [(str "127.0.0.1", 6379), (str "evil", 1)] ∧
      (cmdStep steeredClient getCall).1.executed =
        [(0, .auth (authCmd steeredClient.cl)), (0, .cmd getCall.2), (0, .slots),
          (1, .auth (authCmd steeredClient.cl)), (1, .slots), (1, .cmd getCall.2)] := by
  refine ⟨fun hright => ?_, by decide +kernel, by decide +kernel, by decide +kernel⟩
  obtain ⟨text, -, hreturned⟩ := hright.2 fun h => h
  have hfollowed : treatReply (respReadReply (fun _ => true) (respWriteBulk storedRedirection)).1 =
      .redirected storedRedirection := by decide +kernel
  rw [hfollowed] at hreturned
  cases hreturned

end VoidCache
