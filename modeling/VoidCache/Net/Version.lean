import VoidCache.Net.Access
import VoidCache.Net.OneReply

/-!
# The version of the protocol

A connection speaks RESP2 until it has sent `HELLO 3`. Until then, all that the server appends
are RESP2 values, unless the connection sends `VCGET` for a key that is there: the reply is a
map, which only RESP3 has (`protocol_version_respected`).
-/
namespace VoidCache

/-- No RESP2 value starts as a map does. -/
theorem not_respValues_map (w : List UInt8) : ¬ RespValues false (37 :: w) := by
  rintro ⟨parts, hparts, heq⟩
  cases parts with
  | nil => cases heq
  | cons p parts =>
    cases hparts p (by simp) with
    | double h3 | boolean h3 | null h3 | map h3 => cases h3
    | simple | error | integer | nullBulk | bulk | array => cases heq

/-! ## The handlers -/

/-- If the handler comes back, it has appended RESP2 values. -/
def SaysResp2 (o : Option Answer) : Prop := ∀ a, o = some a → RespValues false a.reply

section Handlers

variable {srv : Srv} {conn : Conn} {argv : List (List UInt8)} {h : Host}

theorem saysResp2_answer {r : List UInt8} (hr : RespValues false r) : SaysResp2 (some ⟨conn, r⟩) := by
  rintro a ⟨⟩
  exact hr

/-- Both values of a counter are of RESP2. -/
theorem saysResp2_incrby (delta : Int) :
    (cmdIncrby srv conn argv delta).Meets AnyCall SaysResp2 := by
  refine meets_guarded (fun e he => saysResp2_answer he.values) ?_
  refine meets_argcCheck (fun e he => saysResp2_answer he.values) ?_
  refine .ask_bind trivial fun r => .ask_bind trivial fun _ => saysResp2_answer ?_
  rw [respWriteVcInt64, respWriteVcTyped_eq]
  exact (respWriteBulk_value _).values_append (respWriteInteger_value _)

theorem saysResp2_answerKeys (keys : List (List UInt8)) {reply : List (List UInt8) → List UInt8}
    (hreply : ∀ copies, RespVersion false (reply copies)) :
    (answerKeys conn keys reply).Meets ReadOnly SaysResp2 := by
  refine .bind (copyKeys_meets keys) fun copies _ => ?_
  cases copies with
  | none => exact fun a ha => absurd ha (by simp)
  | some copies => exact saysResp2_answer (hreply copies).values

theorem saysResp2_keys : (cmdKeys srv conn argv).Meets ReadOnly SaysResp2 := by
  refine meets_guarded (fun e he => saysResp2_answer he.values) ?_
  refine meets_argcCheck (fun e he => saysResp2_answer he.values) ?_
  refine .ask_bind trivial fun _ => .ask_bind trivial fun _ => .ite (fun _ => ?_) fun _ => ?_
  · exact saysResp2_answer
      (respWriteError_value (by decide) (by decide) (by decide) : RespVersion false _).values
  · exact .ask_bind trivial fun _ => saysResp2_answerKeys _ (bulks_value false)

theorem saysResp2_scan : (cmdScan srv conn argv).Meets ReadOnly SaysResp2 := by
  refine meets_guarded (fun e he => saysResp2_answer he.values) ?_
  refine .ask_bind trivial fun _ => .ask_bind trivial fun _ => .ask_bind trivial fun _ => ?_
  exact .ite (fun _ a ha => absurd ha (by simp)) fun _ => saysResp2_answerKeys _ (scan_value false _)

/-- `VCGET` finds its key. -/
def VcgetFinds (argv : List (List UInt8)) (h : Host) : Prop :=
  argv.length - 1 = 1 ∧ ∃ val, (h.get (arg argv 1)).2 = .ok val

/-- `VCGET` answers as its connection expects, or with a map. -/
theorem vcget_answer (argv : List (List UInt8)) (h : Host) (h2 : conn.resp3 = false) (hmay : needAuth srv conn vcAclRead = none) :
    ∃ r, ((cmdVcget srv conn argv).run hostExec h).2 = some ⟨conn, r⟩ ∧
      (RespValues false r ↔ ¬ VcgetFinds argv h) := by
  rw [cmdVcget, guarded, hmay]
  dsimp only
  unfold argcCheck VcgetFinds
  split_ifs with hargc
  · have herr : RespVersion false (respWriteError (str "ERR") (str "wrong number of arguments")) :=
      respWriteError_value (by decide) (by decide) (by decide)
    exact ⟨_, rfl, iff_of_true herr.values fun hf => by omega⟩
  · rw [run_callGet]
    cases hget : (h.get (arg argv 1)).2 with
    | error e =>
      refine ⟨_, rfl, iff_of_true (respWriteNullCompat_value ?_).values (by simp)⟩
      exact fun h3 => by rw [h2] at h3; exact h3
    | ok val =>
      dsimp only
      rw [Calls.run_bind]
      refine ⟨_, rfl, iff_of_false (not_respValues_map _) ?_⟩
      exact not_not.mpr ⟨by omega, val, rfl⟩

end Handlers

/-! ## Connections -/

/-- The connection is sent a map: it asks for a typed value that is there. -/
def SentMap (srv : Srv) (conn : Conn) (argv : List (List UInt8)) (h : Host) : Prop :=
  Runs argv "VCGET" ∧ needAuth srv conn vcAclRead = none ∧ VcgetFinds argv h

theorem vcget_entry {e : CmdEntry} (he : e ∈ cmdTable) (hname : e.name = "VCGET") :
    e.aclNeeded = vcAclRead ∧ e.fn = cmdVcget := by
  cases voice_of_mem e he with
  | counter delta hcounter => rw [hname] at hcounter; exact absurd hcounter (by decide)
  | keys hkeys | scan hkeys => rw [hname] at hkeys; exact absurd hkeys (by decide)
  | vcget _ hacl hfn => exact ⟨hacl, hfn⟩
  | other _ hvcget => exact absurd hname hvcget

/-- A handler other than `VCGET` that leaves the connection in RESP2 has spoken RESP2. -/
theorem fn_resp2 {e : CmdEntry} (he : e ∈ cmdTable) (hname : e.name ≠ "VCGET") {srv : Srv}
    {conn : Conn} {argv : List (List UInt8)} {h : Host} {a : Answer}
    (ha : ((e.fn srv conn argv).run hostExec h).2 = some a) (h2 : a.conn.resp3 = false) :
    RespValues false a.reply := by
  cases voice_of_mem e he with
  | counter delta _ _ hfn =>
    rw [hfn] at ha
    exact Calls.result_meets (saysResp2_incrby _) hostExec h a ha
  | keys _ _ hfn =>
    rw [hfn] at ha
    exact Calls.result_meets saysResp2_keys hostExec h a ha
  | scan _ _ hfn =>
    rw [hfn] at ha
    exact Calls.result_meets saysResp2_scan hostExec h a ha
  | vcget hvcget => exact absurd hvcget hname
  | other _ _ hfn =>
    obtain ⟨conn', -, hs⟩ := hfn srv conn argv
    obtain ⟨hvalue, hconn⟩ := Calls.result_meets hs hostExec h
    rw [ha] at hvalue
    have hversion : conn'.resp3 = false := by rw [← hconn a ha, h2]
    rw [hversion] at hvalue
    exact RespVersion.values hvalue

/-- A command that leaves a RESP2 connection one is answered with RESP2 values, unless it is sent
a map. -/
theorem dispatch_resp2 (srv : Srv) {conn : Conn} (argv : List (List UInt8)) (h : Host)
    (h2 : conn.resp3 = false) :
    (∀ d, ((vcDispatch srv conn argv).run hostExec h).2 = some d → d.answer.conn.resp3 = false →
      RespValues false d.answer.reply) ↔ ¬ SentMap srv conn argv h := by
  cases hx : executed srv conn argv with
  | none =>
    obtain ⟨r, hr, hdispatch⟩ := vcDispatch_of_not_executed hx
    rw [hdispatch]
    refine iff_of_true ?_ ?_
    · rintro d ⟨⟩ _
      exact hr
    · rintro ⟨⟨e, he, hname⟩, hmay, hargc, -⟩
      have hargv : argv ≠ [] := by rintro rfl; simp at hargc
      obtain ⟨hacl, -⟩ := vcget_entry (List.mem_of_find?_eq_some he) hname
      simp [executed_eq_some.mpr ⟨hargv, he, .inr (hacl ▸ hmay)⟩] at hx
  | some e =>
    have hmem := mem_of_executed hx
    obtain ⟨-, hlookup, hok⟩ := executed_eq_some.mp hx
    rw [vcDispatch_of_executed hx, Calls.run_bind, run_pure, SentMap, runs_iff hlookup]
    dsimp only
    by_cases hname : e.name = "VCGET"
    · obtain ⟨hacl, hfn⟩ := vcget_entry hmem hname
      have hmay : needAuth srv conn vcAclRead = none := by
        rw [hacl] at hok
        exact hok.resolve_left (by decide)
      obtain ⟨r, hr, hiff⟩ := vcget_answer argv h h2 hmay
      rw [hfn, hr]
      simpa [hname, hmay, h2] using hiff
    · refine iff_of_true ?_ fun hsent => hname hsent.1
      intro d hd hd2
      obtain ⟨a, ha, rfl⟩ := Option.map_eq_some_iff.mp hd
      exact fn_resp2 hmem hname ha hd2

/-- While the connection speaks RESP2, it is sent RESP2 values. -/
def Resp2Kept (s : Slot) (a : SlotAct) : Prop :=
  s.conn.resp3 = false → (slotStep s a).1.conn.resp3 = false →
    ∀ r, (slotStep s a).2 = some r → RespValues false r

/-- No open RESP2 connection asks for a typed value that is there. -/
def NoMap (s : Slot) (a : SlotAct) : Prop :=
  s.crashed = false → s.conn.state ≠ .free → s.conn.resp3 = false →
    ∀ argv, a = .cmd argv → ¬ SentMap s.srv s.conn argv s.host

theorem resp2Kept_iff (s : Slot) (a : SlotAct) : Resp2Kept s a ↔ NoMap s a := by
  unfold Resp2Kept NoMap slotStep
  by_cases hc : s.crashed = true
  · simp [hc]
  rw [Bool.not_eq_true] at hc
  cases a with
  | alloc fd peerAddr peerPort =>
    dsimp only
    split_ifs <;> simp
  | close => simp [hc]
  | elsewhere host => simp [hc]
  | cmd argv =>
    by_cases hf : s.conn.state = .free
    · simp [hc, hf]
    by_cases h2 : s.conn.resp3 = false
    · have hd := dispatch_resp2 s.srv argv s.host h2
      simp only [hc, Bool.false_eq_true, if_false, hf, ne_eq, not_false_eq_true, forall_true_left, h2,
        SlotAct.cmd.injEq, forall_eq', ← hd]
      generalize (vcDispatch s.srv s.conn argv).run hostExec s.host = r
      obtain ⟨host, _ | d⟩ := r <;> simp
    · simp [h2]

/-- On a connection that has not been switched to RESP3, whatever the other connections do, all
replies are RESP2 values exactly if none of its commands is a `VCGET` for a key that is there. -/
theorem protocol_version_respected (s : Slot) (acts : List SlotAct) :
    Machine.Along slotStep Resp2Kept s acts ↔ Machine.Along slotStep NoMap s acts :=
  Machine.along_congr resp2Kept_iff

/-- A connection of an open server that has sent nothing yet. -/
def openSlot : Slot where
  srv := openServer
  host := quietHost (newCache none 8)
  conn := freshConn
  cmds := []
  crashed := false

/-- Without a `HELLO`, the reply to `VCGET` is a map. -/
theorem vcget_sends_map :
    let acts := [.cmd [str "SET", str "k", str "v"], .cmd [str "VCGET", str "k"]]
    (Machine.trace slotStep openSlot acts).map (·.2) =
        [some (str "+OK\r\n"),
          some (str "%2\r\n$4\r\ntype\r\n$6\r\nstring\r\n$5\r\nvalue\r\n$1\r\nv\r\n")] ∧
      ¬ Machine.Along slotStep Resp2Kept openSlot acts := by
  intro acts
  have hreply : (Machine.trace slotStep openSlot acts).map (·.2) =
      [some (str "+OK\r\n"),
        some (str "%2\r\n$4\r\ntype\r\n$6\r\nstring\r\n$5\r\nvalue\r\n$1\r\nv\r\n")] := by
    decide +kernel
  have hmap : str "%2\r\n$4\r\ntype\r\n$6\r\nstring\r\n$5\r\nvalue\r\n$1\r\nv\r\n" =
      37 :: str "2\r\n$4\r\ntype\r\n$6\r\nstring\r\n$5\r\nvalue\r\n$1\r\nv\r\n" := by
    decide +kernel
  refine ⟨hreply, ?_⟩
  rintro ⟨-, hkept, -⟩
  simp only [acts, Machine.trace, List.map_cons, List.cons.injEq] at hreply
  have hvalues := hkept (by decide +kernel) (by decide +kernel) _ hreply.2.1
  rw [hmap] at hvalues
  exact not_respValues_map _ hvalues

end VoidCache
