import VoidCache.Cluster.Client
import VoidCache.Lib.Machine

/-!
# Commands and the nodes that execute them

A call of `vc_cluster_cmd` makes up to three attempts. `cmdAttempt_executes` says what an attempt
on a connection in step has executed: the command, if it ends with a reply, and the command or
nothing if another attempt follows. The loop cannot tell these two apart, so a command whose
reply is lost is sent again, to any node whose flag is set. `executed_at_most_once` says when that
repeats nothing.
-/
namespace VoidCache

/-! ## What was executed -/

def Msg.isCmd : Msg → Bool
  | cmd _ => true
  | _ => false

/-- The commands that were executed, with the nodes that did. -/
def ClusterWorld.cmds (w : ClusterWorld) : List (Nat × Msg) := w.executed.filter fun e => e.2.isCmd

/-- An access that sends no command. -/
def SendsNoCmd : ClusterReq → Prop
  | .send _ _ msg => msg.isCmd = false
  | _ => True

theorem log_not_cmd (i : Nat) {msg : Msg} (h : msg.isCmd = false) (d : Delivery) :
    (d.log i msg).filter (fun e => e.2.isCmd) = [] := by
  cases d <;> simp [Delivery.log, h]

theorem cmds_openConn (w : ClusterWorld) (i j : Nat) : (w.openConn i j).cmds = w.cmds := by
  simp only [ClusterWorld.cmds, ClusterWorld.openConn, List.filter_append]
  split_ifs
  · rw [log_not_cmd i rfl, List.append_nil]
  · exact List.append_nil _

theorem cmds_send (w : ClusterWorld) (i j : Nat) (msg : Msg) :
    (w.send i j msg).1.cmds = w.cmds ++
      if w.env.sendOk then (w.env.delivery.log i msg).filter fun e => e.2.isCmd else [] := by
  unfold ClusterWorld.send
  split_ifs
  · exact List.filter_append ..
  · exact (List.append_nil _).symm

theorem cmds_of_sendsNoCmd {a : ClusterReq} (ha : SendsNoCmd a) (w : ClusterWorld) :
    (clusterExec w a).1.cmds = w.cmds := by
  cases a with
  | connGet i =>
    show (w.nodeConnGet i).1.cmds = w.cmds
    have hgot := nodeConnGet_cases w i
    generalize w.nodeConnGet i = r at hgot
    cases hgot with
    | nothing => rfl
    | idle j => rfl
    | opened j => exact cmds_openConn w i j
  | send i j msg =>
    refine (cmds_send w i j msg).trans ?_
    rw [log_not_cmd i ha, ite_self, List.append_nil]
  | readSlots i j nranges =>
    show (w.readMap i j nranges).1.cmds = w.cmds
    unfold ClusterWorld.readMap
    split <;> rfl
  | _ => rfl

/-- What holds of the commands executed so far stays true. -/
theorem sendsNoCmd_keeps {R : Type} {C : ClusterWorld → ClusterReq → Prop} (P : List (Nat × Msg) → Prop)
    {p : ClusterProg R} (hp : p.Meets SendsNoCmd fun _ => True) :
    Calls.Triple clusterExec C (fun w => P w.cmds) p fun _ w => P w.cmds :=
  (Calls.Triple.of_meets hp fun w _ ha h => (cmds_of_sendsNoCmd ha w).symm ▸ h).mono (fun _ h => h)
    fun _ _ h => h.1

/-! ## What the client makes of a redirection -/

/-- Of a redirection, or of a part of one, the client reads nothing but a redirection. -/
theorem isMoved_of_redirection {mallocOk : Nat → Bool} {s text rep : List UInt8}
    (hs : s <+: Delivery.reply (.redirected text)) (h : (respReadReply mallocOk s).1 = some rep) :
    isMoved rep = true := by
  unfold respReadReply at h
  dsimp only at h
  split_ifs at h with hok
  obtain ⟨line, hline, hbuf⟩ := sockReadline_ok hok
  have hend : line ++ [13] <+: Delivery.reply (.redirected text) :=
    List.IsPrefix.trans ⟨10 :: (sockReadline 1024 [] s).rest, by simpa [crlf] using hline⟩ hs
  have hstart : 45 :: str "MOVED " <+: Delivery.reply (.redirected text) := ⟨text ++ crlf, by simp [Delivery.reply]⟩
  obtain ⟨more, rfl⟩ : 45 :: str "MOVED " <+: line := by
    rcases List.prefix_or_prefix_of_prefix hstart hend with hp | hp
    · rcases List.prefix_concat_iff.mp hp with heq | hp
      · exact absurd (heq ▸ List.mem_append_right line (List.mem_singleton_self 13)) (by decide)
      · exact hp
    · exact absurd (hp.subset (List.mem_append_right line (List.mem_singleton_self 13))) (by decide)
  rw [hbuf] at h
  rw [eq_of_strdup h, isMoved, decide_eq_true_eq, List.cons_append, List.cons_append, List.tail_cons,
    List.append_assoc, cstr, List.takeWhile_append_of_pos (by decide +kernel)]
  exact List.prefix_append ..

/-- Whatever part of it arrives, the client reads nothing of this but a redirection. -/
def Unanswered (unread : List UInt8) : Prop :=
  ∀ mallocOk s rep, s <+: unread → (respReadReply mallocOk s).1 = some rep → isMoved rep = true

theorem unanswered_nil : Unanswered [] := by
  intro mallocOk s rep hs h
  obtain rfl := List.prefix_nil.mp hs
  simp [respReadReply, sockReadline_nil] at h

section Exchange

variable {w : ClusterWorld} {i j : Nat} {cmd : List UInt8}

theorem unread_send (msg : Msg) (h : (w.send i j msg).2 = true) (hi : i < w.cl.nodes.length) :
    ((w.send i j msg).1.cl.conn i j).unread = (w.cl.conn i j).unread ++ w.env.delivery.reply := by
  unfold ClusterWorld.send at h ⊢
  split_ifs at h ⊢
  exact congrArg NodeConn.unread (conn_setConn_self ((length_mark ..).symm ▸ hi) j _)

/-- A command sent on a connection that is in step: a node has executed it, and what the client
can read is the reply, or nothing was executed, and the client reads no answer. -/
theorem send_cmd (hstep : (w.cl.conn i j).unread = []) (hi : i < w.cl.nodes.length)
    (hok : (w.send i j (.cmd cmd)).2 = true) :
    (w.send i j (.cmd cmd)).1.cmds = w.cmds ++ [(i, .cmd cmd)] ∧
        w.env.delivery = .executed ((w.send i j (.cmd cmd)).1.cl.conn i j).unread ∨
      (w.send i j (.cmd cmd)).1.cmds = w.cmds ∧
        Unanswered ((w.send i j (.cmd cmd)).1.cl.conn i j).unread := by
  have hsent : w.env.sendOk = true := by
    unfold ClusterWorld.send at hok
    split_ifs at hok with h
    exact h
  rw [unread_send _ hok hi, hstep, List.nil_append, cmds_send, if_pos hsent]
  cases hd : w.env.delivery with
  | lost => exact .inr ⟨by simp [Delivery.log], unanswered_nil⟩
  | redirected text =>
    exact .inr ⟨by simp [Delivery.log], fun _ _ _ hs h => isMoved_of_redirection hs h⟩
  | executed reply => exact .inl ⟨rfl, rfl⟩

end Exchange

/-! ## Attempts -/

theorem lt_length_of_nodeConnGet {w : ClusterWorld} {i j : Nat} (h : (w.nodeConnGet i).2 = some j) :
    i < (w.nodeConnGet i).1.cl.nodes.length := by
  have hgot := nodeConnGet_cases w i
  generalize w.nodeConnGet i = r at h hgot
  cases hgot with
  | nothing => cases h
  | idle j hi => simpa [ClusterWorld.withCl, ClusterWorld.next] using hi
  | opened j hi => simpa [ClusterWorld.openConn, ClusterWorld.next] using hi

/-- What is sent is sent on a connection that is in step. -/
def SendsInStep (w : ClusterWorld) : ClusterReq → Prop
  | .send i j _ => (w.cl.conn i j).unread = []
  | _ => True

theorem nodeConnClose_sendsNoCmd (i j : Nat) : (nodeConnClose i j).Meets SendsNoCmd fun _ => True :=
  .ask_bind trivial fun _ => .ask trivial fun _ => trivial

theorem refreshFrom_sendsNoCmd (fuel ni : Nat) : (refreshFrom fuel ni).Meets SendsNoCmd fun _ => True := by
  induction fuel generalizing ni with
  | zero => trivial
  | succ fuel ih =>
    refine .ask_bind trivial fun flag => ?_
    rcases flag with _ | _ | _
    · trivial
    · exact ih (ni + 1)
    · refine .ask_bind trivial fun got => ?_
      cases got with
      | none => exact ih (ni + 1)
      | some j =>
        refine .ask_bind rfl fun sent => .ite (fun _ => ?_) fun _ => .ask_bind trivial fun line => ?_
        · exact .bind (nodeConnClose_sendsNoCmd ni j) fun _ _ => .ask_bind trivial fun _ => ih (ni + 1)
        · cases line with
          | none => exact .bind (nodeConnClose_sendsNoCmd ni j) fun _ _ => ih (ni + 1)
          | some line =>
            refine .ite (fun _ => .ask_bind trivial fun _ => ih (ni + 1)) fun _ => ?_
            refine .ask_bind trivial fun (done : Bool) => ?_
            cases done with
            | false => trivial
            | true => exact .ask_bind trivial fun _ => trivial

/-- An access that looks at a flag. -/
def LooksAtFlag (a : ClusterReq) : Prop := ∃ i, a = .alive i

theorem firstAlive_looks (fuel j : Nat) : (firstAlive fuel j).Meets LooksAtFlag fun _ => True := by
  induction fuel generalizing j with
  | zero => trivial
  | succ fuel ih =>
    refine .ask_bind ⟨j, rfl⟩ fun flag => ?_
    rcases flag with _ | _ | _
    · trivial
    · exact ih (j + 1)
    · trivial

/-- Choosing a node takes nothing but looking at flags. -/
theorem chooseNode_looks (ni : Nat) : (chooseNode ni).Meets LooksAtFlag fun _ => True := by
  refine .ask_bind ⟨ni, rfl⟩ fun flag => ?_
  rcases flag with _ | _ | _
  · trivial
  · refine .bind (firstAlive_looks _ _) fun found _ => .ask_bind ⟨_, rfl⟩ fun flag => ?_
    rcases flag with _ | _ | _ <;> trivial
  · trivial

theorem sendsNoCmd_of_looks : ∀ a, LooksAtFlag a → SendsNoCmd a := by
  rintro _ ⟨i, rfl⟩
  trivial

section Attempts

variable {w : ClusterWorld} {cmds : List (Nat × Msg)} {cmd : List UInt8} {i j : Nat}

theorem send_executes (hw : w.cmds = cmds) (hi : i < w.cl.nodes.length)
    (hstep : (w.cl.conn i j).unread = []) :
    (w.send i j (.cmd cmd)).2 = false ∧ (w.send i j (.cmd cmd)).1.cmds = cmds ∨
      (w.send i j (.cmd cmd)).2 = true ∧
        ((w.send i j (.cmd cmd)).1.cmds = cmds ++ [(i, .cmd cmd)] ∨
          (w.send i j (.cmd cmd)).1.cmds = cmds ∧
            Unanswered ((w.send i j (.cmd cmd)).1.cl.conn i j).unread) := by
  cases hok : (w.send i j (.cmd cmd)).2 with
  | false =>
    have hno : w.env.sendOk = false := by
      unfold ClusterWorld.send at hok
      split_ifs at hok with h
      exact Bool.eq_false_iff.mpr h
    rw [cmds_send, hno, if_neg (by decide), List.append_nil]
    exact .inl ⟨rfl, hw⟩
  | true =>
    rcases send_cmd hstep hi hok with ⟨hcmds, -⟩ | ⟨hcmds, hun⟩
    · exact .inr ⟨rfl, .inl (hcmds.trans (by rw [hw]))⟩
    · exact .inr ⟨rfl, .inr ⟨hcmds.trans hw, hun⟩⟩

/-- What has been executed after an attempt at node `i`: the command if the attempt is done,
and the command or nothing if not. -/
def Attempted (cmds : List (Nat × Msg)) (i : Nat) (cmd : List UInt8) : Attempt → ClusterWorld → Prop
  | .done _, w => w.cmds = cmds ++ [(i, .cmd cmd)]
  | _, w => w.cmds = cmds ++ [(i, .cmd cmd)] ∨ w.cmds = cmds

theorem cmdAttempt_executes (cmds : List (Nat × Msg)) :
    Calls.Triple clusterExec SendsInStep (fun w => w.cmds = cmds) (cmdAttempt cmd i)
      (Attempted cmds i cmd) := by
  have hset : (setAlive i false).Meets SendsNoCmd fun _ => True := .ask trivial fun _ => trivial
  have hquit : Calls.Triple clusterExec SendsInStep (fun w => w.cmds = cmds ++ [(i, .cmd cmd)] ∨ w.cmds = cmds)
      (setAlive i false >>= fun _ => pure (Attempt.again i)) (Attempted cmds i cmd) :=
    .bind (sendsNoCmd_keeps (fun c => c = cmds ++ [(i, .cmd cmd)] ∨ c = cmds) hset) fun _ =>
      .pure fun _ hw => hw
  refine .ask_bind (Q := fun (got : Option Nat) w => w.cmds = cmds ∧ (got.isSome → i < w.cl.nodes.length))
    ?_ fun got => ?_
  · exact fun w hw _ =>
      ⟨(cmds_of_sendsNoCmd (a := .connGet i) trivial w).trans hw, fun hv => lt_length_of_nodeConnGet (Option.some_get hv).symm⟩
  cases got with
  | none => exact hquit.mono (fun _ hw => .inr hw.1) fun _ _ hw => hw
  | some j =>
    refine .ask_bind (Q := fun (sent : Bool) w => sent = false ∧ w.cmds = cmds ∨ sent = true ∧
      (w.cmds = cmds ++ [(i, .cmd cmd)] ∨ w.cmds = cmds ∧ Unanswered (w.cl.conn i j).unread)) ?_ fun sent => ?_
    · exact fun w hw hstep => send_executes hw.1 (hw.2 rfl) hstep
    cases sent with
    | false =>
      refine .bind ((sendsNoCmd_keeps (· = cmds) (nodeConnClose_sendsNoCmd i j)).mono (fun w hw => ?_)
        fun _ _ hw => hw) fun _ => hquit.mono (fun _ hw => .inr hw) fun _ _ hw => hw
      exact (hw.resolve_right (by simp)).2
    | true =>
      -- what is read is the reply of a node that has executed the command, or no answer
      refine .ask_bind (Q := fun (rep : Option (List UInt8)) w => w.cmds = cmds ++ [(i, .cmd cmd)] ∨
        w.cmds = cmds ∧ ∀ r, rep = some r → isMoved r = true) ?_ fun rep => ?_
      · intro w hw _
        have hkeep := cmds_of_sendsNoCmd (a := .readReply i j) trivial w
        rcases (hw.resolve_left (by simp)).2 with hran | ⟨hno, hun⟩
        · exact .inl (hkeep.trans hran)
        · exact .inr ⟨hkeep.trans hno, fun r hr => hun w.env.mallocOk _ r (List.take_prefix ..) hr⟩
      refine .ask_bind (Q := fun _ w => w.cmds = cmds ++ [(i, .cmd cmd)] ∨
        w.cmds = cmds ∧ ∀ r, rep = some r → isMoved r = true) (fun w hw _ => ?_) fun _ => ?_
      · rwa [cmds_of_sendsNoCmd (a := .setIdle i j) trivial w]
      cases rep with
      | none => exact hquit.mono (fun w hw => hw.imp_right And.left) fun _ _ hw => hw
      | some r =>
        refine .ite (fun _ => ?_) fun hmoved => .pure fun w hw => ?_
        · refine .mono (P := fun w => w.cmds = cmds ++ [(i, .cmd cmd)] ∨ w.cmds = cmds) ?_
            (fun w hw => hw.imp_right And.left) fun _ _ hw => hw
          cases movedAddr r with
          | none => exact .pure fun _ hw => hw
          | some addr =>
            have hadd : (findOrAdd addr.1 addr.2).Meets SendsNoCmd fun _ => True := .ask trivial fun _ => trivial
            refine .bind (sendsNoCmd_keeps (fun c => c = cmds ++ [(i, .cmd cmd)] ∨ c = cmds) hadd) fun ni => ?_
            refine .bind (sendsNoCmd_keeps (fun c => c = cmds ++ [(i, .cmd cmd)] ∨ c = cmds)
              (refreshFrom_sendsNoCmd _ _)) fun refreshed => ?_
            cases refreshed <;> exact .pure fun _ hw => hw
        · exact hw.resolve_right fun hno => hmoved (hno.2 r rfl)

end Attempts

/-! ## At most once -/

/-- No flag is found set once something was executed after `cmds`. -/
def FindsNone (cmds : List (Nat × Msg)) (w : ClusterWorld) : ClusterReq → Prop
  | .alive i => w.next.cl.nodes[i]?.map (fun n => n.alive) = some true → w.cmds = cmds
  | _ => True

/-- The condition on a call that comes after the executions `cmds`. -/
def Careful (cmds : List (Nat × Msg)) (w : ClusterWorld) (a : ClusterReq) : Prop :=
  FindsNone cmds w a ∧ SendsInStep w a

instance (w : ClusterWorld) : (a : ClusterReq) → Decidable (SendsInStep w a)
  | .send .. => inferInstanceAs (Decidable (_ = _))
  | .nodeForSlot _ | .alive _ | .setAlive .. | .backedOff _ | .noteDown .. | .noteUp _ | .findOrAdd .. |
    .connGet _ | .readReply .. | .readHeader .. | .readSlots .. | .closeFd .. | .setIdle .. =>
    inferInstanceAs (Decidable True)

instance (cmds : List (Nat × Msg)) (w : ClusterWorld) : (a : ClusterReq) → Decidable (FindsNone cmds w a)
  | .alive _ => inferInstanceAs (Decidable (_ → _))
  | .nodeForSlot _ | .setAlive .. | .backedOff _ | .noteDown .. | .noteUp _ | .findOrAdd .. | .connGet _ |
    .send .. | .readReply .. | .readHeader .. | .readSlots .. | .closeFd .. | .setIdle .. =>
    inferInstanceAs (Decidable True)

instance (cmds : List (Nat × Msg)) (w : ClusterWorld) (a : ClusterReq) : Decidable (Careful cmds w a) :=
  inferInstanceAs (Decidable (_ ∧ _))

section Once

variable {cmds ran : List (Nat × Msg)} {cmd : List UInt8}

/-- After an execution, the flag of a node is found cleared. -/
theorem readAlive_after (hran : ran ≠ cmds) (i : Nat) :
    Calls.Triple clusterExec (Careful cmds) (fun w => w.cmds = ran) (readAlive i)
      fun flag w => flag ≠ some true ∧ w.cmds = ran :=
  .ask fun _ hw hc => ⟨fun h => hran (hw.symm.trans (hc.1 h)), hw⟩

theorem chooseNode_after (hran : ran ≠ cmds) (ni : Nat) :
    Calls.Triple clusterExec (Careful cmds) (fun w => w.cmds = ran) (chooseNode ni)
      fun r w => r = none ∧ w.cmds = ran := by
  refine .bind (readAlive_after hran ni) fun flag => ?_
  rcases flag with _ | _ | _
  · exact .pure fun w hw => ⟨rfl, hw.2⟩
  · refine .bind ((sendsNoCmd_keeps (· = ran) ((firstAlive_looks _ _).mono sendsNoCmd_of_looks fun _ h => h)).mono
      (fun w hw => hw.2)
      fun _ _ hw => hw) fun found => .bind (readAlive_after hran _) fun flag => ?_
    rcases flag with _ | _ | _
    · exact .pure fun w hw => ⟨rfl, hw.2⟩
    · exact .pure fun w hw => ⟨rfl, hw.2⟩
    · exact .pure fun w hw => absurd rfl hw.1
  · exact .pure fun w hw => absurd rfl hw.1

/-- After an execution, the loop ends with an error and sends nothing more. -/
theorem cmdLoop_after (hran : ran ≠ cmds) (n : Nat) (ni : Int) :
    Calls.Triple clusterExec (Careful cmds) (fun w => w.cmds = ran) (cmdLoop cmd n ni)
      fun r w => (∃ e, r = some (.error e)) ∧ w.cmds = ran := by
  cases n with
  | zero => exact .pure fun w hw => ⟨⟨_, rfl⟩, hw⟩
  | succ n =>
    refine .ite (fun _ => .pure fun w hw => ⟨⟨_, rfl⟩, hw⟩) fun _ => ?_
    refine .bind (chooseNode_after hran _) fun node => ?_
    cases node with
    | none => exact .pure fun w hw => ⟨⟨_, rfl⟩, hw.2⟩
    | some node => exact fun w hw => absurd hw.1 (by simp)

/-- After the executions `cmds`, the command was executed at most once, and it was if the call
has succeeded. -/
def Once (cmds : List (Nat × Msg)) (cmd : List UInt8) (r : Option (Except VcClusterErr (List UInt8)))
    (w : ClusterWorld) : Prop :=
  ∃ new, w.cmds = cmds ++ new ∧ (∀ e ∈ new, e.2 = .cmd cmd) ∧ new.length ≤ 1 ∧
    ∀ rep, r = some (.ok rep) → new.length = 1

theorem once_of_eq {w : ClusterWorld} (h : w.cmds = cmds) {r : Option (Except VcClusterErr (List UInt8))}
    (hr : ∀ rep, r ≠ some (.ok rep)) : Once cmds cmd r w :=
  ⟨[], by simpa using h, by simp, by simp, fun rep h => absurd h (hr rep)⟩

theorem once_of_executed {w : ClusterWorld} {i : Nat} (h : w.cmds = cmds ++ [(i, .cmd cmd)])
    (r : Option (Except VcClusterErr (List UInt8))) : Once cmds cmd r w :=
  ⟨[(i, .cmd cmd)], h, by simp, le_refl _, fun _ _ => rfl⟩

theorem cmdLoop_once (n : Nat) (ni : Int) :
    Calls.Triple clusterExec (Careful cmds) (fun w => w.cmds = cmds) (cmdLoop cmd n ni) (Once cmds cmd) := by
  induction n generalizing ni with
  | zero => exact .pure fun w hw => once_of_eq hw (by simp)
  | succ n ih =>
    refine .ite (fun _ => .pure fun w hw => once_of_eq hw (by simp)) fun _ => ?_
    refine .bind (sendsNoCmd_keeps (· = cmds) ((chooseNode_looks _).mono sendsNoCmd_of_looks fun _ h => h))
      fun node => ?_
    cases node with
    | none => exact .pure fun w hw => once_of_eq hw (by simp)
    | some node =>
      refine .bind ((cmdAttempt_executes cmds).strengthen fun _ _ h => h.2) fun r => ?_
      cases r with
      | done rep => exact .pure fun w hw => once_of_executed hw _
      | broken => exact .pure fun w hw => hw.elim (fun h => once_of_executed h _) fun h => once_of_eq h (by simp)
      | again ni =>
        rintro w (hw | hw) ha
        · obtain ⟨-, hend⟩ := cmdLoop_after (by simp) n ni w hw ha
          exact once_of_executed hend _
        · exact ih ni w hw ha

end Once

/-- One call after the other. -/
def cmdStep (w : ClusterWorld) (call : Option (List UInt8) × List UInt8) :
    ClusterWorld × Option (Except VcClusterErr (List UInt8)) :=
  (vcClusterCmd call.1 call.2).run clusterExec w

/-- All accesses of the call meet `C`. -/
def CallMeets (C : ClusterWorld → ClusterReq → Prop) (w : ClusterWorld)
    (call : Option (List UInt8) × List UInt8) : Prop :=
  (vcClusterCmd call.1 call.2).Along clusterExec C w

instance (C : ClusterWorld → ClusterReq → Prop) [∀ w a, Decidable (C w a)] (w : ClusterWorld)
    (call : Option (List UInt8) × List UInt8) : Decidable (CallMeets C w call) :=
  Calls.decidableAlong (vcClusterCmd call.1 call.2) w

/-- A call that sends its command on connections in step, and finds no node alive any more once
the command was executed, has it executed at most once, and once if it succeeds. -/
theorem executed_at_most_once {w : ClusterWorld} {call : Option (List UInt8) × List UInt8}
    (h : CallMeets (Careful w.cmds) w call) :
    Once w.cmds call.2 (cmdStep w call).2 (cmdStep w call).1 := by
  have hcall : Calls.Triple clusterExec (Careful w.cmds) (fun v => v.cmds = w.cmds)
      (vcClusterCmd call.1 call.2) (Once w.cmds call.2) := by
    refine .ask_bind (Q := fun _ v => v.cmds = w.cmds) (fun v hv _ => hv) fun (ni : Int) => ?_
    exact .ite (fun _ => .pure fun v hv => once_of_eq hv (by simp)) fun _ => cmdLoop_once _ ni
  exact hcall w rfl h

/-- A network on which everything arrives and every command is answered with `OK`. -/
def calmNet : NetEnv where
  marks := fun _ => none
  connects := true
  sendOk := true
  delivery := .executed (str "+OK\r\n")
  arrives := 4096
  mallocOk := fun _ => true
  junk := []
  now := 0

/-- Two nodes, the first of which has all slots. -/
def twoNodes (firstAlive : Bool) : ClusterWorld where
  cl :=
    { nodes := [{ newNode (str "a") 1 with alive := firstAlive }, newNode (str "b") 2]
      nodes_le := Nat.le_of_ble_eq_true rfl
      slotMap := fun _ => 0
      username := []
      password := [] }
  envs := fun _ => calmNet
  calls := 0
  executed := []

/-- A command that sets a key. -/
def setCall : Option (List UInt8) × List UInt8 :=
  (some (str "k"), str "*3\r\n$3\r\nSET\r\n$1\r\nk\r\n$1\r\nv\r\n")

/-- The reply to the first command does not arrive; the second node is marked with `mark`. -/
def lossyNodes (mark : Option Bool) : ClusterWorld :=
  { twoNodes true with
    envs := fun n =>
      { calmNet with
        marks := fun i => if i = 1 then mark else none
        arrives := if n = 4 then 0 else 4096 } }

/-- The second node is dead, and the call fails after the one execution. -/
theorem set_once :
    (cmdStep (lossyNodes (some false)) setCall).2 = some (.error .noNode) ∧
      Once [] setCall.2 (cmdStep (lossyNodes (some false)) setCall).2
        (cmdStep (lossyNodes (some false)) setCall).1 :=
  ⟨by decide +kernel, executed_at_most_once (by decide +kernel)⟩

/-- The second node executes the command again, and the call succeeds. -/
theorem set_executed_twice :
    (cmdStep (lossyNodes none) setCall).2 = some (.ok (str "OK")) ∧
      (cmdStep (lossyNodes none) setCall).1.cmds = [(0, .cmd setCall.2), (1, .cmd setCall.2)] ∧
      CallMeets SendsInStep (lossyNodes none) setCall ∧
      ¬ Once [] setCall.2 (cmdStep (lossyNodes none) setCall).2 (cmdStep (lossyNodes none) setCall).1 := by
  have hcmds : (cmdStep (lossyNodes none) setCall).1.cmds =
      [(0, .cmd setCall.2), (1, .cmd setCall.2)] := by decide +kernel
  refine ⟨by decide +kernel, hcmds, by decide +kernel, ?_⟩
  rintro ⟨new, hnew, -, hlen, -⟩
  obtain rfl : [(0, .cmd setCall.2), (1, .cmd setCall.2)] = new := hcmds.symm.trans hnew
  exact absurd hlen (by simp)

end VoidCache
