import VoidCache.Cluster.Command
import VoidCache.Lib.Machine

/-!
# The node that executes a command

The map says which node has the slot of a key, but an attempt that finds the flag of that node
cleared goes to the first node whose flag is set. `routing_consistent` is about sequences of calls
in which no flag of another node is found set: the commands are then executed by the nodes of
their keys.
-/
namespace VoidCache

/-- An access that leaves the map. -/
def LeavesMap : ClusterReq → Prop
  | .readSlots .. => False
  | _ => True

theorem slotMap_of_leavesMap {a : ClusterReq} (ha : LeavesMap a) (w : ClusterWorld) :
    (clusterExec w a).1.cl.slotMap = w.cl.slotMap := by
  cases a with
  | readSlots => exact ha.elim
  | findOrAdd host port => exact nodeFindOrAdd_slotMap ..
  | connGet i =>
    show (w.nodeConnGet i).1.cl.slotMap = w.cl.slotMap
    have hgot := nodeConnGet_cases w i
    generalize w.nodeConnGet i = r at hgot
    cases hgot <;> rfl
  | send i j msg =>
    show (w.send i j msg).1.cl.slotMap = w.cl.slotMap
    unfold ClusterWorld.send
    split_ifs <;> rfl
  | _ => rfl

theorem leavesMap_of_looks : ∀ a, LooksAtFlag a → LeavesMap a := by
  rintro _ ⟨i, rfl⟩
  trivial

/-! ## What keeps a call at its node -/

/-- No redirection is read. -/
def NoMoved (w : ClusterWorld) : ClusterReq → Prop
  | .readReply i j => (respReadReply w.env.mallocOk (w.stream i j)).1.any isMoved = false
  | _ => True

theorem NoMoved.not_moved {w : ClusterWorld} {i j : Nat} (h : NoMoved w (.readReply i j)) (r : List UInt8)
    (hr : (respReadReply w.env.mallocOk (w.stream i j)).1 = some r) : isMoved r = false := by
  have hany : (respReadReply w.env.mallocOk (w.stream i j)).1.any isMoved = false := h
  rwa [hr] at hany

/-- A flag that is looked at and found set is that of the node `home`. -/
def OnlyHome (home : Int) (w : ClusterWorld) : ClusterReq → Prop
  | .alive i => w.next.cl.nodes[i]?.map (fun n => n.alive) = some true → (i : Int) = home
  | _ => True

/-- The condition on a call for a key whose node is `home`. -/
def AtHome (home : Int) (w : ClusterWorld) (a : ClusterReq) : Prop :=
  NoMoved w a ∧ OnlyHome home w a ∧ SendsInStep w a

instance (w : ClusterWorld) : (a : ClusterReq) → Decidable (NoMoved w a)
  | .readReply .. => inferInstanceAs (Decidable (_ = _))
  | .nodeForSlot _ | .alive _ | .setAlive .. | .backedOff _ | .noteDown .. | .noteUp _ | .findOrAdd .. |
    .connGet _ | .send .. | .readHeader .. | .readSlots .. | .closeFd .. | .setIdle .. =>
    inferInstanceAs (Decidable True)

instance (home : Int) (w : ClusterWorld) : (a : ClusterReq) → Decidable (OnlyHome home w a)
  | .alive _ => inferInstanceAs (Decidable (_ → _))
  | .nodeForSlot _ | .setAlive .. | .backedOff _ | .noteDown .. | .noteUp _ | .findOrAdd .. | .connGet _ |
    .send .. | .readReply .. | .readHeader .. | .readSlots .. | .closeFd .. | .setIdle .. =>
    inferInstanceAs (Decidable True)

instance (home : Int) (w : ClusterWorld) (a : ClusterReq) : Decidable (AtHome home w a) :=
  inferInstanceAs (Decidable (_ ∧ _ ∧ _))

section Routing

variable {m : Nat → Int} {cmds : List (Nat × Msg)} {home : Nat} {cmd : List UInt8}

theorem readAlive_home (i : Nat) :
    Calls.Triple clusterExec (OnlyHome home) (fun _ => True) (readAlive i)
      fun flag _ => flag = some true → i = home :=
  .ask fun _ _ hc h => Int.ofNat_inj.mp (hc h)

theorem firstAlive_home (fuel j : Nat) :
    Calls.Triple clusterExec (OnlyHome home) (fun _ => True) (firstAlive fuel j)
      fun r _ => ∀ i, r = some i → i = home := by
  induction fuel generalizing j with
  | zero => exact .pure (by simp)
  | succ fuel ih =>
    refine .bind (readAlive_home j) fun flag => ?_
    rcases flag with _ | _ | _
    · exact .pure (by simp)
    · exact (ih (j + 1)).mono (fun _ _ => trivial) fun _ _ h => h
    · exact .pure fun w h => by rintro i ⟨⟩; exact h rfl

theorem chooseNode_home :
    Calls.Triple clusterExec (OnlyHome home) (fun _ => True) (chooseNode home)
      fun r _ => ∀ i, r = some i → i = home := by
  refine .bind (readAlive_home home) fun flag => ?_
  rcases flag with _ | _ | _
  · exact .pure (by simp)
  · refine .bind ((firstAlive_home _ _).mono (fun _ _ => trivial) fun _ _ h => h) fun found => ?_
    refine .bind ((readAlive_home _).mono (fun _ _ => trivial) fun _ _ h => h) fun flag => ?_
    rcases flag with _ | _ | _
    · exact .pure (by simp)
    · exact .pure (by simp)
    · exact .pure fun w h => by rintro i ⟨⟩; exact h rfl
  · exact .pure fun w h => by rintro i ⟨⟩; rfl

theorem leavesMap_keeps {R : Type} {C : ClusterWorld → ClusterReq → Prop} {p : ClusterProg R}
    (hp : p.Meets LeavesMap fun _ => True) :
    Calls.Triple clusterExec C (fun w => w.cl.slotMap = m) p fun _ w => w.cl.slotMap = m :=
  (Calls.Triple.of_meets hp fun w _ ha h => (slotMap_of_leavesMap ha w).trans h).mono (fun _ h => h)
    fun _ _ h => h.1

/-- Choosing a node leaves the map and what was executed, and the node is `home`. -/
theorem chooseNode_atHome :
    Calls.Triple clusterExec (AtHome home) (fun w => w.cl.slotMap = m ∧ w.cmds = cmds) (chooseNode home)
      fun r w => (w.cl.slotMap = m ∧ w.cmds = cmds) ∧ ∀ i, r = some i → i = home := by
  have hmap := leavesMap_keeps (C := AtHome home) (m := m)
    ((chooseNode_looks home).mono leavesMap_of_looks fun _ h => h)
  have hcmds := sendsNoCmd_keeps (C := AtHome home) (· = cmds)
    ((chooseNode_looks home).mono sendsNoCmd_of_looks fun _ h => h)
  exact ((hmap.and hcmds).and (chooseNode_home.strengthen fun _ _ h => h.2.1)).mono
    (fun _ hw => ⟨hw, trivial⟩) fun _ _ hw => hw

/-- An attempt after which the map is as it was, and which is repeated for the same node if it
has to be repeated. -/
def Stayed (m : Nat → Int) (ni : Nat) : Attempt → ClusterWorld → Prop
  | .done _, w => w.cl.slotMap = m
  | .again ni', w => ni' = ni ∧ w.cl.slotMap = m
  | .broken, _ => False

theorem cmdAttempt_stays (cmd : List UInt8) (ni : Nat) :
    Calls.Triple clusterExec NoMoved (fun w => w.cl.slotMap = m) (cmdAttempt cmd ni) (Stayed m ni) := by
  have hset : (setAlive ni false).Meets LeavesMap fun _ => True := .ask trivial fun _ => trivial
  have hquit : Calls.Triple clusterExec NoMoved (fun w => w.cl.slotMap = m)
      (setAlive ni false >>= fun _ => pure (Attempt.again ni)) (Stayed m ni) :=
    .bind (leavesMap_keeps hset) fun _ => .pure fun _ hw => ⟨rfl, hw⟩
  refine .ask_bind (Q := fun _ w => w.cl.slotMap = m) (fun w hw _ => ?_) fun (got : Option Nat) => ?_
  · exact (slotMap_of_leavesMap (a := .connGet ni) trivial w).trans hw
  cases got with
  | none => exact hquit
  | some j =>
    refine .ask_bind (Q := fun _ w => w.cl.slotMap = m) (fun w hw _ => ?_) fun (sent : Bool) => ?_
    · exact (slotMap_of_leavesMap (a := .send ni j (.cmd cmd)) trivial w).trans hw
    cases sent with
    | false =>
      have hclose : (nodeConnClose ni j).Meets LeavesMap fun _ => True :=
        .ask_bind trivial fun _ => .ask trivial fun _ => trivial
      exact .bind (leavesMap_keeps hclose) fun _ => hquit
    | true =>
      refine .ask_bind (Q := fun (rep : Option (List UInt8)) w => w.cl.slotMap = m ∧
        ∀ r, rep = some r → isMoved r = false) (fun w hw hc => ⟨hw, hc.not_moved⟩) fun rep => ?_
      refine .ask_bind (Q := fun _ w => w.cl.slotMap = m ∧ ∀ r, rep = some r → isMoved r = false)
        (fun w hw _ => hw) fun _ => ?_
      cases rep with
      | none => exact hquit.mono (fun _ hw => hw.1) fun _ _ hw => hw
      | some r =>
        refine .ite (fun hmoved w hw => ?_) fun _ => .pure fun _ hw => hw.1
        exact absurd (hmoved.symm.trans (hw.2 r rfl)) (by decide)

/-- The call ends like this after the executions `cmds`: all that is executed is the command, at
the node `home`, and it is if the call succeeds. -/
def RanAt (m : Nat → Int) (cmds : List (Nat × Msg)) (home : Nat) (cmd : List UInt8)
    (r : Option (Except VcClusterErr (List UInt8))) (w : ClusterWorld) : Prop :=
  w.cl.slotMap = m ∧ ∃ new, w.cmds = cmds ++ new ∧ (∀ e ∈ new, e = (home, .cmd cmd)) ∧
    ∀ rep, r = some (.ok rep) → new ≠ []

theorem ranAt_of_eq {w : ClusterWorld} (h : w.cl.slotMap = m ∧ w.cmds = cmds)
    {r : Option (Except VcClusterErr (List UInt8))} (hr : ∀ rep, r ≠ some (.ok rep)) :
    RanAt m cmds home cmd r w :=
  ⟨h.1, [], by simpa using h.2, by simp, fun rep h => absurd h (hr rep)⟩

theorem RanAt.cons {w : ClusterWorld} {r : Option (Except VcClusterErr (List UInt8))}
    (h : RanAt m (cmds ++ [(home, .cmd cmd)]) home cmd r w) : RanAt m cmds home cmd r w := by
  obtain ⟨hmap, new, hcmds, hall, -⟩ := h
  refine ⟨hmap, (home, .cmd cmd) :: new, by simpa using hcmds, ?_, fun _ _ => by simp⟩
  exact List.forall_mem_cons.mpr ⟨rfl, hall⟩

/-- The retry loop of a command for the node `home`. -/
theorem cmdLoop_home (n : Nat) :
    Calls.Triple clusterExec (AtHome home) (fun w => w.cl.slotMap = m ∧ w.cmds = cmds)
      (cmdLoop cmd n home) (RanAt m cmds home cmd) := by
  induction n generalizing cmds with
  | zero => exact .pure fun w hw => ranAt_of_eq hw (by simp)
  | succ n ih =>
    refine .ite (fun h => absurd h (by omega)) fun _ => ?_
    refine .bind chooseNode_atHome fun node => ?_
    cases node with
    | none => exact .pure fun w hw => ranAt_of_eq hw.1 (by simp)
    | some node =>
      intro w hw
      obtain rfl := hw.2 node rfl
      have hattempt := ((cmdAttempt_stays (m := m) cmd node).strengthen fun _ _ h => h.1).and
        ((cmdAttempt_executes cmds).strengthen (C := AtHome node) fun _ _ h => h.2.2)
      refine Calls.Triple.bind hattempt (fun r => ?_) w hw.1
      cases r with
      | done rep => exact .pure fun w hw => ⟨hw.1, [(node, .cmd cmd)], hw.2, by simp, by simp⟩
      | broken => exact fun w hw => hw.1.elim
      | again ni =>
        rintro w ⟨⟨rfl, hmap⟩, hw | hw⟩ ha
        · exact (ih w ⟨hmap, hw⟩ ha).cons
        · exact ih w ⟨hmap, hw⟩ ha

end Routing

/-! ## Sequences of calls -/

/-- The node that the map has for the key of a call. -/
def homeOf (w : ClusterWorld) (call : Option (List UInt8) × List UInt8) : Int :=
  w.cl.slotMap (slotOf call.1)

/-- The command is executed by the node of its key only, and it is if the call succeeds. -/
def Routed (w : ClusterWorld) (call : Option (List UInt8) × List UInt8) : Prop :=
  ∃ new, (cmdStep w call).1.cmds = w.cmds ++ new ∧
    (∀ e ∈ new, (e.1 : Int) = homeOf w call ∧ e.2 = .cmd call.2) ∧
    ∀ rep, (cmdStep w call).2 = some (.ok rep) → new ≠ []

theorem routed_of_atHome {w : ClusterWorld} {call : Option (List UInt8) × List UInt8}
    (h : CallMeets (AtHome (homeOf w call)) w call) :
    Routed w call ∧ (cmdStep w call).1.cl.slotMap = w.cl.slotMap := by
  have hrun : cmdStep w call = (if homeOf w call < 0 then pure (some (.error .noNode))
      else cmdLoop call.2 vcClusterMaxRetries (homeOf w call)).run clusterExec w.next := rfl
  have halong : (if homeOf w call < 0 then pure (some (.error .noNode))
      else cmdLoop call.2 vcClusterMaxRetries (homeOf w call)).Along clusterExec
        (AtHome (homeOf w call)) w.next := h.2
  unfold Routed
  rw [hrun]
  by_cases hneg : homeOf w call < 0
  · rw [if_pos hneg]
    exact ⟨⟨[], (List.append_nil w.cmds).symm, by simp, fun rep hrep => nomatch hrep⟩, rfl⟩
  · obtain ⟨home, hhome⟩ := Int.eq_ofNat_of_zero_le (not_lt.mp hneg)
    rw [if_neg hneg, hhome] at halong ⊢
    obtain ⟨hmap, new, hcmds, hall, hok⟩ := cmdLoop_home vcClusterMaxRetries w.next ⟨rfl, rfl⟩ halong
    refine ⟨⟨new, hcmds, fun e he => ?_, hok⟩, hmap⟩
    rw [hall e he]
    exact ⟨rfl, rfl⟩

/-- In every sequence of calls without redirections in which the flags of other nodes are found
cleared and connections are in step, all commands are executed by the nodes of their keys, and
the map stays as it is. -/
theorem routing_consistent {w : ClusterWorld} {calls : List (Option (List UInt8) × List UInt8)}
    (h : Machine.Along cmdStep (fun w call => CallMeets (AtHome (homeOf w call)) w call) w calls) :
    Machine.Along cmdStep Routed w calls ∧ (Machine.run cmdStep w calls).cl.slotMap = w.cl.slotMap := by
  constructor
  · exact h.imp fun w call hc => (routed_of_atHome hc).1
  · exact Machine.run_inv (I := fun v => v.cl.slotMap = w.cl.slotMap)
      (fun v call hv hc => (routed_of_atHome hc).2.trans hv) rfl h

theorem set_routed : Machine.Along cmdStep Routed (twoNodes true) [setCall, setCall] :=
  (routing_consistent (by decide +kernel)).1

/-- With the flag of its node cleared, a command succeeds at another node. -/
theorem set_executed_elsewhere :
    (cmdStep (twoNodes false) setCall).2 = some (.ok (str "OK")) ∧
      (cmdStep (twoNodes false) setCall).1.cmds = [(1, .cmd setCall.2)] ∧
      homeOf (twoNodes false) setCall = 0 ∧ CallMeets NoMoved (twoNodes false) setCall ∧
      ¬ Routed (twoNodes false) setCall := by
  have hcmds : (cmdStep (twoNodes false) setCall).1.cmds = [(1, .cmd setCall.2)] := by decide +kernel
  refine ⟨by decide +kernel, hcmds, rfl, by decide +kernel, ?_⟩
  rintro ⟨new, hnew, hall, -⟩
  obtain rfl : [(1, .cmd setCall.2)] = new := hcmds.symm.trans hnew
  exact absurd (hall _ (List.mem_singleton_self _)).1 (by decide +kernel)

end VoidCache
