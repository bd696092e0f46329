import VoidCache.Cluster.Command
import VoidCache.Cluster.ReadToEnd
import VoidCache.Lib.Protocol

/-!
# Pooled connections are in step

Any number of commands, refreshes and health checks use the pools at the same time. What each of
them has in hand is the state of a protocol: it takes a connection, sends, reads the reply, and
gives the connection back or closes it. `Gripped` ties these states to the pools, and every access
that meets `ReadsAll` keeps it, so idle connections have no unread replies (`pool_in_step`).
-/
namespace VoidCache

/-! ## The protocol -/

/-- What a program has in hand: nothing, a connection (with a reply `due` or not), or a connection
that it has closed but not yet given back. -/
inductive Grip where
  | free
  | holds (i j : Nat) (due : Bool)
  | closing (i j : Nat)
  deriving DecidableEq

def Grip.slot : Grip → Option (Nat × Nat)
  | free => none
  | holds i j _ => some (i, j)
  | closing i j => some (i, j)

/-- The connection in hand is like this. -/
def Grip.Fits : Grip → NodeConn → Prop
  | free, _ => True
  | holds _ _ due, c => c.isOpen = true ∧ c.inUse = true ∧ (due = false → c.unread = [])
  | closing .., c => c.isOpen = false ∧ c.inUse = true

def Grip.Allows (g : Grip) : ClusterReq → Prop
  | .connGet _ => g = .free
  | .send i j _ => g = .holds i j false
  | .readReply i j | .readHeader i j | .readSlots i j _ => g = .holds i j true
  | .closeFd i j => ∃ due, g = .holds i j due
  | .setIdle i j => g = .holds i j false ∨ g = .closing i j
  | _ => True

def Grip.after (g : Grip) : (a : ClusterReq) → a.Resp → Grip
  | .connGet i, got => Option.elim got .free fun j => .holds i j false
  | .send i j _, sent => .holds i j sent
  | .readReply i j, _ => .holds i j false
  -- the rest of an array is still to be read
  | .readHeader i j, line => .holds i j (Option.all (fun l : List UInt8 => l.headD 0 = 42) line)
  | .readSlots i j _, done => .holds i j (!done)
  | .closeFd i j, _ => .closing i j
  | .setIdle .., _ => .free
  | _, _ => g

def gripProtocol : Protocol ClusterReq.Resp Grip := ⟨Grip.Allows, Grip.after⟩

section Follows

variable {i j : Nat}

theorem nodeConnClose_follows {due : Bool} :
    (nodeConnClose i j).Follows gripProtocol (fun _ g => g = .free) (.holds i j due) :=
  .ask_bind ⟨due, rfl⟩ fun _ => .ask (.inr rfl) fun _ => rfl

theorem refreshFrom_follows (fuel ni : Nat) :
    (refreshFrom fuel ni).Follows gripProtocol (fun r g => r.isSome → g = .free) .free := by
  induction fuel generalizing ni with
  | zero => exact .pure fun _ => rfl
  | succ fuel ih =>
    refine .ask_bind trivial fun flag => ?_
    rcases flag with _ | _ | _
    · exact .pure fun _ => rfl
    · exact ih (ni + 1)
    · refine .ask_bind rfl fun got => ?_
      cases got with
      | none => exact ih (ni + 1)
      | some j =>
        refine .ask_bind rfl fun (sent : Bool) => ?_
        cases sent with
        | false =>
          refine .bind nodeConnClose_follows fun _ g hg => ?_
          subst hg
          exact .ask_bind trivial fun _ => ih (ni + 1)
        | true =>
          refine .ask_bind rfl fun line => ?_
          cases line with
          | none =>
            refine .bind nodeConnClose_follows fun _ g hg => ?_
            subst hg
            exact ih (ni + 1)
          | some line =>
            refine .ite (fun hstar => ?_) fun hstar => ?_
            · exact .ask_bind (.inl (congrArg _ (decide_eq_false hstar))) fun _ => ih (ni + 1)
            · refine .ask_bind (congrArg _ (decide_eq_true (not_not.mp hstar))) fun (done : Bool) => ?_
              cases done with
              | false => exact .pure fun h => absurd h (by decide)
              | true => exact .ask_bind (.inl rfl) fun _ => .pure fun _ => rfl

/-- A refresh, after which a round goes on unless something was written outside an array. -/
theorem refresh_then_follows {f : Option Int → ClusterProg (Option Unit)} (hnone : f none = pure none)
    (hsome : ∀ r, (f (some r)).Follows gripProtocol (fun r g => r.isSome → g = .free) .free) :
    (vcClusterRefresh >>= f).Follows gripProtocol (fun r g => r.isSome → g = .free) .free := by
  refine .bind (refreshFrom_follows _ _) fun r g hg => ?_
  cases r with
  | none =>
    rw [hnone]
    exact .pure fun h => absurd h (by decide)
  | some r =>
    obtain rfl := hg rfl
    exact hsome r

theorem healthFrom_follows (fuel i : Nat) :
    (healthFrom fuel i).Follows gripProtocol (fun r g => r.isSome → g = .free) .free := by
  induction fuel generalizing i with
  | zero => exact .pure fun _ => rfl
  | succ fuel ih =>
    refine .ask_bind trivial fun off => ?_
    rcases off with _ | _ | _
    · exact .pure fun _ => rfl
    · refine .ask_bind rfl fun got => ?_
      cases got with
      | none => exact .ask_bind trivial fun _ => refresh_then_follows rfl fun _ => ih (i + 1)
      | some j =>
        refine .ask_bind rfl fun (sent : Bool) => ?_
        cases sent with
        | false =>
          refine .bind nodeConnClose_follows fun _ g hg => ?_
          subst hg
          exact .ask_bind trivial fun _ => refresh_then_follows rfl fun _ => ih (i + 1)
        | true =>
          refine .ask_bind rfl fun _ => .ask_bind trivial fun _ => ?_
          exact .ask_bind (.inl rfl) fun _ => ih (i + 1)
    · exact ih (i + 1)

/-- An attempt ends with nothing in hand, unless something was written outside an array. -/
theorem cmdAttempt_follows (cmd : List UInt8) (ni : Nat) :
    (cmdAttempt cmd ni).Follows gripProtocol (fun r g => r ≠ .broken → g = .free) .free := by
  refine .ask_bind rfl fun got => ?_
  cases got with
  | none => exact .ask_bind trivial fun _ => .pure fun _ => rfl
  | some j =>
    refine .ask_bind rfl fun (sent : Bool) => ?_
    cases sent with
    | false =>
      refine .bind nodeConnClose_follows fun _ g hg => ?_
      subst hg
      exact .ask_bind trivial fun _ => .pure fun _ => rfl
    | true =>
      refine .ask_bind rfl fun rep => .ask_bind (.inl rfl) fun _ => ?_
      cases rep with
      | none => exact .ask_bind trivial fun _ => .pure fun _ => rfl
      | some rep =>
        refine .ite (fun _ => ?_) fun _ => .pure fun _ => rfl
        cases movedAddr rep with
        | none => exact .pure fun _ => rfl
        | some addr =>
          refine .ask_bind trivial fun ni => .bind (refreshFrom_follows _ _) fun r g hg => ?_
          cases r with
          | none => exact .pure fun h => absurd rfl h
          | some r => exact .pure fun _ => hg rfl

theorem cmdLoop_follows (cmd : List UInt8) (n : Nat) (ni : Int) :
    (cmdLoop cmd n ni).Follows gripProtocol (fun _ _ => True) .free := by
  induction n generalizing ni with
  | zero => trivial
  | succ n ih =>
    refine .ite (fun _ => trivial) fun _ => ?_
    have hchoose : (chooseNode ni.toNat).Follows gripProtocol (fun _ g => True ∧ g = .free) .free := by
      refine .of_meets (chooseNode_looks _) ?_
      rintro _ ⟨i, rfl⟩
      exact ⟨trivial, fun _ => rfl⟩
    refine .bind hchoose ?_
    rintro node _ ⟨-, rfl⟩
    cases node with
    | none => trivial
    | some node =>
      refine .bind (cmdAttempt_follows cmd node) fun r g hg => ?_
      cases r with
      | done rep => trivial
      | broken => trivial
      | again ni =>
        obtain rfl := hg (by simp)
        exact ih ni

end Follows

/-- What threads do with the cluster. -/
inductive ClusterOp where
  | cmd (key : Option (List UInt8)) (text : List UInt8)
  | refresh
  | health

def ClusterOp.prog : ClusterOp → ClusterProg Unit
  | cmd key text => vcClusterCmd key text >>= fun _ => pure ()
  | refresh => vcClusterRefresh >>= fun _ => pure ()
  | health => healthRound >>= fun _ => pure ()

theorem ClusterOp.follows (op : ClusterOp) : op.prog.Follows gripProtocol (fun _ _ => True) .free := by
  cases op with
  | cmd key text =>
    refine .bind (Q := fun _ _ => True) (.ask_bind trivial fun (ni : Int) => ?_) fun _ _ _ => trivial
    exact .ite (fun _ => trivial) fun _ => cmdLoop_follows text _ ni
  | refresh => exact .bind (refreshFrom_follows _ _) fun _ _ _ => trivial
  | health => exact .bind (healthFrom_follows _ _) fun _ _ _ => trivial

/-! ## The pools -/

/-- If the connection is idle, there is nothing unread. -/
def NodeConn.Settled (c : NodeConn) : Prop := c.isOpen = true → c.inUse = false → c.unread = []

/-- What the programs have in hand fits the pools, and no two of them have the same slot. -/
structure Gripped {ι : Type} (grips : ι → Grip) (cl : Cluster) : Prop where
  settled : ∀ i j, (cl.conn i j).Settled
  fits : ∀ k i j, (grips k).slot = some (i, j) → (grips k).Fits (cl.conn i j)
  apart : ∀ k k' s, (grips k).slot = some s → (grips k').slot = some s → k = k'

theorem Grip.Fits.inUse {g : Grip} {c : NodeConn} (h : g.Fits c) {s : Nat × Nat} (hs : g.slot = some s) :
    c.inUse = true := by
  cases g with
  | free => cases hs
  | holds i j due => exact h.2.1
  | closing i j => exact h.2

namespace Gripped

variable {ι : Type} {grips : ι → Grip} {cl cl' : Cluster} {k : ι} {i j : Nat} {c : NodeConn} {g : Grip}

theorem lt_length (h : Gripped grips cl) (hk : (grips k).slot = some (i, j)) : i < cl.nodes.length := by
  by_contra hi
  have hin := (h.fits k i j hk).inUse hk
  rw [conn_of_le (Nat.le_of_not_lt hi)] at hin
  cases hin

variable [DecidableEq ι]

theorem same (h : Gripped grips cl) (hgrown : cl.Grown cl') : Gripped (Function.update grips k (grips k)) cl' := by
  rw [Function.update_eq_self]
  refine ⟨fun i j => ?_, fun k i j hk => ?_, h.apart⟩
  · rw [hgrown.conn]
    exact h.settled i j
  · rw [hgrown.conn]
    exact h.fits k i j hk

/-- Program `k` changes the connection in its hand, or takes one that is not in use, and keeps it
in hand or leaves it in step. -/
theorem put (h : Gripped grips cl) (hgrown : cl.Grown cl') (hi : i < cl.nodes.length)
    (hslot : (grips k).slot = some (i, j) ∨ (grips k).slot = none ∧ (cl.conn i j).inUse = false)
    (hg : g.slot = some (i, j) ∧ g.Fits c ∨ g.slot = none ∧ c.Settled) :
    Gripped (Function.update grips k g) (cl'.setConn i j c) := by
  have hother : ∀ k', k' ≠ k → (grips k').slot ≠ some (i, j) := by
    intro k' hne hk'
    rcases hslot with hk | ⟨-, hidle⟩
    · exact hne (h.apart k' k _ hk' hk)
    · exact absurd (((h.fits k' i j hk').inUse hk').symm.trans hidle) (by decide)
  have hself : (cl'.setConn i j c).conn i j = c := conn_setConn_self (hi.trans_le hgrown.length) j c
  have hrest (i' j' : Nat) (hne : (i', j') ≠ (i, j)) : (cl'.setConn i j c).conn i' j' = cl.conn i' j' :=
    (conn_setConn_of_ne cl' hne c).trans (hgrown.conn i' j')
  have hmine : ∀ s, g.slot = some s → s = (i, j) ∧ g.Fits c := by
    intro s hs
    rcases hg with ⟨hslot, hfits⟩ | ⟨hnone, -⟩
    · exact ⟨Option.some.inj (hs.symm.trans hslot), hfits⟩
    · cases hs.symm.trans hnone
  refine ⟨fun i' j' => ?_, fun k' i' j' hs => ?_, fun k₁ k₂ s h₁ h₂ => ?_⟩
  · by_cases hij : (i', j') = (i, j)
    · obtain ⟨rfl, rfl⟩ := Prod.mk.inj hij
      rw [hself]
      rcases hg with ⟨hslot, hfits⟩ | ⟨-, hsettled⟩
      · exact fun _ hidle => absurd ((hfits.inUse hslot).symm.trans hidle) (by decide)
      · exact hsettled
    · rw [hrest i' j' hij]
      exact h.settled i' j'
  · by_cases hk : k' = k
    · subst hk
      rw [Function.update_self] at hs ⊢
      obtain ⟨hij, hfits⟩ := hmine _ hs
      obtain ⟨rfl, rfl⟩ := Prod.mk.inj hij
      rwa [hself]
    · rw [Function.update_of_ne hk] at hs ⊢
      rw [hrest i' j' fun hij => hother k' hk (hs.trans (congrArg some hij))]
      exact h.fits k' i' j' hs
  · by_cases hk₁ : k₁ = k <;> by_cases hk₂ : k₂ = k
    · exact hk₁.trans hk₂.symm
    · subst hk₁
      rw [Function.update_self] at h₁
      rw [Function.update_of_ne hk₂] at h₂
      exact absurd (h₂.trans (congrArg some (hmine s h₁).1)) (hother k₂ hk₂)
    · subst hk₂
      rw [Function.update_self] at h₂
      rw [Function.update_of_ne hk₁] at h₁
      exact absurd (h₁.trans (congrArg some (hmine s h₂).1)) (hother k₁ hk₁)
    · rw [Function.update_of_ne hk₁] at h₁
      rw [Function.update_of_ne hk₂] at h₂
      exact h.apart k₁ k₂ s h₁ h₂

end Gripped

/-! ## One access -/

/-- All that a node has replied on the connection arrives. -/
def AllArrives (w : ClusterWorld) (i j : Nat) : Prop := (w.cl.conn i j).unread.length ≤ w.env.arrives

/-- The condition on an access: a slot in which a connection is opened is not just being closed,
and what is read is read to its end. -/
def ReadsAll (w : ClusterWorld) : ClusterReq → Prop
  | .connGet i => idleConn w.cl i = none → ∀ j, freeSlot w.cl i = some j → (w.cl.conn i j).inUse = false ∧
      (authReply w.cl w.env = [] ∨
        OneLine 64 (authReply w.cl w.env) ∧ (authReply w.cl w.env).length ≤ w.env.arrives)
  | .readReply i j => AllArrives w i j ∧ ReadToEnd w.env.mallocOk (w.cl.conn i j).unread
  | .readHeader i j => (w.cl.conn i j).unread.headD 0 = 42 ∨ (w.cl.conn i j).unread = [] ∨
      AllArrives w i j ∧ OneLine 256 (w.cl.conn i j).unread
  | .readSlots i j nranges => AllArrives w i j ∧ SlotsLayout nranges.toNat 0 (w.cl.conn i j).unread
  | _ => True

theorem AllArrives.stream {w : ClusterWorld} {i j : Nat} (h : AllArrives w i j) :
    w.stream i j = (w.cl.conn i j).unread := List.take_of_length_le h

/-- A reader that leaves nothing of a stream that has arrived leaves nothing. -/
theorem AllArrives.read {w : ClusterWorld} {i j : Nat} (h : AllArrives w i j) :
    ((w.cl.conn i j).read w.env.arrives []).unread = [] :=
  List.drop_of_length_le h

theorem grown_next (w : ClusterWorld) : w.cl.Grown w.next.cl :=
  ⟨fun i j => conn_mark w.cl i j _, (length_mark w.cl _).ge⟩

/-- A new connection that has read all of the reply to `AUTH`. -/
theorem freshNodeConn_unread {cl : Cluster} {env : NetEnv}
    (h : authReply cl env = [] ∨ OneLine 64 (authReply cl env) ∧ (authReply cl env).length ≤ env.arrives) :
    (freshNodeConn cl env).unread = [] := by
  unfold freshNodeConn
  dsimp only
  rcases h with h | ⟨hline, harrives⟩
  · rw [h, List.take_nil, sockReadline_nil]
    exact List.drop_nil
  · rw [List.take_of_length_le harrives, hline.read]
    exact List.drop_of_length_le harrives

theorem headD_take {s : List UInt8} (h : s.headD 0 = 42) (n : Nat) : (s.take n).headD 0 = 42 ∨ s.take n = [] := by
  cases n with
  | zero => exact .inr rfl
  | succ n =>
    cases s with
    | nil => exact .inr rfl
    | cons c s => exact .inl h

/-- After the first line of an array, or none, there is something to be read. -/
theorem header_due (buf : List UInt8) {s : List UInt8} (hs : s.headD 0 = 42 ∨ s = []) :
    Option.all (fun l : List UInt8 => l.headD 0 = 42)
      (if (sockReadline 256 buf s).ok then some (sockReadline 256 buf s).buf else none) = true := by
  cases hok : (sockReadline 256 buf s).ok with
  | false => rfl
  | true =>
    obtain ⟨line, hline, hbuf⟩ := sockReadline_ok hok
    have hstar : s.headD 0 = 42 := hs.resolve_right fun h => by simp [h, crlf] at hline
    rw [← hline] at hstar
    cases line with
    | nil => exact absurd hstar (by simp [crlf])
    | cons c line =>
      rw [hbuf]
      exact decide_eq_true hstar

section Access

variable {ι : Type} [DecidableEq ι] {grips : ι → Grip} {w : ClusterWorld} {k : ι} {i j : Nat}

theorem Gripped.connGet (h : Gripped grips w.cl) (hk : grips k = .free) (hC : ReadsAll w (.connGet i)) :
    Gripped (Function.update grips k ((w.nodeConnGet i).2.elim .free fun j => .holds i j false))
      (w.nodeConnGet i).1.cl := by
  have hgot := nodeConnGet_cases w i
  generalize w.nodeConnGet i = r at hgot
  cases hgot with
  | nothing => simpa only [Option.elim_none, hk] using h.same (k := k) (grown_next w)
  | idle j hi hopen hidle =>
    refine h.put (grown_next w) hi (.inr ⟨by rw [hk]; rfl, hidle⟩) (.inl ⟨rfl, hopen, rfl, fun _ => ?_⟩)
    exact h.settled i j hopen hidle
  | opened j hi hbusy hfree _ =>
    obtain ⟨hidle, hauth⟩ := hC hbusy j hfree
    refine h.put (grown_next w) hi (.inr ⟨by rw [hk]; rfl, hidle⟩) (.inl ⟨rfl, rfl, rfl, fun _ => ?_⟩)
    exact freshNodeConn_unread hauth

/-- An access that the protocol allows and that meets the condition. -/
theorem Gripped.exec (h : Gripped grips w.cl) {a : ClusterReq} (ha : (grips k).Allows a) (hC : ReadsAll w a) :
    Gripped (Function.update grips k ((grips k).after a (clusterExec w a).2)) (clusterExec w a).1.cl := by
  have hgrown := grown_next w
  -- the connection in hand stays in hand
  have hput {i j : Nat} {due due' : Bool} (hk : grips k = .holds i j due) {cl' : Cluster}
      (hcl : w.cl.Grown cl') {c : NodeConn} (hopen : c.isOpen = (w.cl.conn i j).isOpen)
      (hin : c.inUse = (w.cl.conn i j).inUse) (hread : due' = false → c.unread = []) :
      Gripped (Function.update grips k (.holds i j due')) (cl'.setConn i j c) := by
    have hslot : (grips k).slot = some (i, j) := by rw [hk]; rfl
    have hfits := h.fits k i j hslot
    rw [hk] at hfits
    exact h.put hcl (h.lt_length hslot) (.inl hslot)
      (.inl ⟨rfl, hopen.trans hfits.1, hin.trans hfits.2.1, hread⟩)
  cases a with
  | nodeForSlot | alive | backedOff => exact h.same hgrown
  | setAlive i b =>
    exact h.same (hgrown.trans ⟨fun i' j' => conn_modifyNode _ i' j' i fun _ => rfl, (List.length_modify ..).ge⟩)
  | noteDown i seen =>
    exact h.same (hgrown.trans ⟨fun i' j' => conn_modifyNode _ i' j' i fun _ => rfl, (List.length_modify ..).ge⟩)
  | noteUp i =>
    exact h.same (hgrown.trans ⟨fun i' j' => conn_modifyNode _ i' j' i fun _ => rfl, (List.length_modify ..).ge⟩)
  | findOrAdd host port => exact h.same (hgrown.trans (.nodeFindOrAdd ..))
  | connGet i => exact h.connGet ha hC
  | send i j msg =>
    show Gripped (Function.update grips k (.holds i j (w.send i j msg).2)) (w.send i j msg).1.cl
    unfold ClusterWorld.send
    split_ifs
    · exact hput ha hgrown rfl rfl fun hdue => nomatch hdue
    · rw [← (show grips k = .holds i j false from ha)]
      exact h.same hgrown
  | readReply i j =>
    refine hput ha hgrown rfl rfl fun _ => ?_
    rw [hC.1.stream, hC.2.read]
    exact hC.1.read
  | readHeader i j =>
    refine hput ha hgrown rfl rfl fun hdue => ?_
    rcases hC with hstar | hnil | ⟨harrives, hline⟩
    · exact absurd (hdue.symm.trans (header_due w.env.junk (headD_take hstar _))) (by decide)
    · exact absurd (hdue.symm.trans (header_due w.env.junk (.inr (by rw [ClusterWorld.stream, hnil, List.take_nil]))))
        (by decide)
    · rw [harrives.stream, hline.read]
      exact harrives.read
  | readSlots i j nranges =>
    show Gripped (Function.update grips k (.holds i j !(w.readMap i j nranges).2)) (w.readMap i j nranges).1.cl
    obtain ⟨cl', hread⟩ := hC.2.readSlots w.env.junk w.next.cl
    rw [ClusterWorld.readMap, hC.1.stream, hread]
    exact hput ha (hgrown.trans (.readSlots hread)) rfl rfl fun _ => hC.1.read
  | closeFd i j =>
    obtain ⟨due, hk⟩ := ha
    have hslot : (grips k).slot = some (i, j) := by rw [hk]; rfl
    have hin := (h.fits k i j hslot).inUse hslot
    exact h.put hgrown (h.lt_length hslot) (.inl hslot) (.inl ⟨rfl, rfl, hin⟩)
  | setIdle i j =>
    have hslot : (grips k).slot = some (i, j) := by rcases ha with hk | hk <;> rw [hk] <;> rfl
    refine h.put hgrown (h.lt_length hslot) (.inl hslot) (.inr ⟨rfl, fun hopen _ => ?_⟩)
    have hfits := h.fits k i j hslot
    rcases ha with hk | hk
    · rw [hk] at hfits
      exact hfits.2.2 rfl
    · rw [hk] at hfits
      exact absurd (hopen.symm.trans hfits.1) (by decide)

end Access

/-! ## Interleavings -/

/-- Idle connections have nothing unread. -/
def InStep (w : ClusterWorld) : Prop := ∀ i j, (w.cl.conn i j).Settled

/-- The program is about to send on a connection with an unread reply. -/
def SendsBehind {ι : Type} (p : Pool ClusterReq.Resp Unit ι ClusterWorld) (k : ι) : Prop :=
  ∃ i j msg, (p.prog k).next? = some (.send i j msg) ∧ (p.state.cl.conn i j).unread ≠ []

/-- Whatever threads do with the cluster at the same time, as long as what is read is read to its
end, idle connections have no unread replies, and what is sent is sent on connections that have
none. -/
theorem pool_in_step {ι : Type} [DecidableEq ι] {w : ClusterWorld} (hw : InStep w) (ops : ι → ClusterOp)
    {sched : List ι}
    (h : Machine.Along (poolStep clusterExec) (fun p k => ∀ a ∈ (p.prog k).next?, ReadsAll p.state a)
      (.start w fun k => (ops k).prog) sched) :
    InStep (Machine.run (poolStep clusterExec) (.start w fun k => (ops k).prog) sched).state ∧
      ∀ k, ¬ SendsBehind (Machine.run (poolStep clusterExec) (.start w fun k => (ops k).prog) sched) k := by
  have hstart : Gripped (fun _ : ι => Grip.free) w.cl :=
    ⟨hw, fun _ _ _ hs => (Option.some_ne_none _ hs.symm).elim, fun _ _ _ hs => (Option.some_ne_none _ hs.symm).elim⟩
  obtain ⟨grips, hheld, hfollows⟩ := pool_inv (J := fun grips (w : ClusterWorld) => Gripped grips w.cl)
    (fun _ _ _ _ hJ hallows hC => hJ.exec hallows hC) (fun k => (ops k).follows) hstart h
  refine ⟨hheld.settled, ?_⟩
  rintro k ⟨i, j, msg, hnext, hunread⟩
  have hk : grips k = .holds i j false := (hfollows k).allows hnext
  have hfits := hheld.fits k i j (by rw [hk]; rfl)
  rw [hk] at hfits
  exact hunread (hfits.2.2 rfl)

/-- One range: all slots are with the node `b`. -/
def oneRange : List UInt8 := str "*3\r\n:0\r\n:16383\r\n*1\r\n+b\r\n:2\r\n"

theorem oneRange_layout : SlotsLayout 1 0 oneRange := by
  have haddr : SlotsLayout 0 1 (str "+b" ++ crlf ++ (str ":2" ++ crlf ++ [])) :=
    .addr (by decide) ⟨by decide, by decide⟩ ⟨by decide, by decide⟩ (.ended 0 0)
  exact .range (a := str "*3") (b := str ":0") (c := str ":16383") (t := 42) (k := 1)
    ⟨by decide, by decide⟩ ⟨by decide, by decide⟩ ⟨by decide, by decide⟩ (by decide) (by decide) haddr

/-- The access reads `+OK` or a map of one range if it reads, and opens no connection in a slot that is
in use. -/
def ReadsSample (w : ClusterWorld) : ClusterReq → Bool
  | .connGet i => (freeSlot w.cl i).all fun j => !(w.cl.conn i j).inUse && authReply w.cl w.env = []
  | .readReply i j => (w.cl.conn i j).unread = str "+OK\r\n" && 5 ≤ w.env.arrives
  | .readHeader i j => (w.cl.conn i j).unread.headD 0 = 42
  | .readSlots i j nranges =>
    nranges = 1 && (w.cl.conn i j).unread = oneRange && oneRange.length ≤ w.env.arrives
  | _ => true

theorem readsAll_of_readsSample {w : ClusterWorld} {a : ClusterReq} (h : ReadsSample w a = true) :
    ReadsAll w a := by
  have hline : str "+OK\r\n" = str "+OK" ++ crlf := by decide
  cases a with
  | connGet i =>
    intro _ j hj
    have hslot : ReadsSample w (.connGet i) = true := h
    rw [ReadsSample, hj] at hslot
    simp only [Option.all_some, Bool.and_eq_true, Bool.not_eq_true', decide_eq_true_eq] at hslot
    exact ⟨hslot.1, .inl hslot.2⟩
  | readReply i j =>
    simp only [ReadsSample, Bool.and_eq_true, decide_eq_true_eq] at h
    rw [ReadsAll, AllArrives, h.1, hline]
    exact ⟨h.2, .line (by decide) (by decide) (by decide)⟩
  | readHeader i j => exact .inl (of_decide_eq_true h)
  | readSlots i j nranges =>
    simp only [ReadsSample, Bool.and_eq_true, decide_eq_true_eq] at h
    obtain ⟨⟨rfl, hunread⟩, harrives⟩ := h
    rw [ReadsAll, AllArrives, hunread]
    exact ⟨harrives, oneRange_layout⟩
  | _ => trivial

theorem inStep_twoNodes (firstAlive : Bool) (envs : Nat → NetEnv) :
    InStep { twoNodes firstAlive with envs := envs } := by
  intro i j hopen
  match i with
  | 0 | 1 | _ + 2 => cases hopen

/-- Two nodes that answer the first message with a map, and all others with `+OK`. -/
def mapNodes : ClusterWorld :=
  { twoNodes true with
    envs := fun n =>
      if n = 5 then { calmNet with delivery := .executed (str "*1\r\n" ++ oneRange) } else calmNet }

/-- A command and a refresh, turn by turn. The refresh installs a map. -/
theorem set_and_refresh_in_step :
    let p := Machine.run (poolStep clusterExec) (.start mapNodes fun k : Bool =>
        (if k then ClusterOp.cmd setCall.1 setCall.2 else .refresh).prog)
      (List.replicate 6 [true, false]).flatten
    mapNodes.cl.slotMap 16383 = 0 ∧ p.state.cl.slotMap 16383 = 1 ∧ InStep p.state := by
  intro p
  refine ⟨rfl, by decide +kernel, ?_⟩
  exact (pool_in_step (inStep_twoNodes true _) _
    (Machine.Along.imp (P := fun p k => ∀ a ∈ (p.prog k).next?, ReadsSample p.state a = true)
      (by decide +kernel) fun _ _ h a ha => readsAll_of_readsSample (h a ha))).1

/-- Two nodes that answer every command with an array. -/
def arrayNodes : ClusterWorld :=
  { twoNodes true with
    envs := fun _ => { calmNet with delivery := .executed (str "*1\r\n$1\r\na\r\n") } }

/-- The element of the array stays unread, and is what the next command gets for an answer. -/
theorem array_left_unread :
    RespValue (str "*1\r\n$1\r\na\r\n") ∧ InStep arrayNodes ∧
      ¬ InStep (Machine.run (poolStep clusterExec) (.start arrayNodes fun _ : Unit =>
        (ClusterOp.cmd setCall.1 setCall.2).prog) (List.replicate 6 ())).state ∧
      (cmdStep arrayNodes setCall).2 = some (.ok (str "*1")) ∧
      (cmdStep (cmdStep arrayNodes setCall).1 setCall).2 = some (.ok (str "a")) := by
  refine ⟨.array [str "$1\r\na\r\n"] ?_, inStep_twoNodes true _, fun h => ?_, by decide +kernel, by decide +kernel⟩
  · exact List.forall_mem_singleton.mpr (.bulk (str "a"))
  · exact absurd (h 0 0 (by decide +kernel) (by decide +kernel)) (by decide +kernel)

end VoidCache
