import VoidCache.Lib.TestAndSet
import VoidCache.Net.Atomicity

/-!
# SET NX as a lock

`SET key value NX` looks the key up with `vc_get`, and if it is missing stores the value with
`vc_set`. Clients that race for a key are a `Race`: each of them tests and then sets. So exactly
one of them is answered with `OK` if and only if no client looks the key up while another is
between its two calls.
-/
namespace VoidCache

section Programs

variable (srv : Srv) (conn : Conn) (k v : List UInt8)

/-- What `vc_dispatch` returns with after a handler that kept the connection. -/
def dispatched (reply : List UInt8) : Option Dispatched :=
  some ⟨{ srv with totalCommands := (srv.totalCommands + 1) % 2 ^ 64 }, ⟨conn, reply⟩⟩

/-- What is left of the command, phase by phase. -/
def nxProg : Phase → Prog (Option Dispatched)
  | .fresh => vcDispatch srv conn [str "SET", k, v, str "NX"]
  | .between => .call (.set k (setValue v) 0) fun r => .ret (dispatched srv conn (storeText r))
  | .won => .ret (dispatched srv conn respWriteOk)
  | .lost => .ret (dispatched srv conn (respWriteNullCompat conn.resp3))

variable {srv conn}

theorem nxProg_fresh (hmay : needAuth srv conn vcAclWrite = none) :
    nxProg srv conn k v .fresh = .call (.get k) fun (r : Except VcErr (List UInt8)) =>
      nxProg srv conn k v (if r.isOk then .lost else .between) := by
  have hopts : setOptions [str "NX"] ⟨0, false, false⟩ = ⟨0, true, false⟩ := by decide
  rw [nxProg, vcDispatch_of_executed (executed_set hmay _)]
  show cmdSet srv conn [str "SET", k, v, str "NX"] >>= _ = _
  simp only [cmdSet, guarded, hmay, List.drop, hopts, storeReply_eq]
  show Calls.call _ _ = _
  congr 1
  funext r
  cases r with
  | ok val => rfl
  | error e => rfl

end Programs

/-! ## The race -/

section Clients

variable {n : Nat} {srv : Srv} {conns : Fin n → Conn} {k : List UInt8} {vals : Fin n → List UInt8}
  {h : Host} {m : KvMap} {sched : List (Fin n)}

def nxRequests (conns : Fin n → Conn) (k : List UInt8) (vals : Fin n → List UInt8) (i : Fin n) : Request :=
  ⟨conns i, [str "SET", k, vals i, str "NX"]⟩

/-- A command that has made no call yet makes its first one only when all that have begun are
through. -/
def NoOverlap (p : Pool HostReq.Resp (Option Dispatched) (Fin n) Host) (i : Fin n) : Prop :=
  p.made i = [] → ∀ j, p.made j ≠ [] → (p.prog j).next? = none

def Served (p : Pool HostReq.Resp (Option Dispatched) (Fin n) Host) (i : Fin n) : Prop :=
  ∀ a ∈ (p.prog i).next?, p.state.Serves a

instance (p : Pool HostReq.Resp (Option Dispatched) (Fin n) Host) (i : Fin n) :
    Decidable (NoOverlap p i) :=
  inferInstanceAs (Decidable (_ → _))

instance (p : Pool HostReq.Resp (Option Dispatched) (Fin n) Host) (i : Fin n) : Decidable (Served p i) :=
  inferInstanceAs (Decidable (∀ a ∈ (p.prog i).next?, _))

/-- The clients as a race for the key. -/
structure IsRace (srv : Srv) (conns : Fin n → Conn) (k : List UInt8) (vals : Fin n → List UInt8)
    (p : Pool HostReq.Resp (Option Dispatched) (Fin n) Host) (s : Race (Fin n) (List UInt8)) : Prop where
  prog : ∀ i, p.prog i = nxProg srv (conns i) k (vals i) (s.phase i)
  made : ∀ i, p.made i = [] ↔ s.phase i = .fresh
  cell : ∃ m, p.state.world.cache.Reflects m ∧ m k = s.cell

theorem IsRace.noOverlap_iff {p : Pool HostReq.Resp (Option Dispatched) (Fin n) Host}
    {s : Race (Fin n) (List UInt8)} (h : IsRace srv conns k vals p s) (i : Fin n) :
    NoOverlap p i ↔ s.Apart i := by
  refine imp_congr (h.made i) (forall_congr' fun j => ?_)
  rw [ne_eq, h.made j, h.prog j]
  cases s.phase j <;> simp [nxProg, Calls.next?]

/-- One client has made a call and gone on to another phase. -/
theorem IsRace.update {p : Pool HostReq.Resp (Option Dispatched) (Fin n) Host}
    {s : Race (Fin n) (List UInt8)} (h : IsRace srv conns k vals p s) {i : Fin n} {a : HostReq} {q : Phase}
    (hq : q ≠ .fresh) {g : Host} {o : Option (List UInt8)}
    (hcell : ∃ m, g.world.cache.Reflects m ∧ m k = o) :
    IsRace srv conns k vals
      ⟨g, Function.update p.prog i (nxProg srv (conns i) k (vals i) q),
        Function.update p.made i (p.made i ++ [a])⟩
      ⟨o, Function.update s.phase i q⟩ := by
  refine ⟨fun j => ?_, fun j => ?_, hcell⟩
  · by_cases hj : j = i
    · subst hj
      simp
    · simpa [hj] using h.prog j
  · by_cases hj : j = i
    · subst hj
      simp [hq]
    · simpa [hj] using h.made j

theorem isOk_lookupResult (o : Option (List UInt8)) : (lookupResult o).isOk = o.isSome := by
  cases o <;> rfl

/-- A client makes its next call. -/
theorem IsRace.step {p : Pool HostReq.Resp (Option Dispatched) (Fin n) Host}
    {s : Race (Fin n) (List UInt8)} (h : IsRace srv conns k vals p s)
    (hmay : ∀ i, needAuth srv (conns i) vcAclWrite = none) (hpos : 0 < k.length)
    (hk : k.length < 2 ^ 32) (hvals : ∀ i, 1 ≤ (vals i).length ∧ (vals i).length ≤ valMax) {i : Fin n}
    (hi : Served p i) :
    IsRace srv conns k vals (poolStep hostExec p i).1 (Race.step vals s i).1 := by
  obtain ⟨m, hm, hcell⟩ := h.cell
  have hprog := h.prog i
  cases hp : s.phase i with
  | fresh =>
    rw [hp, nxProg_fresh k (vals i) (hmay i)] at hprog
    have hserved := hi (.get k) (by rw [hprog]; rfl)
    obtain ⟨hans, hnew⟩ := get_reflects hm hk hserved.calm
    rw [poolStep_of_call hprog, Race.step, hp]
    show IsRace srv conns k vals ⟨(p.state.get k).1, Function.update p.prog i (nxProg srv (conns i) k
      (vals i) (if (p.state.get k).2.isOk then .lost else .between)), _⟩ _
    rw [hans, isOk_lookupResult, hcell]
    exact h.update (by split <;> simp) ⟨m, hnew, hcell⟩
  | between =>
    rw [hp, nxProg] at hprog
    have hserved := hi (.set k (setValue (vals i)) 0) (by rw [hprog]; rfl)
    have hvalue : setValue (vals i) = vals i := if_pos (hvals i).1
    have hset : Settable k (vals i) := ⟨hpos, hk, (hvals i).1⟩
    rw [hvalue] at hserved hprog
    obtain ⟨hans, hnew⟩ := set_reflects hm hserved.calm hserved.stores
    rw [if_pos hset] at hans
    rw [poolStep_of_call hprog, Race.step, hp]
    show IsRace srv conns k vals ⟨(p.state.set k (vals i) 0).1, Function.update p.prog i
      (.ret (dispatched srv (conns i) (storeText (p.state.set k (vals i) 0).2))), _⟩ _
    rw [hans]
    refine h.update (q := .won) (by simp) ⟨_, hnew, ?_⟩
    rw [kvSet_self, if_pos hset, List.take_of_length_le (hvals i).2]
  | won =>
    rw [hp, nxProg] at hprog
    rw [poolStep_of_ret hprog, Race.step, hp]
    exact h
  | lost =>
    rw [hp, nxProg] at hprog
    rw [poolStep_of_ret hprog, Race.step, hp]
    exact h

/-- The bytes a command was answered with, once it has returned. -/
def replyOf : Prog (Option Dispatched) → Option (List UInt8)
  | .ret (some d) => some d.answer.reply
  | _ => none

theorem replyOf_won_iff {conn : Conn} {v : List UInt8} {q : Phase}
    (hq : (nxProg srv conn k v q).next? = none) (hmay : needAuth srv conn vcAclWrite = none) :
    (replyOf (nxProg srv conn k v q) = some respWriteOk ↔ q = .won) ∧
      (replyOf (nxProg srv conn k v q) = some (respWriteNullCompat conn.resp3) ↔ q = .lost) ∧
      (q = .won ∨ q = .lost) := by
  have hne (b : Bool) : respWriteNullCompat b ≠ respWriteOk := by cases b <;> decide
  cases q with
  | fresh =>
    rw [nxProg_fresh k v hmay] at hq
    cases hq
  | between => cases hq
  | won => simp [replyOf, nxProg, dispatched, (hne _).symm]
  | lost => simp [replyOf, nxProg, dispatched, hne]

/-- Clients that send `SET key value NX` for one key, which is missing at first, in any
interleaving of their calls: exactly one is answered with `OK`, the others with null, and the
key has its value in the end, if and only if no client looks the key up while another is
between its lookup and its store. -/
theorem set_nx_exclusive_iff (hn : 0 < n) (hmay : ∀ i, needAuth srv (conns i) vcAclWrite = none)
    (hkey : k ≠ []) (hk : k.length ≤ vcMaxInlineArg)
    (hvals : ∀ i, 1 ≤ (vals i).length ∧ (vals i).length ≤ 65535)
    (hm : h.world.cache.Reflects m) (habsent : m k = none)
    (hserved : Machine.Along (poolStep hostExec) Served (clients srv (nxRequests conns k vals) h) sched)
    (hdone : ∀ i, ((Machine.run (poolStep hostExec) (clients srv (nxRequests conns k vals) h)
      sched).prog i).next? = none) :
    let final := Machine.run (poolStep hostExec) (clients srv (nxRequests conns k vals) h) sched
    (∃ i, replyOf (final.prog i) = some respWriteOk ∧
        (∀ j, j ≠ i → replyOf (final.prog j) = some (respWriteNullCompat (conns j).resp3)) ∧
        final.state.world.cache.Holds k (some (vals i))) ↔
      Machine.Along (poolStep hostExec) NoOverlap (clients srv (nxRequests conns k vals) h) sched := by
  intro final
  have hpos : 0 < k.length := List.length_pos_iff.mpr hkey
  have hbound : k.length < 2 ^ 32 := Nat.lt_of_le_of_lt hk (by decide)
  have hstart : IsRace srv conns k vals (clients srv (nxRequests conns k vals) h) .start :=
    ⟨fun _ => rfl, fun _ => iff_of_true rfl rfl, ⟨m, hm, habsent⟩⟩
  have hstep p (s : Race (Fin n) (List UInt8)) i (hr : IsRace srv conns k vals p s) (hi : Served p i) :
      (NoOverlap p i ↔ s.Apart i) ∧
        IsRace srv conns k vals (poolStep hostExec p i).1 (Race.step vals s i).1 :=
    ⟨hr.noOverlap_iff i, hr.step hmay hpos hbound hvals hi⟩
  have hkeep p (s : Race (Fin n) (List UInt8)) i (hr : IsRace srv conns k vals p s) (hi : Served p i) :
      True ∧ IsRace srv conns k vals (poolStep hostExec p i).1 (Race.step vals s i).1 :=
    ⟨trivial, (hstep p s i hr hi).2⟩
  have hend := (Machine.run_simulates hkeep hstart hserved).2
  have hphase i := replyOf_won_iff (hend.prog i ▸ hdone i) (hmay i)
  have : Nonempty (Fin n) := ⟨⟨0, hn⟩⟩
  rw [Machine.along_iff hstep hstart hserved, ← Race.one_winner_iff fun i => (hphase i).2.2]
  obtain ⟨m', hm', hcell⟩ := hend.cell
  refine exists_congr fun i => and_congr ?_ (and_congr (forall₂_congr fun j _ => ?_) ?_)
  · rw [hend.prog i]
    exact (hphase i).1
  · rw [hend.prog j]
    exact (hphase j).2.1
  · rw [← hcell]
    exact ⟨fun hv => (hm'.holds k).eq hv, fun hv => hv ▸ hm'.holds k⟩

end Clients

/-- The values of two clients. -/
def twoOwners : Fin 2 → List UInt8
  | 0 => str "a"
  | 1 => str "b"

theorem first_client_gets_lock :
    let final := Machine.run (poolStep hostExec)
      (clients openServer (nxRequests (fun _ => freshConn) (str "lock") twoOwners) newHost) [0, 0, 1]
    ∃ i, replyOf (final.prog i) = some respWriteOk ∧
      (∀ j, j ≠ i → replyOf (final.prog j) = some (respWriteNullCompat false)) ∧
      final.state.world.cache.Holds (str "lock") (some (twoOwners i)) := by
  have hvals : ∀ i, 1 ≤ (twoOwners i).length ∧ (twoOwners i).length ≤ 65535 := by decide
  have hserved : Machine.Along (poolStep hostExec) Served
      (clients openServer (nxRequests (fun _ => freshConn) (str "lock") twoOwners) newHost) [0, 0, 1] := by
    decide +kernel
  exact (set_nx_exclusive_iff (by decide) (fun _ => rfl) (by decide) (by decide) hvals newHost_reflects
    rfl hserved (by decide +kernel)).mpr (by decide +kernel)

/-- Both clients look the key up before either of them stores, and both are told that they
have the lock. -/
theorem lock_given_twice :
    let final := Machine.run (poolStep hostExec)
      (clients openServer (nxRequests (fun _ => freshConn) (str "lock") twoOwners) newHost) [0, 1, 0, 1]
    (newHost.get (str "lock")).2 = .error .notFnd ∧ (∀ i, (final.prog i).next? = none) ∧
      (∀ i, replyOf (final.prog i) = some respWriteOk) ∧
      (final.state.get (str "lock")).2 = .ok (str "b") ∧
      ¬ ∃ i, replyOf (final.prog i) = some respWriteOk ∧
        ∀ j, j ≠ i → replyOf (final.prog j) = some (respWriteNullCompat false) := by
  decide +kernel

end VoidCache
