import VoidCache.Lib.Serial
import VoidCache.Net.Behaviour
import VoidCache.Net.KeyMap

/-!
# Commands that read, change and write back

`INCR`, `APPEND`, `EXPIRE`, `PERSIST` and `RENAME` call `vc_get` and later `vc_set`. Each call
is atomic, a command is not: what another connection writes between the two is lost. If no
call touches a key that another command under way is using, any interleaving leaves the map
that the commands leave one after the other.
-/
namespace VoidCache

/-! ## The calls of one command -/

/-- The key of a call, and whether it may change its value. -/
def kvFootprint : Footprint HostReq (List UInt8) where
  key
    | .get key => some key
    | .set key _ _ => some key
    | .del key => some key
    | _ => none
  writes
    | .set .. => true
    | .del _ => true
    | _ => false

theorem kvFootprint_local : kvFootprint.Local KeyCall kvExec where
  frame m a k ha hw := by
    cases a with
    | set key val ttlSec =>
      have hk : k ≠ key := fun hk => hw ⟨by rw [hk]; rfl, rfl⟩
      exact kvSet_of_ne hk
    | del key =>
      have hk : k ≠ key := fun hk => hw ⟨by rw [hk]; rfl, rfl⟩
      exact Function.update_of_ne hk _ _
    | get key => rfl
    | malloc size => rfl
    | _ => exact ha.elim
  agree m m' a ha hm := by
    cases a with
    | get key =>
      have hkey := hm key rfl
      exact ⟨congrArg lookupResult hkey, fun k hk => hm k hk⟩
    | set key val ttlSec =>
      refine ⟨rfl, fun k hk => ?_⟩
      obtain rfl : key = k := Option.some.inj hk
      show kvSet m key val key = kvSet m' key val key
      rw [kvSet_self, kvSet_self, hm key rfl]
    | del key =>
      refine ⟨by simp only [kvExec, hm key rfl], fun k hk => ?_⟩
      obtain rfl : key = k := Option.some.inj hk
      simp only [kvExec, Function.update_self]
    | malloc size => exact ⟨rfl, fun k hk => hm k hk⟩
    | _ => exact ha.elim

/-! ## What single commands do to the map -/

section Effects

variable {srv : Srv} {conn : Conn} {m : KvMap} {k v : List UInt8}

theorem dispatch_run_state {σ : Type} {exec : σ → (a : HostReq) → σ × a.Resp} {argv : List (List UInt8)}
    {e : CmdEntry} (he : executed srv conn argv = some e) (s : σ) :
    ((vcDispatch srv conn argv).run exec s).1 = ((e.fn srv conn argv).run exec s).1 := by
  rw [vcDispatch_of_executed he, Calls.run_bind]
  rfl

/-- The number under a key. -/
def kvCounter (m : KvMap) (k : List UInt8) : Int :=
  match m k with
  | some v => counterValue v
  | none => 0

theorem incr_map (hmay : needAuth srv conn vcAclWrite = none) :
    ((vcDispatch srv conn [str "INCR", k]).run kvExec m).1 =
      kvSet m k (counterBytes (addInt64 (kvCounter m k) 1)) := by
  have he : executed srv conn [str "INCR", k] = some ⟨"INCR", cmdIncr, vcAclWrite⟩ :=
    executed_eq_some.mpr ⟨by simp, rfl, .inr hmay⟩
  rw [dispatch_run_state he]
  simp only [cmdIncr, cmdIncrby, guarded, hmay, argcCheck]
  cases hk : m k with
  | none => simp [kvCounter, lookupResult, arg, hk]
  | some v => simp [kvCounter, lookupResult, arg, hk]

theorem set_map (hmay : needAuth srv conn vcAclWrite = none) :
    ((vcDispatch srv conn [str "SET", k, v]).run kvExec m).1 = kvSet m k (setValue v) := by
  rw [dispatch_run_state (executed_set hmay _)]
  show ((cmdSet srv conn [str "SET", k, v]).run kvExec m).1 = _
  rw [cmdSet_plain hmay, kvRun_callSet]
  rfl

/-- `EXPIRE` and `PERSIST` store the value that they found. -/
theorem setAgain_map (ttlSec : UInt32) :
    ((setAgain conn k ttlSec).run kvExec m).1 = (m k).elim m (kvSet m k) := by
  rw [setAgain, kvRun_callGet]
  cases hk : m k with
  | none => rfl
  | some v => rfl

end Effects

/-! ## Counters -/

theorem counterValue_ge (v : List UInt8) : -2 ^ 63 ≤ counterValue v := by
  unfold counterValue
  split
  · exact (toInt64_bounds _).1
  · exact (strtoll_bounds _).1

theorem length_counterBytes (x : Int) : (counterBytes x).length = 13 := by
  have hmagic : vcWireMagic.length = 4 := by decide
  simp [counterBytes, int64Bytes, hmagic]

theorem counterValue_counterBytes {x : Int} (hge : -2 ^ 63 ≤ x) (hlt : x < 2 ^ 63) :
    counterValue (counterBytes x) = x := by
  have hdrop : (counterBytes x).drop (vcWireMagic.length + 1) = int64Bytes x := by
    simp [counterBytes]
  have hnat : leNat (int64Bytes x) = (x % 2 ^ 64).toNat := by
    rw [int64Bytes, leNat_leBytes]
    omega
  rw [counterValue, if_pos ⟨length_counterBytes x, by simp [counterBytes], by simp [counterBytes]⟩, hdrop,
    hnat]
  exact toInt64_emod hge hlt

/-! ## One command after the other -/

section Serial

variable {ι : Type} {srv : Srv} {m : KvMap} {k : List UInt8}

/-- A command and the connection it came on. -/
structure Request where
  conn : Conn
  argv : List (List UInt8)

def Request.prog (srv : Srv) (r : Request) : Prog (Option Dispatched) := vcDispatch srv r.conn r.argv

/-- A counter goes up by the number of its increments. -/
theorem serial_incr {reqs : ι → Request} (hpos : 0 < k.length) (hk : k.length < 2 ^ 32)
    (hincr : ∀ i, (reqs i).argv = [str "INCR", k] ∧ needAuth srv (reqs i).conn vcAclWrite = none)
    (order : List ι) {v : List UInt8} (hv : m k = some v)
    (hfits : counterValue v + order.length < 2 ^ 63) :
    ∃ v', serialRun kvExec (fun i => (reqs i).prog srv) order m k = some v' ∧
      counterValue v' = counterValue v + order.length := by
  induction order generalizing m v with
  | nil => exact ⟨v, hv, by simp⟩
  | cons i order ih =>
    have hlen : ((i :: order).length : Int) = order.length + 1 := by simp
    have hge := counterValue_ge v
    have hadd : addInt64 (kvCounter m k) 1 = counterValue v + 1 := by
      have hcur : kvCounter m k = counterValue v := by rw [kvCounter, hv]
      rw [hcur]
      exact addInt64_eq (by omega) (by omega)
    have hstep : (((reqs i).prog srv).run kvExec m).1 k = some (counterBytes (counterValue v + 1)) := by
      have hset : Settable k (counterBytes (counterValue v + 1)) :=
        ⟨hpos, hk, by rw [length_counterBytes]; decide⟩
      rw [Request.prog, (hincr i).1, incr_map (hincr i).2, hadd, kvSet_self, if_pos hset,
        List.take_of_length_le (by rw [length_counterBytes]; decide)]
    have hnew : counterValue (counterBytes (counterValue v + 1)) = counterValue v + 1 :=
      counterValue_counterBytes (by omega) (by omega)
    obtain ⟨v', hv', hval⟩ := ih hstep (by omega)
    exact ⟨v', hv', by omega⟩

/-- A `SET` with a key and a value that the connection may make. -/
def Request.Sets (srv : Srv) (r : Request) (k v : List UInt8) : Prop :=
  r.argv = [str "SET", k, v] ∧ needAuth srv r.conn vcAclWrite = none

def Request.Expires (r : Request) : Prop :=
  ∃ args, r.argv = str "EXPIRE" :: args ∨ r.argv = str "PERSIST" :: args

/-- A value that was stored can be stored again. -/
theorem setAgain_keeps (conn : Conn) (key : List UInt8) (ttlSec : UInt32) {v : List UInt8}
    (hv : m k = some v) (hmax : v.length ≤ valMax) :
    ((setAgain conn key ttlSec).run kvExec m).1 k = some v := by
  rw [setAgain_map]
  cases hkey : m key with
  | none => exact hv
  | some w =>
    show kvSet m key w k = some v
    by_cases hkk : k = key
    · subst hkk
      obtain rfl : v = w := Option.some.inj (hv.symm.trans hkey)
      rw [kvSet_self, List.take_of_length_le hmax, hv, ite_self]
    · rw [kvSet_of_ne hkk, hv]

/-- `EXPIRE` and `PERSIST` do not change a value that was stored. -/
theorem expires_map {r : Request} (hr : r.Expires) {v : List UInt8} (hv : m k = some v)
    (hmax : v.length ≤ valMax) : ((r.prog srv).run kvExec m).1 k = some v := by
  have hbody (mn mx : Nat) (key : List UInt8) (ttlSec : UInt32) :
      ((guarded srv r.conn vcAclWrite <| argcCheck r.conn r.argv mn mx <|
        setAgain r.conn key ttlSec).run kvExec m).1 k = some v := by
    unfold guarded argcCheck
    split
    · exact hv
    · split
      · exact hv
      · exact setAgain_keeps r.conn key ttlSec hv hmax
  cases hx : executed srv r.conn r.argv with
  | none =>
    obtain ⟨reply, -, hreply⟩ := vcDispatch_of_not_executed hx
    rw [Request.prog, hreply]
    exact hv
  | some e =>
    rw [Request.prog, dispatch_run_state hx]
    have hlookup := (executed_eq_some.mp hx).2.1
    obtain ⟨args, hargs | hargs⟩ := hr
    · obtain rfl : ⟨"EXPIRE", cmdExpire, vcAclWrite⟩ = e := by
        rw [hargs] at hlookup
        exact Option.some.inj hlookup
      exact hbody 2 2 _ _
    · obtain rfl : ⟨"PERSIST", cmdPersist, vcAclWrite⟩ = e := by
        rw [hargs] at hlookup
        exact Option.some.inj hlookup
      exact hbody 1 1 _ _

theorem setValue_pos (v : List UInt8) : 0 < (setValue v).length := by
  unfold setValue
  split
  · assumption
  · decide

theorem Request.Sets.map {r : Request} {v : List UInt8} (hr : r.Sets srv k v) (hpos : 0 < k.length)
    (hk : k.length < 2 ^ 32) : ((r.prog srv).run kvExec m).1 k = some ((setValue v).take valMax) := by
  rw [Request.prog, hr.1, set_map hr.2, kvSet_self, if_pos ⟨hpos, hk, setValue_pos v⟩]

/-- The key has the value of one of the `SET`s. -/
def HasSet (srv : Srv) (reqs : ι → Request) (k : List UInt8) (m : KvMap) : Prop :=
  ∃ i v, (reqs i).Sets srv k v ∧ m k = some ((setValue v).take valMax)

theorem HasSet.step {reqs : ι → Request} (h : HasSet srv reqs k m) (hpos : 0 < k.length)
    (hk : k.length < 2 ^ 32) {i : ι} (hi : (∃ k v, (reqs i).Sets srv k v) ∨ (reqs i).Expires) :
    HasSet srv reqs k (((reqs i).prog srv).run kvExec m).1 := by
  obtain ⟨j, w, hw, hm⟩ := h
  rcases hi with ⟨k', v, hi⟩ | hi
  · by_cases hkk : k = k'
    · subst hkk
      exact ⟨i, v, hi, hi.map hpos hk⟩
    · refine ⟨j, w, hw, ?_⟩
      rw [Request.prog, hi.1, set_map hi.2, kvSet_of_ne hkk, hm]
  · refine ⟨j, w, hw, expires_map hi hm ?_⟩
    rw [List.length_take]
    exact Nat.min_le_left _ _

/-- A key that was set, among `SET`, `EXPIRE` and `PERSIST` only, has the value of a `SET`. -/
theorem serial_set {reqs : ι → Request} (hpos : 0 < k.length) (hk : k.length < 2 ^ 32)
    (hreqs : ∀ i, (∃ k v, (reqs i).Sets srv k v) ∨ (reqs i).Expires) (order : List ι)
    (hset : (∃ i ∈ order, ∃ v, (reqs i).Sets srv k v) ∨ HasSet srv reqs k m) :
    HasSet srv reqs k (serialRun kvExec (fun i => (reqs i).prog srv) order m) := by
  induction order generalizing m with
  | nil =>
    rcases hset with ⟨i, hi, -⟩ | hset
    · cases hi
    · exact hset
  | cons i order ih =>
    refine ih ?_
    rcases hset with ⟨j, hj, v, hv⟩ | hset
    · rcases List.mem_cons.mp hj with rfl | hj
      · exact .inr ⟨j, v, hv, hv.map hpos hk⟩
      · exact .inl ⟨j, hj, v, hv⟩
    · exact .inr (hset.step hpos hk (hreqs i))

end Serial

/-! ## Commands at the same time -/

/-- The commands of some clients, each on its own connection, before any of them has begun. -/
def clients {n : Nat} (srv : Srv) (reqs : Fin n → Request) (h : Host) :
    Pool HostReq.Resp (Option Dispatched) (Fin n) Host :=
  .start h fun i => (reqs i).prog srv

/-- The next call of the client uses no key that a command under way has written, writes none
that one has used, and is served. -/
def Alone {n : Nat} (p : Pool HostReq.Resp (Option Dispatched) (Fin n) Host) (i : Fin n) : Prop :=
  p.Undisturbed kvFootprint i ∧ ∀ a ∈ (p.prog i).next?, p.state.Serves a

instance {n : Nat} (p : Pool HostReq.Resp (Option Dispatched) (Fin n) Host) (i : Fin n) :
    Decidable (Alone p i) :=
  inferInstanceAs (Decidable (_ ∧ _))

section Clients

variable {n : Nat} {srv : Srv} {reqs : Fin n → Request} {h : Host} {m : KvMap} {sched : List (Fin n)}

/-- An order of all clients. -/
theorem length_order {order : List (Fin n)} (hnodup : order.Nodup) (hall : ∀ i, i ∈ order) :
    order.length = n := by
  have huniv : order.toFinset = Finset.univ := by
    ext i
    simp [hall i]
  rw [← List.toFinset_card_of_nodup hnodup, huniv, Finset.card_univ, Fintype.card_fin]

theorem keyed_request {r : Request} (hcmd : ∃ e, lookupCmd r.argv = some e ∧ e.name ∈ keyCommands)
    (hlen : ∀ a ∈ r.argv, a.length ≤ vcMaxInlineArg) : Keyed (r.prog srv) := by
  obtain ⟨e, he, hname⟩ := hcmd
  exact keyed_dispatch srv r.conn (fun a ha => Nat.lt_of_le_of_lt (hlen a ha) (by decide)) he hname

/-- The tables follow a map on which the same calls are made, and its final state is that of
some serial order. -/
theorem clients_serial (hkeyed : ∀ i, Keyed ((reqs i).prog srv)) (hm : h.world.cache.Reflects m)
    (hrun : Machine.Along (poolStep hostExec) Alone (clients srv reqs h) sched)
    (hdone : ∀ i, ((Machine.run (poolStep hostExec) (clients srv reqs h) sched).prog i).next? = none) :
    ∃ order : List (Fin n), order.Nodup ∧ (∀ i, i ∈ order) ∧
      (Machine.run (poolStep hostExec) (clients srv reqs h) sched).state.world.cache.Reflects
        (serialRun kvExec (fun i => (reqs i).prog srv) order m) := by
  obtain ⟨hkv, hend⟩ := pool_simulates
    (E := fun prog made i => ∀ a ∈ (prog i).next?, ∀ j, j ≠ i → (prog j).next? ≠ none →
      ∀ b ∈ made j, ¬ kvFootprint.Clash a b)
    hostExec_reflects hkeyed hm hrun
  have hdone' : ∀ i, ((Machine.run (poolStep kvExec)
      (.start m fun i => (reqs i).prog srv) sched).prog i).next? = none := by
    rw [hend.prog]
    exact hdone
  obtain ⟨order, hnodup, hall, hstate⟩ := serialisable kvFootprint_local hkeyed m hkv hdone'
  exact ⟨order, hnodup, hall, hstate ▸ hend.state⟩

/-- Commands that may read, change and write back keys, from any number of connections and in
any interleaving of their calls. If no call touches a key that another command under way is
using, and all calls are served, then the tables end with the map that the commands leave one
after the other, in some order; so do the tables of any cache where they are run in that
order. Increments of a number add up, and `EXPIRE` and `PERSIST` do not undo a `SET`. -/
theorem interleaving_serialisable
    (hcmd : ∀ i, ∃ e, lookupCmd (reqs i).argv = some e ∧ e.name ∈ keyCommands)
    (hlen : ∀ i, ∀ a ∈ (reqs i).argv, a.length ≤ vcMaxInlineArg) (hm : h.world.cache.Reflects m)
    (hrun : Machine.Along (poolStep hostExec) Alone (clients srv reqs h) sched)
    (hdone : ∀ i, ((Machine.run (poolStep hostExec) (clients srv reqs h) sched).prog i).next? = none) :
    let final := (Machine.run (poolStep hostExec) (clients srv reqs h) sched).state.world.cache
    (∃ order : List (Fin n), order.Nodup ∧ (∀ i, i ∈ order) ∧
      final.Reflects (serialRun kvExec (fun i => (reqs i).prog srv) order m) ∧
      ∀ h' : Host, h'.world.cache.Reflects m →
        SerialAlong hostExec Host.Serves (fun i => (reqs i).prog srv) order h' →
        (serialRun hostExec (fun i => (reqs i).prog srv) order h').world.cache.Reflects
          (serialRun kvExec (fun i => (reqs i).prog srv) order m)) ∧
    (∀ k v, (∀ i, (reqs i).argv = [str "INCR", k] ∧ needAuth srv (reqs i).conn vcAclWrite = none) →
      m k = some v → counterValue v + n < 2 ^ 63 →
      ∃ v', final.Holds k (some v') ∧ counterValue v' = counterValue v + n) ∧
    ∀ k, k ≠ [] → (∀ i, (∃ k v, (reqs i).Sets srv k v) ∨ (reqs i).Expires) →
      (∃ i v, (reqs i).Sets srv k v) →
      ∃ i v, (reqs i).Sets srv k v ∧ final.Holds k (some ((setValue v).take valMax)) := by
  intro final
  have hkeyed i : Keyed ((reqs i).prog srv) := keyed_request (hcmd i) (hlen i)
  obtain ⟨order, hnodup, hall, hfinal⟩ := clients_serial hkeyed hm hrun hdone
  refine ⟨⟨order, hnodup, hall, hfinal, fun h' hm' hserved =>
    serialRun_simulates hostExec_reflects hkeyed hm' hserved⟩, fun k v hincr hv hfits => ?_,
    fun k hk hreqs ⟨i, v, hi⟩ => ?_⟩
  · have hcount : order.length = n := length_order hnodup hall
    have hbounds := (hv ▸ hm.holds k : h.world.cache.Holds k (some v)).key_bounds hm.valid
    obtain ⟨v', hv', hval⟩ := serial_incr hbounds.1 hbounds.2 hincr order hv
      (by rw [hcount]; exact hfits)
    exact ⟨v', hv' ▸ hfinal.holds k, by rw [hval, hcount]⟩
  · have hbound : k.length < 2 ^ 32 := by
      have hk' := hlen i k (by rw [hi.1]; simp)
      exact Nat.lt_of_le_of_lt hk' (by decide)
    obtain ⟨j, w, hw, hend⟩ := serial_set (m := m) (List.length_pos_iff.mpr hk) hbound hreqs order
      (.inl ⟨i, hall i, v, hi⟩)
    exact ⟨j, w, hw, hend ▸ hfinal.holds k⟩

end Clients

/-- Two counters that are incremented in turns. -/
def twoCounters : Fin 2 → Request
  | 0 => ⟨freshConn, [str "INCR", str "a"]⟩
  | 1 => ⟨freshConn, [str "INCR", str "b"]⟩

theorem counters_in_turns :
    let progs := fun i => (twoCounters i).prog openServer
    ∃ order : List (Fin 2), order.Nodup ∧ (∀ i, i ∈ order) ∧
      (Machine.run (poolStep hostExec) (clients openServer twoCounters newHost)
        [0, 1, 0, 1]).state.world.cache.Reflects (serialRun kvExec progs order fun _ => none) := by
  intro progs
  have hincr : (⟨"INCR", cmdIncr, vcAclWrite⟩ : CmdEntry).name ∈ keyCommands := by decide
  have hcmd : ∀ i, ∃ e, lookupCmd (twoCounters i).argv = some e ∧ e.name ∈ keyCommands :=
    Fin.forall_fin_two.mpr ⟨⟨_, rfl, hincr⟩, ⟨_, rfl, hincr⟩⟩
  have hlen : ∀ i, ∀ a ∈ (twoCounters i).argv, a.length ≤ vcMaxInlineArg := by decide
  have hrun : Machine.Along (poolStep hostExec) Alone (clients openServer twoCounters newHost)
      [0, 1, 0, 1] := by
    decide +kernel
  obtain ⟨order, hnodup, hmem, hfinal, -⟩ :=
    (interleaving_serialisable hcmd hlen newHost_reflects hrun (by decide +kernel)).1
  exact ⟨order, hnodup, hmem, hfinal⟩

/-- Two increments of one counter. -/
def twoIncrements (_ : Fin 2) : Request := ⟨freshConn, [str "INCR", str "k"]⟩

/-- Both increments read before either of them writes. The counter ends at one, which no serial
order leaves. -/
theorem increment_lost :
    let progs := fun i => (twoIncrements i).prog openServer
    let final := Machine.run (poolStep hostExec) (clients openServer twoIncrements newHost) [0, 1, 0, 1]
    (∀ i, (final.prog i).next? = none) ∧ (final.state.get (str "k")).2 = .ok (counterBytes 1) ∧
      ¬ ∃ order : List (Fin 2), order.Nodup ∧ (∀ i, i ∈ order) ∧
        final.state.world.cache.Reflects (serialRun kvExec progs order fun _ => none) := by
  intro progs final
  have hone : (final.state.get (str "k")).2 = .ok (counterBytes 1) := by decide +kernel
  refine ⟨by decide +kernel, hone, ?_⟩
  rintro ⟨order, hnodup, hall, hfinal⟩
  have hlength : order.length = 2 := length_order hnodup hall
  obtain ⟨a, b, rfl⟩ := List.length_eq_two.mp hlength
  have htwo : ∀ a b, serialRun kvExec progs [a, b] (fun _ => none) (str "k") = some (counterBytes 2) := by
    decide +kernel
  have hget := (get_reflects hfinal (by decide) (by decide +kernel : final.state.Calm (.get (str "k")))).1
  rw [hone, htwo a b] at hget
  exact absurd (Except.ok.inj hget) (by decide)

end VoidCache
