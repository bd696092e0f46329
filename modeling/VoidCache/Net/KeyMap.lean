import VoidCache.Net.Behaviour
import VoidCache.Net.Store

/-!
# The cache as a map

`kvExec` answers the calls of a program from a map of keys to values. `Reflects` says that the
tables hold what such a map holds. The calls on single keys keep this as long as the cache
`Serves` them: no entry of the key has expired, and a set finds memory and a shard below the
eviction threshold. A program that is served thus does to the tables what it does to the map.
-/
namespace VoidCache

/-- What `vc_set` stores, unless it rejects its arguments. -/
def kvSet (m : KvMap) (key val : List UInt8) : KvMap :=
  if Settable key val then Function.update m key (some (val.take valMax)) else m

theorem kvSet_self (m : KvMap) (key val : List UInt8) :
    kvSet m key val key = if Settable key val then some (val.take valMax) else m key := by
  rw [kvSet]
  split
  · exact Function.update_self ..
  · rfl

theorem kvSet_of_ne {m : KvMap} {k key val : List UInt8} (hk : k ≠ key) : kvSet m key val k = m k := by
  rw [kvSet]
  split
  · exact Function.update_of_ne hk _ _
  · rfl

/-- The calls on a map. Memory does not run out; what statistics, tables and stray reads show
is left open. -/
def kvExec (m : KvMap) : (a : HostReq) → KvMap × a.Resp
  | .get key => (m, lookupResult (m key))
  | .set key val _ => (kvSet m key val, if Settable key val then .ok () else .error .inval)
  | .del key => (Function.update m key none, if (m key).isSome then .ok () else .error .notFnd)
  | .flush => (fun _ => none, ())
  | .stats => (m, ⟨0, 0, 0, 0, 0, 0, 0⟩)
  | .tables => (m, fun _ => [])
  | .malloc _ => (m, true)
  | .overread _ => (m, fun _ => 0)

structure Cache.Reflects (c : Cache) (m : KvMap) : Prop where
  valid : c.Valid
  exact : c.Exact
  holds : ∀ key, c.Holds key (m key)

/-- Calls on a single key of at most `UINT32_MAX` bytes, and allocations. -/
def KeyCall : HostReq → Prop
  | .get key => key.length < 2 ^ 32
  | .set key _ _ => key.length < 2 ^ 32
  | .del key => key.length < 2 ^ 32
  | .malloc _ => True
  | _ => False

/-- A set that is not rejected finds its memory. -/
def Host.Stores (h : Host) : HostReq → Prop
  | .set key val _ => Settable key val → CanStore (h.envs h.calls).env h.world.cache.mem key val
  | _ => True

/-- No entry of the key has expired, and no set can evict. -/
def Host.Calm (h : Host) : HostReq → Prop
  | .get key => h.world.cache.Unshadowed h.time key
  | .set key _ _ => h.world.cache.Unshadowed h.time key ∧ h.world.cache.Below
  | .del key => h.world.cache.Unshadowed h.time key
  | _ => True

def Host.Allocates (h : Host) : HostReq → Prop
  | .malloc size => (h.envs h.calls).mallocOk size = true
  | _ => True

structure Host.Serves (h : Host) (a : HostReq) : Prop where
  calm : h.Calm a
  stores : h.Stores a
  allocates : h.Allocates a

section Decidable

instance (c : Cache) (now : Nat) (key : List UInt8) : Decidable (c.Unshadowed now key) :=
  inferInstanceAs (Decidable (∀ i ∈ c.items, i.key = Cell.bytes key → i.expired now = false))

variable (h : Host)

instance : (a : HostReq) → Decidable (h.Stores a)
  | .set .. => inferInstanceAs (Decidable (_ → _))
  | .get _ | .del _ | .flush | .stats | .tables | .malloc _ | .overread _ => isTrue trivial

instance : (a : HostReq) → Decidable (h.Calm a)
  | .get key | .del key => inferInstanceAs (Decidable (h.world.cache.Unshadowed h.time key))
  | .set .. => inferInstanceAs (Decidable (_ ∧ _))
  | .flush | .stats | .tables | .malloc _ | .overread _ => isTrue trivial

instance : (a : HostReq) → Decidable (h.Allocates a)
  | .malloc _ => inferInstanceAs (Decidable (_ = true))
  | .get _ | .set .. | .del _ | .flush | .stats | .tables | .overread _ => isTrue trivial

instance (a : HostReq) : Decidable (h.Serves a) :=
  decidable_of_iff (h.Calm a ∧ h.Stores a ∧ h.Allocates a)
    ⟨fun ⟨hc, hs, ha⟩ => ⟨hc, hs, ha⟩, fun ⟨hc, hs, ha⟩ => ⟨hc, hs, ha⟩⟩

end Decidable

section Calls

variable {h : Host} {m : KvMap} {key val : List UInt8} {ttlSec : UInt32}

theorem Cache.Reflects.create {file : Option (Nat → UInt8)} {slots : UInt32} {c : Cache}
    (hc : vcCreate file slots = some c) : c.Reflects fun _ => none := by
  obtain ⟨hvalid, hempty⟩ := vcCreate_outcome hc
  refine ⟨hvalid, vcCreate_exact hc, fun key => ?_⟩
  show c.copies key = 0
  rw [Cache.copies, hempty]
  rfl

theorem newHost_reflects : newHost.world.cache.Reflects fun _ => none :=
  .create (rfl : vcCreate none 8 = some (newCache none 8))

theorem Cache.Reflects.of_touched {c c' : Cache} (h : c.Reflects m) (ht : Touched c c') : c'.Reflects m :=
  ⟨ht.valid h.valid, ht.exact h.exact, fun key => (h.holds key).of_copies (Cache.copies_congr ht.items key)⟩

theorem Cache.Reflects.shows {c : Cache} {now : Nat} (h : c.Reflects m) (hx : c.Unshadowed now key) :
    c.Shows now key (m key) :=
  (h.holds key).shows hx

theorem Cache.Holds.key_bounds {c : Cache} (hv : c.Valid) (h : c.Holds key (some val)) :
    0 < key.length ∧ key.length < 2 ^ 32 := by
  obtain ⟨i, hi, -⟩ := h
  obtain ⟨hmem, hik⟩ := Cache.mem_copies.mp (hi ▸ Multiset.mem_singleton_self i : i ∈ c.copies key)
  obtain ⟨d, hd, rfl⟩ := Cache.Valid.mem_items.mp hmem
  obtain ⟨si, hsi, hd⟩ := Cache.Valid.mem_contents.mp hd
  obtain ⟨k, v, hn, -⟩ := hv.named si hsi d hd
  rw [hn.item] at hik
  rw [← Cell.bytes_injective hik]
  exact ⟨hn.pos, hn.bound⟩

theorem get_reflects (hm : h.world.cache.Reflects m) (hk : key.length < 2 ^ 32)
    (hcalm : h.Calm (.get key)) :
    (h.get key).2 = lookupResult (m key) ∧ (h.get key).1.world.cache.Reflects m :=
  ⟨Host.get_result (hm.shows hcalm) hm.valid hk, hm.of_touched (h.get_touched key)⟩

/-- A map after one key has changed, in a cache where only the entries of that key have. -/
theorem Cache.Reflects.update {c c' : Cache} {o : Option (List UInt8)} (h : c.Reflects m)
    (hv : c'.Valid) (hx : c'.Exact) (hself : c'.Holds key o)
    (hother : ∀ k, k ≠ key → c'.copies k = c.copies k) :
    c'.Reflects (Function.update m key o) := by
  refine ⟨hv, hx, fun k => ?_⟩
  by_cases hk : k = key
  · rw [hk, Function.update_self]
    exact hself
  · rw [Function.update_of_ne hk]
    exact (h.holds k).of_copies (hother k hk)

theorem Host.set_ok_iff :
    (h.set key val ttlSec).2 = .ok () ↔
      Settable key val ∧ CanStore (h.envs h.calls).env h.world.cache.mem key val := by
  show (vcSet h.world.cache h.time (h.envs h.calls).env key val ttlSec).1 = _ ↔ _
  rw [vcSet_eq]
  by_cases hset : Settable key val
  · rw [if_pos hset, vcSetStore_ok_iff]
    exact (and_iff_right hset).symm
  · rw [if_neg hset]
    simp [hset]

theorem Host.set_of_not_settable (hset : ¬ Settable key val) :
    (h.set key val ttlSec).2 = .error .inval ∧
      (h.set key val ttlSec).1.world.cache = h.world.cache := by
  have hcall : vcSet h.world.cache h.time (h.envs h.calls).env key val ttlSec =
      (.error .inval, h.world.cache) := by
    rw [vcSet_eq, if_neg hset]
  exact ⟨congrArg Prod.fst hcall, congrArg Prod.snd hcall⟩

/-- A set that succeeds below the threshold. -/
theorem stored_reflects (hm : h.world.cache.Reflects m) (hcalm : h.Calm (.set key val ttlSec))
    (hok : (h.set key val ttlSec).2 = .ok ()) :
    Settable key val ∧ (h.set key val ttlSec).1.world.cache.Reflects
      (Function.update m key (some (val.take valMax))) := by
  obtain ⟨hset, ev, left, rest, hs⟩ := Host.set_ok hm.valid hok
  have heffect := @Host.set_effect h key val ttlSec hm.valid
  have hk := hset.2.1
  obtain ⟨rfl, rfl⟩ := hs.calm hm.valid hcalm.2 hm.exact
  have hexact := Effect.exact (w := ⟨h.world.cache, h.time⟩) heffect
    (fun _ => hcalm.2.hasRoom hm.valid _ _) hm.exact
  have hcopies := hs.copies (hm.shows hcalm.1) hm.valid hk rfl (by simp)
  refine ⟨hset, hm.update hs.valid hexact ⟨_, hcopies, rfl⟩ fun k hne => ?_⟩
  exact hs.copies_of_ne hm.valid hk rfl hne (by simp) (by simp)

theorem set_reflects (hm : h.world.cache.Reflects m) (hcalm : h.Calm (.set key val ttlSec))
    (hstores : h.Stores (.set key val ttlSec)) :
    (h.set key val ttlSec).2 = (if Settable key val then .ok () else .error .inval) ∧
      (h.set key val ttlSec).1.world.cache.Reflects (kvSet m key val) := by
  by_cases hset : Settable key val
  · have hok : (h.set key val ttlSec).2 = .ok () := Host.set_ok_iff.mpr ⟨hset, hstores hset⟩
    rw [kvSet, if_pos hset, if_pos hset]
    exact ⟨hok, (stored_reflects hm hcalm hok).2⟩
  · obtain ⟨herr, hsame⟩ := @Host.set_of_not_settable h key val ttlSec hset
    rw [kvSet, if_neg hset, if_neg hset, hsame]
    exact ⟨herr, hm⟩

theorem del_reflects (hm : h.world.cache.Reflects m) (hk : key.length < 2 ^ 32)
    (hcalm : h.Calm (.del key)) :
    (h.del key).2 = (if (m key).isSome then .ok () else .error .notFnd) ∧
      (h.del key).1.world.cache.Reflects (Function.update m key none) := by
  have heffect := @Host.del_effect h key hm.valid
  have hexact := Effect.exact (w := ⟨h.world.cache, h.time⟩) heffect trivial hm.exact
  have hone := (hm.shows hcalm).one_findItem hm.valid hk
  generalize (h.del key).2 = r at heffect ⊢
  generalize (h.del key).1.world.cache = c' at heffect hexact ⊢
  cases heffect with
  | deleted hd =>
    have hsome : (m key).isSome := by
      cases ho : m key with
      | some val => rfl
      | none =>
        have hnone := hm.holds key
        rw [ho] at hnone
        rw [hd.found, show h.world.cache.copies key = 0 from hnone] at hone
        exact absurd hone (Multiset.singleton_ne_zero _)
    rw [if_pos hsome]
    exact ⟨rfl, hm.update hd.valid hexact (hd.copies (hm.shows hcalm) hm.valid hk) fun k hne =>
      hd.copies_of_ne hm.valid hk hne⟩
  | absent hf ht =>
    rw [Cache.findItem, hf, Option.map_none, one_none] at hone
    have hnone : m key = none := (hm.holds key).eq (hone.symm : h.world.cache.Holds key none)
    have hsame : Function.update m key none = m := hnone ▸ Function.update_eq_self key m
    rw [hsame, hnone]
    exact ⟨rfl, hm.of_touched ht⟩

end Calls

/-- A call that is served does to the tables what it does to the map. -/
theorem hostExec_reflects (h : Host) (m : KvMap) (a : HostReq) (ha : KeyCall a)
    (hm : h.world.cache.Reflects m) (hs : h.Serves a) :
    (hostExec h a).2 = (kvExec m a).2 ∧ (hostExec h a).1.world.cache.Reflects (kvExec m a).1 := by
  cases a with
  | get key => exact get_reflects hm ha hs.calm
  | set key val ttlSec => exact set_reflects hm hs.calm hs.stores
  | del key => exact del_reflects hm ha hs.calm
  | malloc size => exact ⟨hs.allocates, hm⟩
  | _ => exact ha.elim

section Run

variable {R : Type} (m : KvMap)

@[simp] theorem kvRun_callGet (key : List UInt8) (f : Except VcErr (List UInt8) → Prog R) :
    (callGet key >>= f).run kvExec m = (f (lookupResult (m key))).run kvExec m := rfl

@[simp] theorem kvRun_callSet (key val : List UInt8) (ttlSec : UInt32) (f : Except VcErr Unit → Prog R) :
    (callSet key val ttlSec >>= f).run kvExec m =
      (f (if Settable key val then .ok () else .error .inval)).run kvExec (kvSet m key val) := rfl

@[simp] theorem kvRun_callMalloc (size : Nat) (f : Bool → Prog R) :
    (callMalloc size >>= f).run kvExec m = (f true).run kvExec m := rfl

@[simp] theorem kvRun_answer (conn : Conn) (reply : List UInt8) :
    (conn.answer reply).run kvExec m = (m, some ⟨conn, reply⟩) := rfl

end Run

/-! ## Commands on keys -/

/-- The commands that may change keys one by one. -/
def keyCommands : List String :=
  ["SET", "MSET", "DEL", "EXPIRE", "PERSIST", "RENAME", "APPEND", "INCR", "DECR", "INCRBY", "DECRBY",
   "VCSET"]

/-- Whatever its calls return, the program makes key calls only. -/
def Keyed {R : Type} (p : Prog R) : Prop := p.Meets KeyCall fun _ => True

namespace Keyed

variable {R S : Type} {srv : Srv} {conn : Conn} {argv : List (List UInt8)} {p : Prog (Option Answer)}
  {key : List UInt8}

theorem ite {c : Prop} [Decidable c] {p q : Prog R} (hp : Keyed p) (hq : Keyed q) :
    Keyed (if c then p else q) :=
  Calls.Meets.ite (fun _ => hp) fun _ => hq

theorem guarded {acl : UInt32} (hp : Keyed p) : Keyed (guarded srv conn acl p) := by
  unfold VoidCache.guarded
  split
  · exact trivial
  · exact hp

theorem argcCheck {mn mx : Nat} (hp : Keyed p) : Keyed (argcCheck conn argv mn mx p) :=
  ite trivial hp

theorem ask {a : HostReq} {f : a.Resp → Prog R} (ha : KeyCall a) (hf : ∀ v, Keyed (f v)) :
    Keyed (Calls.ask a >>= f) :=
  Calls.Meets.ask_bind ha hf

theorem bind {p : Prog S} {f : S → Prog R} (hp : Keyed p) (hf : ∀ v, Keyed (f v)) :
    Keyed (p >>= f) :=
  Calls.Meets.bind hp fun v _ => hf v

theorem get (hk : key.length < 2 ^ 32) {f : Except VcErr (List UInt8) → Prog R}
    (hok : ∀ val, Keyed (f (.ok val))) (herr : ∀ e, Keyed (f (.error e))) : Keyed (callGet key >>= f) :=
  ask hk fun r => by
    cases r with
    | ok val => exact hok val
    | error e => exact herr e

end Keyed

section Keyed

variable (srv : Srv) (conn : Conn) {argv : List (List UInt8)}

theorem length_arg_lt (h : ∀ a ∈ argv, a.length < 2 ^ 32) (i : Nat) : (arg argv i).length < 2 ^ 32 := by
  rw [arg, List.getD_eq_getElem?_getD]
  cases hi : argv[i]? with
  | none => simp
  | some a => exact h a (List.mem_of_getElem? hi)

theorem keyed_setAgain {key : List UInt8} (hk : key.length < 2 ^ 32) (ttlSec : UInt32) :
    Keyed (setAgain conn key ttlSec) :=
  .get hk (fun _ => .ask trivial fun _ => .ite trivial (.ask hk fun _ => trivial)) fun _ => trivial

variable (h : ∀ a ∈ argv, a.length < 2 ^ 32)
include h

theorem keyed_set : Keyed (cmdSet srv conn argv) := by
  have hk := length_arg_lt h 1
  have htaken (nx : Bool) : Keyed (nxTaken nx (arg argv 1)) := .ite (.ask hk fun _ => trivial) trivial
  have hmissing (xx : Bool) : Keyed (xxMissing xx (arg argv 1)) :=
    .ite (.ask hk fun _ => trivial) trivial
  refine .guarded (.ite trivial (.bind (htaken _) fun taken => .ite trivial ?_))
  refine .bind (hmissing _) fun missing => .ite trivial (.ask hk fun r => ?_)
  cases r with
  | ok u => trivial
  | error e => trivial

theorem keyed_incrby (delta : Int) : Keyed (cmdIncrby srv conn argv delta) :=
  .guarded (.argcCheck (.ask (length_arg_lt h 1) fun _ => .ask (length_arg_lt h 1) fun _ => trivial))

theorem keyed_append : Keyed (cmdAppend srv conn argv) := by
  have hk := length_arg_lt h 1
  refine .guarded (.argcCheck (.get hk (fun val => ?_) fun e => .ask hk fun _ => trivial))
  exact .ask trivial fun copied => .ite trivial (.ask hk fun _ => trivial)

theorem keyed_rename : Keyed (cmdRename srv conn argv) := by
  have hk := length_arg_lt h 1
  refine .guarded (.argcCheck (.get hk (fun val => .ask trivial fun copied => ?_) fun e => trivial))
  exact .ite trivial (.ask hk fun _ => .ask (length_arg_lt h 2) fun _ => trivial)

theorem keyed_mset : Keyed (cmdMset srv conn argv) := by
  have hloop (args : List (List UInt8)) (hargs : ∀ a ∈ args, a.length < 2 ^ 32) :
      Keyed (msetLoop args) := by
    fun_induction msetLoop args with
    | case1 key val rest ih =>
      exact .ask (hargs key (by simp)) fun _ => ih fun a ha => hargs a (by simp [ha])
    | case2 args _ => exact trivial
  refine .guarded (.ite trivial (.bind (hloop _ fun a ha => ?_) fun _ => trivial))
  exact h a (List.mem_of_mem_drop ha)

theorem keyed_del : Keyed (cmdDel srv conn argv) := by
  have hloop (keys : List (List UInt8)) (hkeys : ∀ a ∈ keys, a.length < 2 ^ 32) (n : Nat) :
      Keyed (countOk callDel keys n) := by
    induction keys generalizing n with
    | nil => trivial
    | cons key keys ih =>
      exact .ask (hkeys key (by simp)) fun _ => ih (fun a ha => hkeys a (by simp [ha])) _
  refine .guarded (.ite trivial (.bind (hloop _ (fun a ha => ?_) _) fun _ => trivial))
  exact h a (List.mem_of_mem_drop ha)

theorem keyed_vcset : Keyed (cmdVcset srv conn argv) := by
  refine .guarded (.ite trivial ?_)
  split
  · exact trivial
  · refine .ask trivial fun tb => .ite trivial ?_
    split
    · exact trivial
    · exact .ask (length_arg_lt h 1) fun _ => trivial

theorem keyed_fn {e : CmdEntry} (he : e ∈ cmdTable) (hname : e.name ∈ keyCommands) :
    Keyed (e.fn srv conn argv) := by
  have htable : (cmdTable.filter fun e => e.name ∈ keyCommands) =
      [⟨"SET", cmdSet, vcAclWrite⟩, ⟨"MSET", cmdMset, vcAclWrite⟩, ⟨"DEL", cmdDel, vcAclWrite⟩,
       ⟨"EXPIRE", cmdExpire, vcAclWrite⟩, ⟨"PERSIST", cmdPersist, vcAclWrite⟩,
       ⟨"RENAME", cmdRename, vcAclWrite⟩, ⟨"APPEND", cmdAppend, vcAclWrite⟩,
       ⟨"INCR", cmdIncr, vcAclWrite⟩, ⟨"DECR", cmdDecr, vcAclWrite⟩,
       ⟨"INCRBY", cmdIncrby2, vcAclWrite⟩, ⟨"DECRBY", cmdDecrby, vcAclWrite⟩,
       ⟨"VCSET", cmdVcset, vcAclWrite⟩] := rfl
  have hmem : e ∈ cmdTable.filter fun e => e.name ∈ keyCommands :=
    List.mem_filter.mpr ⟨he, decide_eq_true hname⟩
  have hall : ∀ e ∈ cmdTable.filter fun e => e.name ∈ keyCommands, Keyed (e.fn srv conn argv) := by
    rw [htable]
    simp only [List.forall_mem_cons]
    exact ⟨keyed_set srv conn h, keyed_mset srv conn h, keyed_del srv conn h,
      .guarded (.argcCheck (keyed_setAgain conn (length_arg_lt h 1) _)),
      .guarded (.argcCheck (keyed_setAgain conn (length_arg_lt h 1) _)),
      keyed_rename srv conn h, keyed_append srv conn h, keyed_incrby srv conn h _,
      keyed_incrby srv conn h _, keyed_incrby srv conn h _, keyed_incrby srv conn h _,
      keyed_vcset srv conn h, by simp⟩
  exact hall e hmem

theorem keyed_dispatch {e : CmdEntry} (he : lookupCmd argv = some e) (hname : e.name ∈ keyCommands) :
    Keyed (vcDispatch srv conn argv) := by
  cases hx : executed srv conn argv with
  | none =>
    obtain ⟨r, -, hr⟩ := vcDispatch_of_not_executed hx
    rw [hr]
    trivial
  | some e' =>
    have hee : e' = e := Option.some.inj ((executed_eq_some.mp hx).2.1.symm.trans he)
    rw [vcDispatch_of_executed hx]
    refine .bind ?_ fun _ => trivial
    exact keyed_fn srv conn h (mem_of_executed hx) (hee ▸ hname)

end Keyed

end VoidCache
