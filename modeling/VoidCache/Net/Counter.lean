import VoidCache.Net.WriteReply

/-!
# Counter arithmetic

`INCR`, `DECR`, `INCRBY` and `DECRBY` are one function of the source: it reads the number under
the key, adds, and stores the sum as a typed integer. It parses the operand itself, so the sign
that `DECRBY` has put before it is lost. The sum wraps around, and no value and no operand is
ever refused.
-/
namespace VoidCache

def IsInt64 (v : Int) : Prop := -2 ^ 63 ≤ v ∧ v < 2 ^ 63

instance (v : Int) : Decidable (IsInt64 v) := inferInstanceAs (Decidable (_ ∧ _))

/-! ## Numbers as values -/

/-- What `vc_get` returns stands for the number: nothing for 0, its decimal text, or a typed
integer. -/
inductive CountsAs : Except VcErr (List UInt8) → Int → Prop where
  | absent (e : VcErr) : CountsAs (.error e) 0
  | text (v : Int) (h : IsInt64 v) : CountsAs (.ok (decimalInt v)) v
  | typed (v : Int) (h : IsInt64 v) : CountsAs (.ok (counterBytes v)) v

/-- The number that a counter command finds. -/
def counterOf : Except VcErr (List UInt8) → Int
  | .ok val => counterValue val
  | .error _ => 0

theorem parseNum_decimalInt {v : Int} (h : IsInt64 v) : parseNum (decimalInt v) = v := by
  rw [parseNum, cstr_eq_self (zero_notMem_decimalInt v), strtoll_decimalInt h.1 h.2]

theorem counterValue_decimalInt {v : Int} (h : IsInt64 v) : counterValue (decimalInt v) = v := by
  have hlen := length_decimalInt_le h.1 h.2
  have hplain : ¬ ((decimalInt v).length = vcWireMagic.length + 1 + 8 ∧
      (decimalInt v).take vcWireMagic.length = vcWireMagic ∧
      (decimalInt v).getD vcWireMagic.length 0 = vcTypeInt64) := by
    rintro ⟨-, hmagic, -⟩
    have hmem : (42 : UInt8) ∈ decimalInt v :=
      List.mem_of_mem_take (hmagic ▸ (by decide : (42 : UInt8) ∈ vcWireMagic))
    exact absurd (isDigit_or_minus hmem) (by decide)
  rw [counterValue, if_neg hplain, if_pos (by omega), List.take_length, parseNum_decimalInt h]

theorem CountsAs.isInt64 {r : Except VcErr (List UInt8)} {v : Int} (h : CountsAs r v) : IsInt64 v := by
  cases h with
  | absent => decide
  | text v h => exact h
  | typed v h => exact h

theorem CountsAs.counterOf_eq {r : Except VcErr (List UInt8)} {v : Int} (h : CountsAs r v) :
    counterOf r = v := by
  cases h with
  | absent => rfl
  | text v h => exact counterValue_decimalInt h
  | typed v h => exact counterValue_counterBytes h.1 h.2

/-- The bytes that a counter command stores stand for one number only. -/
theorem CountsAs.eq_of_counterBytes {v w : Int} (hw : IsInt64 w) (h : CountsAs (.ok (counterBytes w)) v) :
    v = w := by
  have hv := h.counterOf_eq
  rw [counterOf, counterValue_counterBytes hw.1 hw.2] at hv
  exact hv.symm

/-! ## The commands -/

inductive CounterCmd where
  | incr | decr | incrby | decrby
  deriving DecidableEq

namespace CounterCmd

def name : CounterCmd → String
  | incr => "INCR"
  | decr => "DECR"
  | incrby => "INCRBY"
  | decrby => "DECRBY"

def handler : CounterCmd → Handler
  | incr => cmdIncr
  | decr => cmdDecr
  | incrby => cmdIncrby2
  | decrby => cmdDecrby

/-- The command for a key, with or without an operand. -/
def argv (c : CounterCmd) (k : List UInt8) (operand : Option (List UInt8)) : List (List UInt8) :=
  str c.name :: k :: operand.toList

/-- What the code adds: the operand, if there is one, whatever the command. -/
def added (c : CounterCmd) : Option (List UInt8) → Int
  | some t => parseNum t
  | none =>
    match c with
    | incr => 1
    | decr => -1
    | incrby => 0
    | decrby => 0

theorem lookup (c : CounterCmd) (k : List UInt8) (operand : Option (List UInt8)) :
    lookupCmd (c.argv k operand) = some ⟨c.name, c.handler, vcAclWrite⟩ := by
  cases c <;> rfl

end CounterCmd

section Runs

variable {srv : Srv} {conn : Conn} {h : Host} {k : List UInt8}

theorem CounterCmd.handler_eq (hmay : needAuth srv conn vcAclWrite = none) (c : CounterCmd)
    (k : List UInt8) (operand : Option (List UInt8)) :
    c.handler srv conn (c.argv k operand) = callGet k >>= fun r =>
      callSet k (counterBytes (addInt64 (counterOf r) (c.added operand))) 0 >>= fun _ =>
        conn.answer (respWriteVcInt64 (addInt64 (counterOf r) (c.added operand)) ++
          respWriteInteger (addInt64 (counterOf r) (c.added operand))) := by
  have hbody (delta : Int) (hdelta : (if (c.argv k operand).length = 3 then
      parseNum (arg (c.argv k operand) 2) else delta) = c.added operand) :
      cmdIncrby srv conn (c.argv k operand) delta = callGet k >>= fun r =>
        callSet k (counterBytes (addInt64 (counterOf r) (c.added operand))) 0 >>= fun _ =>
          conn.answer (respWriteVcInt64 (addInt64 (counterOf r) (c.added operand)) ++
            respWriteInteger (addInt64 (counterOf r) (c.added operand))) := by
    have hargc : ¬ ((c.argv k operand).length - 1 < 1 ∨ 2 < (c.argv k operand).length - 1) := by
      cases operand <;> simp [CounterCmd.argv]
    have hkey : arg (c.argv k operand) 1 = k := rfl
    simp only [cmdIncrby, guarded, hmay, argcCheck, if_neg hargc, hdelta, hkey]
    rfl
  cases c <;> cases operand <;> exact hbody _ rfl

theorem CounterCmd.executed_eq (hmay : needAuth srv conn vcAclWrite = none) (c : CounterCmd)
    (operand : Option (List UInt8)) :
    executed srv conn (c.argv k operand) = some ⟨c.name, c.handler, vcAclWrite⟩ :=
  executed_eq_some.mpr ⟨by simp [CounterCmd.argv], c.lookup k operand, .inr hmay⟩

/-- The sum that one of the commands computes. -/
def CounterCmd.sum (c : CounterCmd) (h : Host) (k : List UInt8) (operand : Option (List UInt8)) : Int :=
  addInt64 (counterOf (h.get k).2) (c.added operand)

/-- The host after the two calls of a counter command that stores `r`. -/
def Host.counted (h : Host) (k : List UInt8) (r : Int) : Host := ((h.get k).1.set k (counterBytes r) 0).1

theorem CounterCmd.dispatch_run (hmay : needAuth srv conn vcAclWrite = none) (c : CounterCmd)
    (operand : Option (List UInt8)) :
    ((vcDispatch srv conn (c.argv k operand)).run hostExec h).1 = h.counted k (c.sum h k operand) ∧
      dispatchText ((vcDispatch srv conn (c.argv k operand)).run hostExec h).2 =
        some (respWriteVcInt64 (c.sum h k operand) ++ respWriteInteger (c.sum h k operand)) := by
  rw [vcDispatch_run (c.executed_eq hmay operand)]
  dsimp only
  rw [c.handler_eq hmay]
  exact ⟨rfl, rfl⟩

theorem CounterCmd.dispatch_log (hmay : needAuth srv conn vcAclWrite = none) (c : CounterCmd)
    (operand : Option (List UInt8)) :
    (vcDispatch srv conn (c.argv k operand)).log hostExec h =
      [⟨.get k, (hostExec h (.get k)).2⟩,
        ⟨.set k (counterBytes (c.sum h k operand)) 0,
          (hostExec (h.get k).1 (.set k (counterBytes (c.sum h k operand)) 0)).2⟩] := by
  rw [vcDispatch_log (c.executed_eq hmay operand)]
  dsimp only
  rw [c.handler_eq hmay]
  rfl

end Runs

/-! ## Arithmetic -/

namespace CounterCmd

/-- The operand that the command is given for a number. -/
def operand (c : CounterCmd) (n : Int) : Option (List UInt8) :=
  match c with
  | incr => none
  | decr => none
  | incrby => some (decimalInt n)
  | decrby => some (decimalInt n)

/-- The number that the command is to leave. -/
def wanted (c : CounterCmd) (v n : Int) : Int :=
  match c with
  | incr => v + 1
  | decr => v - 1
  | incrby => v + n
  | decrby => v - n

/-- The sum does not overflow, and `DECRBY` is given one of the two operands that are their own
negation. -/
def Sound (c : CounterCmd) (v n : Int) : Prop :=
  match c with
  | incr => v ≠ 2 ^ 63 - 1
  | decr => v ≠ -2 ^ 63
  | incrby => IsInt64 (v + n)
  | decrby => n = 0 ∨ n = -2 ^ 63 ∧ v < 0

/-- The code computes the number that is wanted, and it is an `int64_t`, if and only if the command
is sound. -/
theorem sound_iff (c : CounterCmd) {v n : Int} (hv : IsInt64 v) (hn : IsInt64 n) :
    IsInt64 (c.wanted v n) ∧ addInt64 v (c.added (c.operand n)) = c.wanted v n ↔ c.Sound v n := by
  have hparse := parseNum_decimalInt hn
  unfold IsInt64 at hv hn
  cases c <;> simp only [operand, added, hparse, wanted, Sound, addInt64, toInt64, IsInt64] <;> grind

end CounterCmd

/-- The run stores a value that stands for the number, and every value of the reply is this number,
plain or typed. -/
def StoresCount (p : Prog (Option Dispatched)) (h : Host) (k : List UInt8) (r : Int) : Prop :=
  (∃ b ttlSec, CountsAs (.ok b) r ∧
    ⟨HostReq.set k b ttlSec, (Except.ok () : Except VcErr Unit)⟩ ∈ p.log hostExec h) ∧
  ∃ parts, parts ≠ [] ∧ dispatchText (p.run hostExec h).2 = some parts.flatten ∧
    ∀ w ∈ parts, w = respWriteInteger r ∨ w = respWriteVcInt64 r

/-- The reply is an error, and the entries of the key are what they were, with their expiry. -/
def RefusesCount (p : Prog (Option Dispatched)) (h : Host) (k : List UInt8) : Prop :=
  (∃ reply, dispatchText (p.run hostExec h).2 = some reply ∧ IsErrorReply reply) ∧
    (p.run hostExec h).1.world.cache.copies k = h.world.cache.copies k

/-- The memory that a counter command needs for its `vc_set` is there. -/
def Host.CanCount (h : Host) (k : List UInt8) : Prop :=
  0 < k.length ∧ k.length < 2 ^ 32 ∧
    CanStore (h.envs (h.calls + 1)).env h.world.cache.mem k (counterBytes 0)

instance (h : Host) (k : List UInt8) : Decidable (h.CanCount k) :=
  inferInstanceAs (Decidable (_ ∧ _ ∧ _))

section Counters

variable {srv : Srv} {conn : Conn} {h : Host} {k : List UInt8}

theorem canCount_iff (r : Int) :
    ((h.get k).1.set k (counterBytes r) 0).2 = .ok () ↔ h.CanCount k := by
  have hmem : (h.get k).1.world.cache.mem = h.world.cache.mem := (h.get_touched k).mem
  have hlen : (counterBytes r).length = (counterBytes 0).length := by
    rw [length_counterBytes, length_counterBytes]
  have hpos : 0 < (counterBytes 0).length := by rw [length_counterBytes]; decide
  rw [Host.set_ok_iff, hmem, Settable, CanStore, hlen, ← CanStore]
  exact ⟨fun ⟨⟨h1, h2, _⟩, h3⟩ => ⟨h1, h2, h3⟩, fun ⟨h1, h2, h3⟩ => ⟨⟨h1, h2, hpos⟩, h3⟩⟩

theorem isInt64_addInt64 (a b : Int) : IsInt64 (addInt64 a b) := toInt64_bounds _

/-- The one set that a counter command makes. -/
theorem CounterCmd.set_of_mem (hmay : needAuth srv conn vcAclWrite = none) (c : CounterCmd)
    {operand : Option (List UInt8)} {b : List UInt8} {ttlSec : UInt32}
    (hmem : ⟨HostReq.set k b ttlSec, (Except.ok () : Except VcErr Unit)⟩ ∈
      (vcDispatch srv conn (c.argv k operand)).log hostExec h) :
    b = counterBytes (c.sum h k operand) ∧
      ((h.get k).1.set k (counterBytes (c.sum h k operand)) 0).2 = .ok () := by
  rw [c.dispatch_log hmay] at hmem
  have hcall : ⟨HostReq.set k b ttlSec, (Except.ok () : Except VcErr Unit)⟩ =
      (⟨.set k (counterBytes (c.sum h k operand)) 0,
        ((h.get k).1.set k (counterBytes (c.sum h k operand)) 0).2⟩ : (a : HostReq) × a.Resp) := by
    rcases List.mem_cons.mp hmem with heq | hmem
    · cases congrArg Sigma.fst heq
    · exact List.mem_singleton.mp hmem
  obtain ⟨-, rfl, rfl⟩ := HostReq.set.inj (congrArg Sigma.fst hcall)
  exact ⟨rfl, (eq_of_heq (Sigma.mk.inj hcall).2).symm⟩

theorem storesCount_iff (hmay : needAuth srv conn vcAclWrite = none) (c : CounterCmd)
    (operand : Option (List UInt8)) (r : Int) :
    StoresCount (vcDispatch srv conn (c.argv k operand)) h k r ↔
      c.sum h k operand = r ∧ h.CanCount k := by
  obtain ⟨-, hreply⟩ := c.dispatch_run (h := h) (k := k) hmay operand
  constructor
  · rintro ⟨⟨b, ttlSec, hb, hmem⟩, -⟩
    obtain ⟨rfl, hok⟩ := c.set_of_mem hmay hmem
    exact ⟨(hb.eq_of_counterBytes (isInt64_addInt64 _ _)).symm, (canCount_iff _).mp hok⟩
  · rintro ⟨rfl, hcan⟩
    refine ⟨⟨_, 0, .typed _ (isInt64_addInt64 _ _), ?_⟩,
      [respWriteVcInt64 (c.sum h k operand), respWriteInteger (c.sum h k operand)], by simp, ?_, by simp⟩
    · rw [c.dispatch_log hmay]
      refine List.mem_cons_of_mem _ (List.mem_singleton.mpr ?_)
      exact congrArg (Sigma.mk _) ((canCount_iff _).mpr hcan).symm
    · rw [hreply]
      simp

/-- A counter command that may be given is never refused. -/
theorem not_refusesCount (hmay : needAuth srv conn vcAclWrite = none) (c : CounterCmd)
    (operand : Option (List UInt8)) : ¬ RefusesCount (vcDispatch srv conn (c.argv k operand)) h k := by
  rintro ⟨⟨reply, hreply, herr⟩, -⟩
  rw [(c.dispatch_run hmay operand).2, Option.some.injEq] at hreply
  exact (confirms_counter _ _).1 (hreply ▸ herr)

/-- For every key that is absent or holds a number `v`, as text or typed, and every operand `n`: the
number that the command is to leave is stored and reported, or refused if it is no `int64_t`, if
and only if the command is sound and its `vc_set` finds memory. The number is then the value of
the one entry of the key, unless the entry before it expired in the meantime or the table has no
room. -/
theorem counter_arithmetic (hmay : needAuth srv conn vcAclWrite = none) (c : CounterCmd) {v n : Int}
    (hcur : CountsAs (h.get k).2 v) (hn : IsInt64 n) :
    ((IsInt64 (c.wanted v n) → StoresCount (vcDispatch srv conn (c.argv k (c.operand n))) h k (c.wanted v n)) ∧
        (¬ IsInt64 (c.wanted v n) → RefusesCount (vcDispatch srv conn (c.argv k (c.operand n))) h k) ↔
      c.Sound v n ∧ h.CanCount k) ∧
    (c.Sound v n → h.CanCount k → h.world.cache.Valid →
      ∀ o, (h.get k).1.world.cache.Shows (h.get k).1.time k o →
        (h.get k).1.world.cache.HasRoom (h.get k).1.time k →
        ((vcDispatch srv conn (c.argv k (c.operand n))).run hostExec h).1.world.cache.Holds k
          (some (counterBytes (c.wanted v n)))) := by
  have hsum : c.sum h k (c.operand n) = addInt64 v (c.added (c.operand n)) := by
    rw [CounterCmd.sum, hcur.counterOf_eq]
  have hsound := c.sound_iff hcur.isInt64 hn
  constructor
  · by_cases hw : IsInt64 (c.wanted v n)
    · rw [and_iff_left (fun hnot => absurd hw hnot), storesCount_iff hmay, hsum, ← hsound]
      simp [hw]
    · constructor
      · rintro ⟨-, hrefused⟩
        exact absurd (hrefused hw) (not_refusesCount hmay c _)
      · rintro ⟨hs, -⟩
        exact absurd (hsound.mpr hs).1 hw
  · intro hs hcan hvalid o hshows hroom
    rw [(c.dispatch_run hmay _).1, hsum, (hsound.mpr hs).2]
    have hcopies := Host.set_copies ((h.get_touched k).valid hvalid)
      ((canCount_iff (c.wanted v n)).mpr hcan) hshows hroom
    refine ⟨_, hcopies, ?_⟩
    show Cell.bytes ((counterBytes (c.wanted v n)).take valMax) = _
    rw [List.take_of_length_le (by rw [length_counterBytes]; decide)]

theorem counted_five :
    let p := vcDispatch openServer freshConn [str "INCRBY", str "k", decimalInt 5]
    StoresCount p newHost (str "k") 5 ∧
      (p.run hostExec newHost).1.world.cache.Holds (str "k") (some (counterBytes 5)) := by
  have habsent : CountsAs (newHost.get (str "k")).2 0 := by
    have hget : (newHost.get (str "k")).2 = .error .notFnd := by decide +kernel
    rw [hget]
    exact .absent _
  have hcan : newHost.CanCount (str "k") := by decide +kernel
  have hsound : CounterCmd.incrby.Sound 0 5 := (by decide : IsInt64 (0 + 5))
  obtain ⟨hiff, hholds⟩ := @counter_arithmetic openServer freshConn newHost (str "k") (by decide) .incrby
    0 5 habsent (by decide)
  have hshows : (newHost.get (str "k")).1.world.cache.Shows (newHost.get (str "k")).1.time (str "k") none := by
    rw [Cache.Shows, Cache.copies, (newHost.get_touched (str "k")).items]
    exact newCache_shows 0 _
  exact ⟨(hiff.mpr ⟨hsound, hcan⟩).1 (by decide),
    hholds hsound hcan newCache_reachable.valid none hshows (by decide +kernel)⟩

/-- `DECRBY` adds, and the greatest number is followed by the least. -/
theorem decrby_adds :
    let ten := ((vcDispatch openServer freshConn [str "SET", str "k", decimalInt 10]).run hostExec newHost).1
    let decrby := vcDispatch openServer freshConn [str "DECRBY", str "k", decimalInt 3]
    let max := ((vcDispatch openServer freshConn
      [str "SET", str "k", decimalInt (2 ^ 63 - 1)]).run hostExec newHost).1
    let incr := vcDispatch openServer freshConn [str "INCR", str "k"]
    ((ten.get (str "k")).2 = .ok (decimalInt 10) ∧ ¬ StoresCount decrby ten (str "k") 7 ∧
      ((decrby.run hostExec ten).1.get (str "k")).2 = .ok (counterBytes 13)) ∧
    (max.get (str "k")).2 = .ok (decimalInt (2 ^ 63 - 1)) ∧ ¬ RefusesCount incr max (str "k") ∧
      ((incr.run hostExec max).1.get (str "k")).2 = .ok (counterBytes (-2 ^ 63)) := by
  intro ten decrby max incr
  refine ⟨⟨by decide +kernel, fun hstores => ?_, by decide +kernel⟩, by decide +kernel,
    not_refusesCount (by decide) .incr none, by decide +kernel⟩
  have hsum := ((storesCount_iff (by decide) .decrby (some (decimalInt 3)) 7).mp hstores).1
  exact absurd hsum (by decide +kernel)

/-- A counter command answers with an error and leaves value and expiry of its key, whatever they and
its operand are, if and only if the connection may not write. -/
theorem counter_refused_iff (c : CounterCmd) (operand : Option (List UInt8)) :
    RefusesCount (vcDispatch srv conn (c.argv k operand)) h k ↔ needAuth srv conn vcAclWrite ≠ none := by
  constructor
  · intro hrefused hmay
    exact not_refusesCount hmay c operand hrefused
  · intro hdenied
    obtain ⟨denied, hdenied⟩ := Option.ne_none_iff_exists'.mp hdenied
    have hacl : vcAclWrite ≠ 0 := by decide
    rw [vcDispatch_of_denied (c.lookup k operand) (by simp [CounterCmd.argv]) hacl hdenied]
    refine ⟨⟨denied, rfl, ?_⟩, rfl⟩
    unfold needAuth at hdenied
    split_ifs at hdenied <;> cases hdenied <;> decide +kernel

/-- `INCR` takes a text that is no number for 0, and `INCRBY` such an operand. -/
theorem text_counted :
    let h := ((vcDispatch openServer freshConn [str "SET", str "k", str "abc"]).run hostExec newHost).1
    let incr := vcDispatch openServer freshConn [str "INCR", str "k"]
    let incrby := vcDispatch openServer freshConn [str "INCRBY", str "k", str "x"]
    (h.get (str "k")).2 = .ok (str "abc") ∧
      (¬ RefusesCount incr h (str "k") ∧
        ((incr.run hostExec h).1.get (str "k")).2 = .ok (counterBytes 1)) ∧
      ¬ RefusesCount incrby h (str "k") ∧
        ((incrby.run hostExec h).1.get (str "k")).2 = .ok (counterBytes 0) := by
  intro h incr incrby
  exact ⟨by decide +kernel, ⟨not_refusesCount (by decide) .incr none, by decide +kernel⟩,
    not_refusesCount (by decide) .incrby (some (str "x")), by decide +kernel⟩

end Counters

end VoidCache
