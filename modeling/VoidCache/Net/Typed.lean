import VoidCache.Net.Counter
import VoidCache.Net.Wire

/-!
# Typed values

`VCSET` stores a value behind the magic and a type byte, and `VCGET` answers with the name of the
type and the value. The six names of `VCSET` have only five type bytes: a `string` is stored as
`binary`.
-/
namespace VoidCache

/-! ## Values and their types -/

/-- An argument of `VCSET`, with its type. -/
inductive Typed where
  | int (n : Int) (h : IsInt64 n)
  | float (text : List UInt8)
  | bool (text : List UInt8)
  | json (data : List UInt8)
  | binary (data : List UInt8)
  | string (data : List UInt8)

/-- A text that stands for true. -/
def isTrueText (text : List UInt8) : Bool := isWord text "true" || cstr text == str "1"

namespace Typed

def typeName : Typed → String
  | int .. => "int"
  | float _ => "float"
  | bool _ => "bool"
  | json _ => "json"
  | binary _ => "binary"
  | string _ => "string"

def text : Typed → List UInt8
  | int n _ => decimalInt n
  | float text => text
  | bool text => text
  | json data => data
  | binary data => data
  | string data => data

/-- The value, as a reply. -/
def shown (libm : Libm) : Typed → List UInt8
  | int n _ => respWriteInteger n
  | float text => respWriteDouble (libm.fmtG (libm.strtod (cstr text)))
  | bool text => respWriteBool (isTrueText text)
  | json data => respWriteBulk data
  | binary data => respWriteBulk data
  | string data => respWriteBulk data

def IsString : Typed → Prop
  | string _ => True
  | _ => False

/-- The type byte and the payload that are stored. -/
def stored (libm : Libm) : Typed → List UInt8
  | int n _ => counterBytes n
  | float text => vcWireMagic ++ vcTypeFloat64 :: libm.strtod (cstr text)
  | bool text => vcWireMagic ++ vcTypeBool :: [if isTrueText text then 1 else 0]
  | json data => vcWireMagic ++ vcTypeJson :: data
  | binary data => vcWireMagic ++ vcTypeBinary :: data
  | string data => vcWireMagic ++ vcTypeBinary :: data

/-- The name that `VCGET` has for the stored type byte. -/
def nameShown : Typed → String
  | string _ => "binary"
  | v => v.typeName

theorem str_nameShown_iff (v : Typed) : str v.nameShown = str v.typeName ↔ ¬ v.IsString := by
  have hne : str "binary" ≠ str "string" := by decide
  cases v <;> simp [nameShown, typeName, IsString, hne]

end Typed

/-! ## Encoding and decoding -/

theorem typeOfName_congr {name : List UInt8} {w : String} (h : isWord name w = true) :
    typeOfName name = typeOfName (str w) := by
  simp only [typeOfName, isWord_congr h]

theorem typeByte_typed (t : UInt8) (payload : List UInt8) :
    typeByte (vcWireMagic ++ t :: payload) = some t := by
  have hheader : hasTypeHeader (vcWireMagic ++ t :: payload) = true := hasTypeHeader_iff.mpr ⟨t, payload, rfl⟩
  rw [typeByte, if_pos hheader]
  simp

theorem drop_typed (t : UInt8) (payload : List UInt8) :
    (vcWireMagic ++ t :: payload).drop (vcWireMagic.length + 1) = payload := by
  simp

theorem readAhead_all {payload : List UInt8} {n : Nat} (h : payload.length = n) :
    readAhead payload n = pure payload := by
  rw [readAhead, if_pos (Nat.le_of_eq h.symm), List.take_of_length_le (Nat.le_of_eq h)]

/-- The eight bytes of a typed integer are read back as the number. -/
theorem toInt64_int64Bytes {n : Int} (h : IsInt64 n) : toInt64 (leNat ((int64Bytes n).take 8)) = n := by
  have hlen : (int64Bytes n).length = 8 := length_leBytes ..
  have hnat : leNat (int64Bytes n) = (n % 2 ^ 64).toNat := by
    rw [int64Bytes, leNat_leBytes]
    omega
  rw [List.take_of_length_le (Nat.le_of_eq hlen), hnat]
  exact toInt64_emod h.1 h.2

namespace Typed

theorem vcset_stores (libm : Libm) (v : Typed) {name : List UInt8} (hname : isWord name v.typeName = true) :
    ∃ type, typeOfName name = some type ∧ vcsetValue libm type v.text = v.stored libm := by
  rw [typeOfName_congr hname]
  cases v with
  | int n h =>
    refine ⟨vcTypeInt64, (by decide +kernel : typeOfName (str "int") = _), ?_⟩
    rw [vcsetValue, if_pos rfl, text, parseNum_decimalInt h]
    rfl
  | float text => exact ⟨vcTypeFloat64, (by decide +kernel : typeOfName (str "float") = _), rfl⟩
  | bool text => exact ⟨vcTypeBool, (by decide +kernel : typeOfName (str "bool") = _), rfl⟩
  | json data => exact ⟨vcTypeJson, (by decide +kernel : typeOfName (str "json") = _), rfl⟩
  | binary data => exact ⟨vcTypeBinary, (by decide +kernel : typeOfName (str "binary") = _), rfl⟩
  | string data => exact ⟨83, (by decide +kernel : typeOfName (str "string") = _), rfl⟩

theorem length_stored (libm : Libm) (v : Typed) (h : v.text.length ≤ 65530) :
    (v.stored libm).length ≤ valMax := by
  have hmagic : vcWireMagic.length = 4 := rfl
  have hmax : valMax = 65535 := rfl
  cases v <;> simp [stored, text, counterBytes, int64Bytes, length_leBytes, libm.length_strtod] at h ⊢ <;> omega

theorem vcgetParts_stored (libm : Libm) (v : Typed) :
    vcgetParts libm (v.stored libm) = pure (str v.nameShown, v.shown libm) := by
  cases v with
  | int n h =>
    simp only [vcgetParts, stored, counterBytes, typeByte_typed, drop_typed, toInt64_int64Bytes h]
    rfl
  | float text =>
    simp only [vcgetParts, stored, typeByte_typed, drop_typed, readAhead_all (libm.length_strtod _)]
    rfl
  | bool text =>
    simp only [vcgetParts, stored, typeByte_typed, drop_typed]
    rw [shown]
    cases isTrueText text <;> rfl
  | json data =>
    simp only [vcgetParts, stored, typeByte_typed, drop_typed]
    rfl
  | binary data =>
    simp only [vcgetParts, stored, typeByte_typed, drop_typed]
    rfl
  | string data =>
    simp only [vcgetParts, stored, typeByte_typed, drop_typed]
    rfl

end Typed

/-! ## The commands -/

section Commands

variable {srv srv' : Srv} {conn conn' : Conn} {h h' : Host} {k name val : List UInt8} {o : Option (List UInt8)}

/-- The reply of `VCGET`: a map of two pairs. -/
def typedReply (name value : List UInt8) : List UInt8 :=
  respWriteMapHeader 2 ++ respWriteBulk (str "type") ++ respWriteBulk name ++ respWriteBulk (str "value") ++ value

/-- The value of a map being the same, the type decides. -/
theorem typedReply_inj {name' value : List UInt8} :
    typedReply name value = typedReply name' value ↔ name = name' := by
  unfold typedReply
  rw [List.append_left_inj, List.append_left_inj, List.append_right_inj]
  exact respWriteBulk_injective.eq_iff

theorem vcset_eq (hmay : needAuth srv conn vcAclWrite = none) (v : Typed) (hname : isWord name v.typeName = true) :
    ∃ size, cmdVcset srv conn [str "VCSET", k, name, v.text] = callMalloc size >>= fun tb =>
      if !tb then conn.err "ERR" "OOM"
      else callSet k (v.stored srv.libm) 0 >>= fun _ => conn.ok := by
  obtain ⟨type, htype, hvalue⟩ := v.vcset_stores srv.libm hname
  refine ⟨vcWireMagic.length + 1 + v.text.length + 16, ?_⟩
  have hargs : arg [str "VCSET", k, name, v.text] 1 = k ∧ arg [str "VCSET", k, name, v.text] 2 = name ∧
      arg [str "VCSET", k, name, v.text] 3 = v.text := ⟨rfl, rfl, rfl⟩
  simp only [cmdVcset, guarded, hmay, hargs, htype, vcsetWire_eq, bulkPayload_respWriteBulk, hvalue]
  rfl

theorem executed_vcset (hmay : needAuth srv conn vcAclWrite = none) (name val : List UInt8) :
    executed srv conn [str "VCSET", k, name, val] = some ⟨"VCSET", cmdVcset, vcAclWrite⟩ :=
  executed_eq_some.mpr ⟨by simp, rfl, .inr hmay⟩

/-- A `VCSET` whose `vc_set` succeeded has set the typed value, and nothing else. -/
theorem vcset_ok (hmay : needAuth srv conn vcAclWrite = none) (v : Typed) (hname : isWord name v.typeName = true)
    {b : List UInt8} {ttlSec : UInt32}
    (hok : ⟨HostReq.set k b ttlSec, (Except.ok () : Except VcErr Unit)⟩ ∈
      (vcDispatch srv conn [str "VCSET", k, name, v.text]).log hostExec h) :
    b = v.stored srv.libm ∧ (h.allocated.set k b 0).2 = .ok () ∧
      ((vcDispatch srv conn [str "VCSET", k, name, v.text]).run hostExec h).1 = (h.allocated.set k b 0).1 := by
  obtain ⟨size, heq⟩ := @vcset_eq srv conn k name hmay v hname
  rw [vcDispatch_log (executed_vcset hmay ..)] at hok
  rw [vcDispatch_run (executed_vcset hmay ..)]
  dsimp only at hok ⊢
  rw [heq] at hok ⊢
  have htb : (callMalloc size).run hostExec h = (h.allocated, (h.envs h.calls).mallocOk size) := rfl
  rw [Calls.run_bind, htb]
  rw [Calls.log_bind, htb] at hok
  generalize (h.envs h.calls).mallocOk size = tb at hok ⊢
  rcases List.mem_append.mp hok with hok | hok
  · cases congrArg Sigma.fst (List.mem_singleton.mp hok)
  · cases tb with
    | false => cases hok
    | true =>
      have hcall := List.mem_singleton.mp hok
      obtain ⟨-, rfl, rfl⟩ := HostReq.set.inj (congrArg Sigma.fst hcall)
      exact ⟨rfl, (eq_of_heq (Sigma.mk.inj hcall).2).symm, rfl⟩

theorem vcset_of_ok (hmay : needAuth srv conn vcAclWrite = none) (v : Typed)
    (hname : isWord name v.typeName = true) (hmalloc : ∀ size, (h.envs h.calls).mallocOk size = true)
    (hset : (h.allocated.set k (v.stored srv.libm) 0).2 = .ok ()) :
    ⟨HostReq.set k (v.stored srv.libm) 0, (Except.ok () : Except VcErr Unit)⟩ ∈
      (vcDispatch srv conn [str "VCSET", k, name, v.text]).log hostExec h := by
  obtain ⟨size, heq⟩ := @vcset_eq srv conn k name hmay v hname
  rw [vcDispatch_log (executed_vcset hmay ..)]
  dsimp only
  have htb : (callMalloc size).run hostExec h = (h.allocated, true) := Prod.ext rfl (hmalloc size)
  rw [heq, Calls.log_bind, htb]
  refine List.mem_append_right _ (List.mem_singleton.mpr ?_)
  exact congrArg (Sigma.mk _) hset.symm

theorem vcget_reply (hmay : needAuth srv conn vcAclRead = none) (hv : h.world.cache.Valid) (hk : k.length < 2 ^ 32)
    (hs : h.world.cache.Shows h.time k (some val)) {name value : List UInt8}
    (hparts : vcgetParts srv.libm val = pure (name, value)) :
    dispatchText ((vcDispatch srv conn [str "VCGET", k]).run hostExec h).2 = some (typedReply name value) := by
  have hexec : executed srv conn [str "VCGET", k] = some ⟨"VCGET", cmdVcget, vcAclRead⟩ :=
    executed_eq_some.mpr ⟨by simp, rfl, .inr hmay⟩
  have hcall : (callGet k).run hostExec h = ((h.get k).1, .ok val) := Prod.ext rfl (Host.get_result hs hv hk)
  have hfn : (cmdVcget srv conn [str "VCGET", k]).run hostExec h =
      (vcgetParts srv.libm val >>= fun part => conn.answer (typedReply part.1 part.2)).run hostExec (h.get k).1 := by
    simp only [cmdVcget, guarded, hmay]
    refine (Calls.run_bind hostExec (callGet k) _ h).trans ?_
    rw [hcall]
    rfl
  rw [vcDispatch_run hexec]
  dsimp only
  rw [hfn, hparts]
  rfl

/-- `VCGET` answers with the type and the value given to a `VCSET` that succeeded, while the entry
is left alone, if and only if the type is not `string`. -/
theorem vcget_undoes_vcset_iff (v : Typed) (hname : isWord name v.typeName = true)
    (hlen : v.text.length ≤ 65530) (hwrite : needAuth srv conn vcAclWrite = none)
    (hread : needAuth srv' conn' vcAclRead = none) (hlibm : srv'.libm = srv.libm)
    (hv : h.world.cache.Valid) (hready : h.allocated.Ready k)
    (hok : ∃ b ttlSec, ⟨HostReq.set k b ttlSec, (Except.ok () : Except VcErr Unit)⟩ ∈
      (vcDispatch srv conn [str "VCSET", k, name, v.text]).log hostExec h)
    (hlater : ∃ ops, h'.world =
      Machine.run step ((vcDispatch srv conn [str "VCSET", k, name, v.text]).run hostExec h).1.world ops)
    (hkept : h'.world.cache.copies k =
      ((vcDispatch srv conn [str "VCSET", k, name, v.text]).run hostExec h).1.world.cache.copies k) :
    dispatchText ((vcDispatch srv' conn' [str "VCGET", k]).run hostExec h').2 =
      some (typedReply (str v.typeName) (v.shown srv.libm)) ↔ ¬ v.IsString := by
  obtain ⟨b, ttlSec, hok⟩ := hok
  obtain ⟨rfl, hset, hrun⟩ := vcset_ok hwrite v hname hok
  rw [hrun] at hlater hkept
  obtain ⟨ops, hops⟩ := hlater
  obtain ⟨o, hshows⟩ := hready.shows
  have hv₀ : h.allocated.world.cache.Valid := hv
  obtain ⟨⟨-, hk, -⟩, ev, left, rest, hstored⟩ := Host.set_ok hv₀ hset
  have hcopies := Host.set_copies hv₀ hset hshows hready.room
  have hvalid : h'.world.cache.Valid := hops ▸ run_valid hstored.valid ops
  have hnow : h'.world.cache.Shows h'.time k (some (v.stored srv.libm)) := by
    refine ⟨_, hkept.trans hcopies, ?_, newItem_forever _ _ _ _⟩
    exact congrArg Cell.bytes (List.take_of_length_le (v.length_stored srv.libm hlen))
  have hparts : vcgetParts srv'.libm (v.stored srv.libm) = pure (str v.nameShown, v.shown srv.libm) :=
    hlibm ▸ v.vcgetParts_stored srv.libm
  rw [vcget_reply hread hvalid hk hnow hparts, Option.some.injEq, typedReply_inj, v.str_nameShown_iff]

theorem json_comes_back :
    let h := ((vcDispatch openServer freshConn [str "VCSET", str "k", str "JSON", str "[]"]).run hostExec newHost).1
    dispatchText ((vcDispatch openServer freshConn [str "VCGET", str "k"]).run hostExec h).2 =
      some (typedReply (str "json") (respWriteBulk (str "[]"))) := by
  have hready : newHost.allocated.Ready (str "k") :=
    ⟨⟨none, newCache_shows _ _⟩, by decide +kernel⟩
  have hok := @vcset_of_ok openServer freshConn newHost (str "k") (str "JSON") (by decide) (.json (str "[]"))
    (by decide +kernel) (fun _ => rfl) (by decide +kernel)
  exact (vcget_undoes_vcset_iff (.json (str "[]")) (by decide +kernel) (by decide +kernel) (by decide) (by decide) rfl
    newCache_reachable.valid hready ⟨_, _, hok⟩ ⟨[], rfl⟩ rfl).mpr (fun hstr => hstr)

/-- A string comes back as `binary`. -/
theorem string_comes_back_binary :
    let h := ((vcDispatch openServer freshConn
      [str "VCSET", str "k", str "string", str "abc"]).run hostExec newHost).1
    dispatchText ((vcDispatch openServer freshConn [str "VCGET", str "k"]).run hostExec h).2 =
        some (typedReply (str "binary") (respWriteBulk (str "abc"))) ∧
      typedReply (str "binary") (respWriteBulk (str "abc")) ≠
        typedReply (str "string") (respWriteBulk (str "abc")) := by
  decide +kernel

end Commands

/-! ## Sequences of `INCRBY` -/

/-- One `INCRBY`, and the server and connection it is given on. -/
structure Increment where
  srv : Srv
  conn : Conn
  operand : Int

namespace Increment

def argv (k : List UInt8) (c : Increment) : List (List UInt8) :=
  CounterCmd.incrby.argv k (some (decimalInt c.operand))

def step (k : List UInt8) (c : Increment) (h : Host) : Host × Option Dispatched :=
  (vcDispatch c.srv c.conn (c.argv k)).run hostExec h

/-- The command may be given, with an `int64_t`. -/
def Allowed (c : Increment) : Prop := needAuth c.srv c.conn vcAclWrite = none ∧ IsInt64 c.operand

/-- The `vc_set` of the command succeeds. -/
def Stores (k : List UInt8) (c : Increment) (h : Host) : Prop :=
  ∃ b ttlSec, ⟨HostReq.set k b ttlSec, (Except.ok () : Except VcErr Unit)⟩ ∈
    (vcDispatch c.srv c.conn (c.argv k)).log hostExec h

end Increment

/-- The one entry of the key is a typed integer that does not expire. -/
structure Host.Counts (h : Host) (k : List UInt8) (v : Int) : Prop where
  valid : h.world.cache.Valid
  copies : ∃ now, h.world.cache.copies k = {newItem now k (counterBytes v) 0}

section Increments

variable {h : Host} {k : List UInt8} {v : Int}

theorem Host.Counts.shows (hc : h.Counts k v) (now : Nat) :
    h.world.cache.Shows now k (some (counterBytes v)) := by
  obtain ⟨t, hcopies⟩ := hc.copies
  refine ⟨_, hcopies, ?_, newItem_forever _ _ _ _⟩
  exact congrArg Cell.bytes (List.take_of_length_le (by rw [length_counterBytes]; decide))

theorem Host.Counts.get (hc : h.Counts k v) (hk : k.length < 2 ^ 32) :
    (h.get k).2 = .ok (counterBytes v) ∧ (h.get k).1.Counts k v := by
  refine ⟨Host.get_result (hc.shows _) hc.valid hk, (h.get_touched k).valid hc.valid, ?_⟩
  rw [Cache.copies, (h.get_touched k).items]
  exact hc.copies

theorem Host.Counts.of_set {o : Option (List UInt8)} (hv : h.world.cache.Valid)
    (hok : (h.set k (counterBytes v) 0).2 = .ok ()) (hs : h.world.cache.Shows h.time k o)
    (hroom : h.world.cache.HasRoom h.time k) : (h.set k (counterBytes v) 0).1.Counts k v := by
  obtain ⟨-, ev, left, rest, hstored⟩ := Host.set_ok hv hok
  exact ⟨hstored.valid, _, Host.set_copies hv hok hs hroom⟩

theorem Host.Counts.incr {c : Increment} (hc : h.Counts k v) (hv : IsInt64 v) (hmay : c.Allowed)
    (hsum : IsInt64 (v + c.operand)) (hk : k.length < 2 ^ 32) (hstores : c.Stores k h) :
    (c.step k h).1.Counts k (v + c.operand) := by
  obtain ⟨hget, hgot⟩ := hc.get hk
  have hwritten : CounterCmd.incrby.sum h k (some (decimalInt c.operand)) = v + c.operand := by
    rw [CounterCmd.sum, hget, counterOf, counterValue_counterBytes hv.1 hv.2]
    exact ((CounterCmd.incrby.sound_iff hv hmay.2).mpr hsum).2
  obtain ⟨b, ttlSec, hmem⟩ := hstores
  rw [Increment.argv] at hmem
  have hok := (CounterCmd.incrby.set_of_mem hmay.1 hmem).2
  have hrun : (c.step k h).1 = h.counted k (CounterCmd.incrby.sum h k (some (decimalInt c.operand))) :=
    (CounterCmd.incrby.dispatch_run hmay.1 _).1
  rw [hwritten] at hok
  rw [hrun, hwritten]
  exact .of_set hgot.valid hok (hgot.shows _) ((hgot.shows _).hasRoom hgot.valid hk)

/-- After a sequence of `INCRBY` the number is the sum, if no partial sum overflows. -/
theorem Host.Counts.incrs {steps : List Increment} (hc : h.Counts k v) (hk : k.length < 2 ^ 32)
    (hmay : ∀ c ∈ steps, c.Allowed)
    (hsums : ∀ i, IsInt64 (v + ((steps.take i).map Increment.operand).sum))
    (hstores : Machine.Along (fun h c => c.step k h) (fun h c => c.Stores k h) h steps) :
    (Machine.run (fun h (c : Increment) => c.step k h) h steps).Counts k
      (v + (steps.map Increment.operand).sum) := by
  induction steps generalizing h v with
  | nil =>
    rw [List.map_nil, List.sum_nil, Int.add_zero]
    exact hc
  | cons c steps ih =>
    have hv : IsInt64 v := by simpa using hsums 0
    have hsum : IsInt64 (v + c.operand) := by simpa using hsums 1
    have hnext := hc.incr hv (hmay c List.mem_cons_self) hsum hk hstores.1
    have hrest := ih hnext (fun c' hc' => hmay c' (List.mem_cons_of_mem _ hc'))
      (fun i => by simpa [Int.add_assoc] using hsums (i + 1)) hstores.2
    rw [List.map_cons, List.sum_cons, ← Int.add_assoc]
    exact hrest

end Increments

end VoidCache
