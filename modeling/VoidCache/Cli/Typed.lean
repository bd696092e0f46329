import VoidCache.Net.Decoders
import VoidCache.Net.Typed
import VoidCache.Net.Worker

/-!
# Typed values in the client

`print_vc_typed` of the client takes a typed value apart a third time, after `VCGET` and the
counters. For the integers that `VCSET` and `INCRBY` store, all three read the same number. Like
`VCGET`, it copies the payload of a float or a boolean whatever the length of the value is.
-/
namespace VoidCache

open Peek

/-! ## Printing -/

def colReset : String := "\x1b[0m"
def colYellow : String := "\x1b[33m"
def colMagenta : String := "\x1b[35m"
def colCyan : String := "\x1b[36m"
def colBold : String := "\x1b[1m"
def colDim : String := "\x1b[2m"

/-- The settings of the client, and what `%g` of eight bytes is. -/
structure Display where
  useColor : Bool
  rawMode : Bool
  fmtG : List UInt8 → List UInt8

/-- A value behind the name of its type. -/
def Display.labelled (d : Display) (col label : String) (v : List UInt8) : List UInt8 :=
  if d.useColor then str col ++ str label ++ str colBold ++ v ++ str colReset else str label ++ v

/-- The precision that `printf` makes of `(int)len`. A negative one is as if there were none: then
only a zero byte ends the text. -/
def precision (len : Nat) : Nat := if len % 2 ^ 32 < 2 ^ 31 then len % 2 ^ 32 else 2 ^ 64

theorem precision_of_le {len : Nat} (h : len ≤ valMax) : precision len = len := by
  have hmax : valMax = 65535 := rfl
  rw [precision, Nat.mod_eq_of_lt (by omega), if_pos (by omega)]

/-- The text that is printed. -/
def printVcTyped (d : Display) (plen : Nat) : Peek (List UInt8) := do
  let header ← headerPeek plen
  match header with
  | none => text 0 (precision plen)
  | some type =>
    let data := vcWireMagic.length + 1
    let dlen := plen - vcWireMagic.length - 1
    if type = vcTypeInt64 then do
      let v ← bytes data (min 8 dlen)
      pure (d.labelled colCyan "(integer) " (decimalInt (toInt64 (leNat v))))
    else if type = vcTypeFloat64 then do
      let v ← bytes data 8
      pure (d.labelled colCyan "(float) " (d.fmtG v))
    else if type = vcTypeBool then do
      let v ← byte data
      pure (d.labelled colMagenta "(bool) " (if v ≠ 0 then str "true" else str "false"))
    else if type = vcTypeJson then do
      let json ← text data (precision dlen)
      pure ((if d.rawMode then [] else
        if d.useColor then str colYellow ++ str "(json) " ++ str colReset else str "(json) ") ++ json)
    else if type = vcTypeBinary then
      let line := str "(binary " ++ decimal dlen ++ str " bytes)"
      pure (if d.useColor then str colDim ++ line ++ str colReset else line)
    else text 0 (precision plen)

/-! ## The reads -/

section Reads

variable {mem : Nat → UInt8} {val : List UInt8}

theorem printVcTyped_inside_iff (hval : window mem 0 val.length = val) (hmax : val.length ≤ valMax)
    (d : Display) :
    Inside mem val.length (printVcTyped d val.length) ↔ ¬ CutPayload val := by
  have hdlen : precision (val.length - vcWireMagic.length - 1) = val.length - vcWireMagic.length - 1 :=
    precision_of_le (by omega)
  rw [printVcTyped, inside_bind, and_iff_right (headerPeek_inside _), value_headerPeek hval, CutPayload]
  simp only [precision_of_le hmax, hdlen]
  cases htype : typeByte val with
  | none => simp [inside_text]
  | some t =>
    have hlen := length_of_typeByte htype
    have hjson : Inside mem val.length (text (vcWireMagic.length + 1) (val.length - vcWireMagic.length - 1)) :=
      inside_text (by omega)
    have hall : Inside mem val.length (text 0 val.length) := inside_text (by omega)
    simp only [inside_ite, inside_bind, inside_bytes, inside_byte, inside_pure, and_true, Option.some.injEq,
      hjson, hall]
    have hne : vcTypeInt64 ≠ vcTypeFloat64 ∧ vcTypeInt64 ≠ vcTypeBool ∧ vcTypeFloat64 ≠ vcTypeBool := by decide
    grind

/-- The decoders of typed values read below the length of a value, wherever it stands, if and only if
it is no float and no boolean with a payload that was cut off. -/
theorem decoders_inside_iff (hval : window mem 0 val.length = val) (hmax : val.length ≤ valMax)
    (libm : Libm) (d : Display) :
    Inside mem val.length (headerPeek val.length) ∧ Inside mem val.length (incrbyPeek val.length) ∧
        Inside mem val.length (vcgetPeek libm val.length) ∧ Inside mem val.length (printVcTyped d val.length) ↔
      ¬ CutPayload val := by
  rw [and_iff_right (headerPeek_inside _), and_iff_right (incrbyPeek_inside hval),
    vcgetPeek_inside_iff hval libm, printVcTyped_inside_iff hval hmax d, and_self_iff]

theorem boolean_inside :
    Inside (fun i => (str "*VC1b1").getD i 0) 6 (vcgetPeek openServer.libm 6) ∧
      Inside (fun i => (str "*VC1b1").getD i 0) 6 (printVcTyped ⟨true, false, id⟩ 6) := by
  have h := (@decoders_inside_iff (fun i => (str "*VC1b1").getD i 0) (str "*VC1b1") (by decide +kernel)
    (by decide) openServer.libm ⟨true, false, id⟩).mpr (by decide)
  exact ⟨h.2.2.1, h.2.2.2⟩

/-- A boolean of no bytes, sent as an inline command. -/
theorem short_boolean_overread :
    let s := Session.start openServer newHost 7 (str "::1") 50000
    ((work s [.data (str "SET k *VC1b\r\n") .wouldBlock]).host.get (str "k")).2 = .ok (str "*VC1b") ∧
      ∀ mem : Nat → UInt8, window mem 0 5 = str "*VC1b" → ∀ libm d,
        ¬ Inside mem 5 (vcgetPeek libm 5) ∧ ¬ Inside mem 5 (printVcTyped d 5) := by
  intro s
  have hcut : CutPayload (str "*VC1b") := by decide
  refine ⟨by decide +kernel, fun mem hmem libm d => ⟨fun h => ?_, fun h => ?_⟩⟩
  · exact (@vcgetPeek_inside_iff mem (str "*VC1b") hmem libm).mp h hcut
  · exact (@printVcTyped_inside_iff mem (str "*VC1b") hmem (by decide) d).mp h hcut

end Reads

/-! ## Integers -/

/-- A value of 13 bytes that the typed branch of `INCRBY`, `VCGET` and the client all read as `n`. -/
structure ReadAs (b : List UInt8) (n : Int) : Prop where
  length : b.length = 13
  incrby : ∀ mem, window mem 0 b.length = b →
    value mem (typedIntPeek b.length) = true ∧ value mem (incrbyPeek b.length) = n
  vcget : ∀ mem libm, window mem 0 b.length = b →
    value mem (vcgetPeek libm b.length) = (str "int", respWriteInteger n)
  print : ∀ mem (d : Display), window mem 0 b.length = b →
    value mem (printVcTyped d b.length) = d.labelled colCyan "(integer) " (decimalInt n)

/-- The number behind the header of a typed integer, in a buffer. -/
theorem window_number {mem : Nat → UInt8} {n : Int} (h : IsInt64 n)
    (hval : window mem 0 (counterBytes n).length = counterBytes n) :
    toInt64 (leNat (window mem (vcWireMagic.length + 1)
      (min 8 ((counterBytes n).length - vcWireMagic.length - 1)))) = n := by
  have hlen := length_counterBytes n
  have hmagic : vcWireMagic.length = 4 := rfl
  have height : min 8 ((counterBytes n).length - vcWireMagic.length - 1) = 8 := by omega
  have hpayload : (counterBytes n).drop (vcWireMagic.length + 1) = int64Bytes n := drop_typed _ _
  rw [height, window_eq_drop hval (by omega), hpayload, toInt64_int64Bytes h]

theorem counterBytes_readAs {n : Int} (h : IsInt64 n) : ReadAs (counterBytes n) n where
  length := length_counterBytes n
  incrby mem hval := by
    rw [value_typedIntPeek hval, value_incrbyPeek hval, counterValue_counterBytes h.1 h.2]
    refine ⟨decide_eq_true ⟨length_counterBytes n, ?_, ?_⟩, rfl⟩ <;> simp [counterBytes]
  vcget mem libm hval := by
    have htype : typeByte (counterBytes n) = some vcTypeInt64 := typeByte_typed _ _
    rw [vcgetPeek, value_bind, value_headerPeek hval, htype]
    simp only [if_true, value_bind, value_bytes, value_pure, window_number h hval]
  print mem d hval := by
    have htype : typeByte (counterBytes n) = some vcTypeInt64 := typeByte_typed _ _
    rw [printVcTyped, value_bind, value_headerPeek hval, htype]
    simp only [if_true, value_bind, value_bytes, value_pure, window_number h hval]

section Agreement

variable {srv srv' : Srv} {conn conn' : Conn} {h : Host} {k name : List UInt8} {n : Int}

/-- After `VCSET` of an integer `n` and any sequence of `INCRBY` without overflow, all of which were
stored, the value of the key is read by `INCRBY`, by `VCGET` and by the client as `n` and the sum of
the operands, and `VCGET` answers with this number. -/
theorem typed_integers_agree (hn : IsInt64 n) (hname : isWord name "int" = true)
    (hwrite : needAuth srv conn vcAclWrite = none) (hv : h.world.cache.Valid) (hready : h.allocated.Ready k)
    (hok : ∃ b ttlSec, ⟨HostReq.set k b ttlSec, (Except.ok () : Except VcErr Unit)⟩ ∈
      (vcDispatch srv conn [str "VCSET", k, name, decimalInt n]).log hostExec h)
    {steps : List Increment} (hmay : ∀ c ∈ steps, c.Allowed)
    (hsums : ∀ i, IsInt64 (n + ((steps.take i).map Increment.operand).sum))
    (hstores : Machine.Along (fun h c => c.step k h) (fun h c => c.Stores k h)
      ((vcDispatch srv conn [str "VCSET", k, name, decimalInt n]).run hostExec h).1 steps)
    (hread : needAuth srv' conn' vcAclRead = none) :
    let last := Machine.run (fun h (c : Increment) => c.step k h)
      ((vcDispatch srv conn [str "VCSET", k, name, decimalInt n]).run hostExec h).1 steps
    (∃ b, (last.get k).2 = .ok b ∧ ReadAs b (n + (steps.map Increment.operand).sum)) ∧
      dispatchText ((vcDispatch srv' conn' [str "VCGET", k]).run hostExec last).2 =
        some (typedReply (str "int") (respWriteInteger (n + (steps.map Increment.operand).sum))) := by
  intro last
  obtain ⟨b, ttlSec, hok⟩ := hok
  have hv₀ : h.allocated.world.cache.Valid := hv
  obtain ⟨rfl, hset, hrun⟩ := vcset_ok hwrite (.int n hn) hname hok
  obtain ⟨o, hshows⟩ := hready.shows
  obtain ⟨⟨-, hk, -⟩, -⟩ := Host.set_ok hv₀ hset
  have hfirst := Host.Counts.of_set hv₀ hset hshows hready.room
  have hlast : last.Counts k (n + (steps.map Increment.operand).sum) :=
    Host.Counts.incrs (hrun ▸ hfirst) hk hmay hsums hstores
  have hsum : IsInt64 (n + (steps.map Increment.operand).sum) := by simpa using hsums steps.length
  refine ⟨⟨_, (hlast.get hk).1, counterBytes_readAs hsum⟩, ?_⟩
  exact vcget_reply hread hlast.valid hk (hlast.shows _) (Typed.vcgetParts_stored _ (.int _ hsum))

theorem fortyTwo_agreed :
    let first := ((vcDispatch openServer freshConn [str "VCSET", str "k", str "int", decimalInt 40]).run
      hostExec newHost).1
    let last := Machine.run (fun h (c : Increment) => c.step (str "k") h) first [⟨openServer, freshConn, 2⟩]
    (∃ b, (last.get (str "k")).2 = .ok b ∧ ReadAs b 42) ∧
      dispatchText ((vcDispatch openServer freshConn [str "VCGET", str "k"]).run hostExec last).2 =
        some (typedReply (str "int") (respWriteInteger 42)) := by
  intro first last
  have hready : newHost.allocated.Ready (str "k") := ⟨⟨none, newCache_shows _ _⟩, by decide +kernel⟩
  have hok := @vcset_of_ok openServer freshConn newHost (str "k") (str "int") (by decide) (.int 40 (by decide))
    (by decide +kernel) (fun _ => rfl) (by decide +kernel)
  have hcan : first.CanCount (str "k") := by decide +kernel
  have hstores : (Increment.mk openServer freshConn 2).Stores (str "k") first := by
    obtain ⟨⟨b, ttlSec, -, hmem⟩, -⟩ :=
      (@storesCount_iff openServer freshConn first (str "k") (by decide) .incrby (some (decimalInt 2)) _).mpr
        ⟨rfl, hcan⟩
    exact ⟨b, ttlSec, hmem⟩
  have hsums : ∀ i, IsInt64 (40 + (([Increment.mk openServer freshConn 2].take i).map Increment.operand).sum) := by
    intro i
    cases i <;> simp <;> decide
  have hmay : ∀ c ∈ [Increment.mk openServer freshConn 2], c.Allowed :=
    fun c hc => List.mem_singleton.mp hc ▸ ⟨by decide, by decide⟩
  have hall := @typed_integers_agree openServer openServer freshConn freshConn newHost (str "k") (str "int") 40
    (by decide) (by decide +kernel) (by decide) newCache_reachable.valid hready ⟨_, _, hok⟩ _ hmay hsums
    ⟨hstores, trivial⟩ (by decide)
  have hsum : 40 + ([Increment.mk openServer freshConn 2].map Increment.operand).sum = 42 := rfl
  rwa [hsum] at hall

end Agreement

end VoidCache
