import VoidCache.Net.Encode
import VoidCache.Net.Server
import VoidCache.Net.Store

/-!
# A value over the wire

`SET` and `GET` sent as arrays of bulk strings: through the parser, which strips type headers,
the handlers, the store, whose values have a 16-bit length, and the reply.
-/
namespace VoidCache

/-! ## Sending a command -/

theorem Arg.bytes_ofBytes (bs : List UInt8) (beyond : Nat → UInt8) : (Arg.ofBytes bs).bytes beyond = bs := by
  simp [Arg.bytes, Arg.ofBytes]

theorem mapIdx_bytes (args : List (List UInt8)) (beyond : Nat → Nat → UInt8) :
    (args.map Arg.ofBytes).mapIdx (fun i a => a.bytes (beyond i)) = args := by
  induction args generalizing beyond with
  | nil => rfl
  | cons a args ih =>
    rw [List.map_cons, List.mapIdx_cons, Arg.bytes_ofBytes, ih fun i => beyond (i + 1)]

/-- The arguments that the parser makes of an array. -/
theorem args_pushAll (args : List (List UInt8)) (beyond : Nat → Nat → UInt8) :
    (VcCmd.pushAll ⟨[], 0⟩ 0 args).upper.args beyond = upperFirst (args.map stripTypeHeader) := by
  have hargv := argv_pushAll ⟨[], 0⟩ 0 args
  rw [List.nil_append] at hargv
  have hupper : (VcCmd.pushAll ⟨[], 0⟩ 0 args).upper.argv =
      (upperFirst (args.map stripTypeHeader)).map Arg.ofBytes := by
    cases args with
    | nil => simp [VcCmd.upper, hargv, upperFirst]
    | cons name args =>
      rw [List.map_cons] at hargv
      simp [VcCmd.upper, hargv, upperFirst, Arg.ofBytes, length_upperName]
  rw [VcCmd.args, hupper, mapIdx_bytes]

/-- Send a command as an array of bulk strings: the host after it, and the reply. -/
def Host.send (h : Host) (srv : Srv) (conn : Conn) (args : List (List UInt8)) :
    Host × Option (List UInt8) :=
  match respParseCommand (respArray args) with
  | .ok cmd _ =>
    let r := (vcDispatch srv conn (cmd.args fun _ _ => 0)).run hostExec h
    (r.1, r.2.map fun d => d.answer.reply)
  | _ => (h, none)

theorem Host.send_eq {h : Host} {srv : Srv} {conn : Conn} {args : List (List UInt8)}
    (hn : args.length ≤ vcMaxArgs) (hlen : ∀ a ∈ args, a.length ≤ vcMaxInlineArg) :
    h.send srv conn args =
      let r := (vcDispatch srv conn (upperFirst (args.map stripTypeHeader))).run hostExec h
      (r.1, r.2.map fun d => d.answer.reply) := by
  have hparse := respParseCommand_respArray hn hlen []
  rw [List.append_nil] at hparse
  simp only [Host.send, hparse, args_pushAll]

/-- A command whose handler is executed. -/
theorem Host.send_of_executed {h : Host} {srv : Srv} {conn : Conn} {args : List (List UInt8)}
    (hn : args.length ≤ vcMaxArgs) (hlen : ∀ a ∈ args, a.length ≤ vcMaxInlineArg) {e : CmdEntry}
    (he : executed srv conn (upperFirst (args.map stripTypeHeader)) = some e) :
    h.send srv conn args =
      let r := (e.fn srv conn (upperFirst (args.map stripTypeHeader))).run hostExec h
      (r.1, r.2.map Answer.reply) := by
  rw [Host.send_eq hn hlen, vcDispatch_of_executed he]
  simp only [Calls.run_bind, run_pure, Option.map_map]
  rfl

/-! ## `SET` and `GET` -/

section SetGet

variable {h : Host} {srv : Srv} {conn : Conn} {k v : List UInt8}

theorem needAuth_some {acl : UInt32} {e : List UInt8} (h : needAuth srv conn acl = some e) :
    e = noAuth ∨ e = noPerm := by
  unfold needAuth at h
  split_ifs at h
  · exact .inl (Option.some.inj h).symm
  · exact .inr (Option.some.inj h).symm

/-- A command that its table entry denies. -/
theorem Host.send_of_denied {args : List (List UInt8)} (hn : args.length ≤ vcMaxArgs)
    (hlen : ∀ a ∈ args, a.length ≤ vcMaxInlineArg) (hne : args ≠ []) {entry : CmdEntry}
    (hlookup : lookupCmd (upperFirst (args.map stripTypeHeader)) = some entry)
    (hacl : entry.aclNeeded ≠ 0) {e : List UInt8} (hdenied : needAuth srv conn entry.aclNeeded = some e) :
    (h.send srv conn args).2 = some e := by
  have hne' : upperFirst (args.map stripTypeHeader) ≠ [] := by
    cases args with
    | nil => exact absurd rfl hne
    | cons => simp [upperFirst]
  rw [Host.send_eq hn hlen]
  simp only [vcDispatch, if_neg hne', hlookup, if_pos hacl, hdenied, run_pure, Option.map_some]

theorem lookup_get (rest : List (List UInt8)) :
    lookupCmd (str "GET" :: rest) = some ⟨"GET", cmdGet, vcAclRead⟩ := by
  rfl

theorem upperFirst_set (k v : List UInt8) :
    upperFirst ([str "SET", k, v].map stripTypeHeader) =
      [str "SET", stripTypeHeader k, stripTypeHeader v] := by
  rfl

theorem upperFirst_get (k : List UInt8) :
    upperFirst ([str "GET", k].map stripTypeHeader) = [str "GET", stripTypeHeader k] := by
  rfl

theorem send_set (hk : k.length ≤ vcMaxInlineArg) (hv : v.length ≤ vcMaxInlineArg)
    (hmay : needAuth srv conn vcAclWrite = none) :
    h.send srv conn [str "SET", k, v] =
      ((h.set (stripTypeHeader k) (setValue (stripTypeHeader v)) 0).1,
        some (storeText (h.set (stripTypeHeader k) (setValue (stripTypeHeader v)) 0).2)) := by
  have hlen : ∀ a ∈ [str "SET", k, v], a.length ≤ vcMaxInlineArg := by
    simp only [List.forall_mem_cons]
    exact ⟨by decide, hk, hv, by simp⟩
  have he : executed srv conn (upperFirst ([str "SET", k, v].map stripTypeHeader)) =
      some ⟨"SET", cmdSet, vcAclWrite⟩ := by
    rw [upperFirst_set]
    exact executed_set hmay _
  rw [Host.send_of_executed (by simp [vcMaxArgs]) hlen he, upperFirst_set]
  simp only [cmdSet_plain hmay, run_callSet, run_answer, Option.map_some]

/-- What `GET` makes of the result of the lookup. -/
def getText (resp3 : Bool) : Except VcErr (List UInt8) → List UInt8
  | .error .notFnd => respWriteNullCompat resp3
  | .error .expired => respWriteNullCompat resp3
  | .error _ => respWriteError (str "ERR") (str "get error")
  | .ok val => respWriteBulk val

theorem cmdGet_eq (hmay : needAuth srv conn vcAclRead = none) (name k : List UInt8) :
    cmdGet srv conn [name, k] = callGet k >>= fun r => conn.answer (getText conn.resp3 r) := by
  have hbody : cmdGet srv conn [name, k] = callGet k >>= fun r => match r with
      | .error .notFnd => conn.nullReply
      | .error .expired => conn.nullReply
      | .error _ => conn.err "ERR" "get error"
      | .ok val => conn.bulk val := by
    simp only [cmdGet, guarded, hmay]
    rfl
  rw [hbody]
  congr 1
  funext r
  cases r with
  | error e => cases e <;> rfl
  | ok val => rfl

theorem send_get (hk : k.length ≤ vcMaxInlineArg) (hmay : needAuth srv conn vcAclRead = none) :
    (h.send srv conn [str "GET", k]).2 =
      some (getText conn.resp3 (h.get (stripTypeHeader k)).2) := by
  have hlen : ∀ a ∈ [str "GET", k], a.length ≤ vcMaxInlineArg := by
    simp only [List.forall_mem_cons]
    exact ⟨by decide, hk, by simp⟩
  have he : executed srv conn (upperFirst ([str "GET", k].map stripTypeHeader)) =
      some ⟨"GET", cmdGet, vcAclRead⟩ := by
    rw [upperFirst_get]
    exact executed_eq_some.mpr ⟨by simp, lookup_get _, .inr hmay⟩
  rw [Host.send_of_executed (by simp [vcMaxArgs]) hlen he, upperFirst_get]
  simp only [cmdGet_eq hmay, run_callGet, run_answer, Option.map_some]

end SetGet

/-! ## What comes back -/

theorem length_stripTypeHeader_le (a : List UInt8) : (stripTypeHeader a).length ≤ a.length := by
  unfold stripTypeHeader
  split
  · rw [List.length_drop]
    omega
  · exact Nat.le_refl _

/-- The stored bytes are those sent exactly for values of 1 to 65535 bytes without a header. -/
theorem stored_eq_sent_iff {v : List UInt8} :
    (setValue (stripTypeHeader v)).take valMax = v ↔
      1 ≤ v.length ∧ v.length ≤ valMax ∧ hasTypeHeader v = false := by
  cases hh : hasTypeHeader v with
  | true =>
    obtain ⟨b, bs, rfl⟩ := hasTypeHeader_iff.mp hh
    have hstrip : stripTypeHeader (vcWireMagic ++ b :: bs) = bs := by
      simp only [stripTypeHeader, hh, if_true]
      rfl
    refine iff_of_false (fun heq => ?_) (by simp)
    have hlen := congrArg List.length heq
    have hmagic : vcWireMagic.length = 4 := by decide
    rw [hstrip, List.length_take, List.length_append, List.length_cons, hmagic] at hlen
    unfold setValue at hlen
    split at hlen
    · omega
    · simp at hlen
      omega
  | false =>
    rw [stripTypeHeader_eq_self hh]
    unfold setValue
    by_cases h0 : 0 < v.length
    · rw [if_pos h0, List.take_eq_self_iff]
      exact ⟨fun h => ⟨h0, h, rfl⟩, fun h => h.2.1⟩
    · rw [if_neg h0]
      have hv : v = [] := List.length_eq_zero_iff.mp (by omega)
      subst hv
      simp [valMax]

theorem respWriteBulk_injective : Function.Injective respWriteBulk := fun _ _ h =>
  (respWriteBulk_append_inj (congrArg (· ++ []) h)).1

theorem error_ne_of_needAuth {srv : Srv} {conn : Conn} {acl : UInt32} {e r : List UInt8}
    (he : needAuth srv conn acl = some e) (hr : r[0]? ≠ some 45) : e ≠ r := by
  rintro rfl
  rcases needAuth_some he with rfl | rfl <;> exact hr (by decide)

/-- The key has no stale entries and the table has a slot for it. -/
structure Host.Ready (h : Host) (key : List UInt8) : Prop where
  shows : ∃ o, h.world.cache.Shows h.time key o
  room : h.world.cache.HasRoom h.time key

section Fidelity

variable {srv srv' : Srv} {conn conn' : Conn} {h h' : Host} {k v : List UInt8}

/-- After `SET` was answered with `OK`, the key has one entry, which holds what was stored. -/
theorem copies_of_set (hv : h.world.cache.Valid) (hready : h.Ready (stripTypeHeader k))
    (hk : k.length ≤ vcMaxInlineArg) (hvl : v.length ≤ vcMaxInlineArg)
    (hok : (h.send srv conn [str "SET", k, v]).2 = some respWriteOk) :
    (h.send srv conn [str "SET", k, v]).1.world.cache.Valid ∧
      (h.send srv conn [str "SET", k, v]).1.world.cache.copies (stripTypeHeader k) =
        {newItem h.time (stripTypeHeader k) (setValue (stripTypeHeader v)) 0} := by
  have hlen : ∀ a ∈ [str "SET", k, v], a.length ≤ vcMaxInlineArg := by
    simp only [List.forall_mem_cons]
    exact ⟨by decide, hk, hvl, by simp⟩
  cases hmay : needAuth srv conn vcAclWrite with
  | some e =>
    have hlookup : lookupCmd (upperFirst ([str "SET", k, v].map stripTypeHeader)) =
        some ⟨"SET", cmdSet, vcAclWrite⟩ := lookup_set _
    have hdenied := Host.send_of_denied (h := h) (by simp [vcMaxArgs]) hlen (by simp) hlookup (by decide)
      hmay
    rw [hdenied] at hok
    exact absurd (Option.some.inj hok) (error_ne_of_needAuth hmay (by decide))
  | none =>
    rw [send_set hk hvl hmay] at hok ⊢
    have hstored : (h.set (stripTypeHeader k) (setValue (stripTypeHeader v)) 0).2 = .ok () := by
      cases hr : (h.set (stripTypeHeader k) (setValue (stripTypeHeader v)) 0).2 with
      | ok u => rfl
      | error e =>
        have htext := Option.some.inj hok
        rw [hr] at htext
        exact absurd htext (by rw [storeText]; decide)
    obtain ⟨hset, ev, left, rest, hs⟩ := Host.set_ok hv hstored
    obtain ⟨o, ho⟩ := hready.shows
    have hleft : left = none := hs.room hready.room
    exact ⟨hs.valid, hs.copies ho hv hset.2.1 rfl (by simp [hleft])⟩

/-- The reply to `GET`, for a key that shows `o`. -/
theorem send_get_of_shows {o : Option (List UInt8)} (hv : h.world.cache.Valid)
    (hk : k.length ≤ vcMaxInlineArg) (hs : h.world.cache.Shows h.time (stripTypeHeader k) o)
    (hmay : needAuth srv conn vcAclRead = none) :
    (h.send srv conn [str "GET", k]).2 = some (getText conn.resp3 (lookupResult o)) := by
  have hlt : (stripTypeHeader k).length < 2 ^ 32 :=
    Nat.lt_of_le_of_lt ((length_stripTypeHeader_le k).trans hk) (by decide)
  rw [send_get hk hmay, Host.get_result hs hv hlt]

/-- What `GET` finds later, while the entry that `SET` made is left alone. -/
theorem shows_of_set (hv : h.world.cache.Valid) (hready : h.Ready (stripTypeHeader k))
    (hk : k.length ≤ vcMaxInlineArg) (hvl : v.length ≤ vcMaxInlineArg)
    (hok : (h.send srv conn [str "SET", k, v]).2 = some respWriteOk)
    (hlater : ∃ ops, h'.world = Machine.run step (h.send srv conn [str "SET", k, v]).1.world ops)
    (hkept : h'.world.cache.copies (stripTypeHeader k) =
      (h.send srv conn [str "SET", k, v]).1.world.cache.copies (stripTypeHeader k)) :
    h'.world.cache.Valid ∧ h'.world.cache.Shows h'.time (stripTypeHeader k)
      (some ((setValue (stripTypeHeader v)).take valMax)) := by
  obtain ⟨hv₁, hcopies⟩ := copies_of_set hv hready hk hvl hok
  obtain ⟨ops, hops⟩ := hlater
  exact ⟨hops ▸ run_valid hv₁ ops, _, hkept.trans hcopies, rfl, newItem_forever _ _ _ _⟩

/-- A value sent with `SET` and answered with `OK` comes back from `GET` without its type
header, while its entry is left alone. A key for which no entry was made, type headers apart,
gives null. -/
theorem wire_fidelity (hreach : h.world.Reachable) (hk : k.length ≤ 65536) (hvl : v.length ≤ 65536)
    (hready : h.Ready (stripTypeHeader k))
    (hok : (h.send srv conn [str "SET", k, v]).2 = some respWriteOk)
    (hlater : ∃ ops, h'.world = Machine.run step (h.send srv conn [str "SET", k, v]).1.world ops)
    (hkept : h'.world.cache.copies (stripTypeHeader k) =
      (h.send srv conn [str "SET", k, v]).1.world.cache.copies (stripTypeHeader k))
    (hmay : needAuth srv' conn' vcAclRead = none) :
    (1 ≤ (stripTypeHeader v).length → (stripTypeHeader v).length ≤ 65535 →
      (h'.send srv' conn' [str "GET", k]).2 = some (respWriteBulk (stripTypeHeader v))) ∧
    ∀ k', k'.length ≤ 65536 → h'.world.cache.copies (stripTypeHeader k') = 0 →
      (h'.send srv' conn' [str "GET", k']).2 = some (respWriteNullCompat conn'.resp3) := by
  obtain ⟨hv', hshows⟩ := shows_of_set hreach.valid hready hk hvl hok hlater hkept
  refine ⟨fun hpos (hmax : _ ≤ valMax) => ?_, fun k' hk' hnever => ?_⟩
  · have hstored : (setValue (stripTypeHeader v)).take valMax = stripTypeHeader v := by
      rw [setValue, if_pos (Nat.lt_of_succ_le hpos), List.take_of_length_le hmax]
    rw [hstored] at hshows
    rw [send_get_of_shows hv' hk hshows hmay]
    rfl
  · have hnone : h'.world.cache.Shows h'.time (stripTypeHeader k') none := hnever
    rw [send_get_of_shows hv' hk' hnone hmay]
    rfl

/-- The bytes that were sent come back exactly for values of 1 to 65535 bytes without a type
header. -/
theorem get_eq_sent_iff (hv : h.world.cache.Valid) (hready : h.Ready (stripTypeHeader k))
    (hk : k.length ≤ vcMaxInlineArg) (hvl : v.length ≤ vcMaxInlineArg)
    (hok : (h.send srv conn [str "SET", k, v]).2 = some respWriteOk)
    (hlater : ∃ ops, h'.world = Machine.run step (h.send srv conn [str "SET", k, v]).1.world ops)
    (hkept : h'.world.cache.copies (stripTypeHeader k) =
      (h.send srv conn [str "SET", k, v]).1.world.cache.copies (stripTypeHeader k))
    (hmay : needAuth srv' conn' vcAclRead = none) :
    (h'.send srv' conn' [str "GET", k]).2 = some (respWriteBulk v) ↔
      1 ≤ v.length ∧ v.length ≤ valMax ∧ hasTypeHeader v = false := by
  obtain ⟨hv', hshows⟩ := shows_of_set hv hready hk hvl hok hlater hkept
  rw [send_get_of_shows hv' hk hshows hmay, Option.some.injEq, ← stored_eq_sent_iff]
  exact respWriteBulk_injective.eq_iff

end Fidelity

theorem newHost_reachable : newHost.world.Reachable := newCache_reachable

theorem newHost_ready (key : List UInt8) (hroom : newHost.world.cache.HasRoom newHost.time key) :
    newHost.Ready key :=
  ⟨⟨none, newCache_shows newHost.time key⟩, hroom⟩

theorem typed_value_comes_back :
    ((newHost.send openServer freshConn [str "SET", str "k", str "*VC1sv"]).1.send openServer freshConn
      [str "GET", str "k"]).2 = some (respWriteBulk (str "v")) := by
  have hok : (newHost.send openServer freshConn [str "SET", str "k", str "*VC1sv"]).2 =
      some respWriteOk := by
    decide +kernel
  exact (wire_fidelity newHost_reachable (by decide) (by decide) (newHost_ready _ (by decide +kernel)) hok
    ⟨[], rfl⟩ rfl (by decide)).1 (by decide) (by decide)

/-- An empty value comes back as one byte, a value with a type header without it, and the key
is found under another name. -/
theorem values_altered :
    let empty := newHost.send openServer freshConn [str "SET", str "k", []]
    let typed := newHost.send openServer freshConn [str "SET", str "k", str "*VC1sv"]
    empty.2 = some respWriteOk ∧
      (empty.1.send openServer freshConn [str "GET", str "k"]).2 = some (respWriteBulk [0]) ∧
      respWriteBulk [0] ≠ respWriteBulk [] ∧
      typed.2 = some respWriteOk ∧
      (typed.1.send openServer freshConn [str "GET", str "k"]).2 = some (respWriteBulk (str "v")) ∧
      (typed.1.send openServer freshConn [str "GET", str "*VC1sk"]).2 =
        some (respWriteBulk (str "v")) := by
  decide +kernel

end VoidCache
