import VoidCache.Net.Typed

/-!
# Times to live

`SET` with `EX` or `PX`, and `EXPIRE`, take a number of seconds or milliseconds as text. The
source does not look at whether it is a number, cuts it to 32 bits, and takes 0, which is also what
fewer than 1000 milliseconds come to, for no expiry at all. Here is what the entry of the key then
says, and for which arguments it is what was asked for.
-/
namespace VoidCache

/-! ## Arguments -/

/-- `parse_int64` returns true, with this value. -/
def IsNum (a : List UInt8) (n : Int) : Prop :=
  cstr a ≠ [] ∧ strtoll (cstr a) = ⟨n, (cstr a).length, false⟩

instance (a : List UInt8) (n : Int) : Decidable (IsNum a n) := inferInstanceAs (Decidable (_ ∧ _))

theorem IsNum.parseNum_eq {a : List UInt8} {n : Int} (h : IsNum a n) : parseNum a = n := by
  rw [parseNum, h.2]

inductive TtlCmd where
  | ex | px | expire
  deriving DecidableEq

namespace TtlCmd

/-- The seconds that an argument is taken for, before they are cut to 32 bits. -/
def seconds (c : TtlCmd) (v : Int) : Int :=
  match c with
  | ex => v
  | px => v.tdiv 1000
  | expire => v

/-- The reply that confirms the command. -/
def success : TtlCmd → List UInt8
  | ex => respWriteOk
  | px => respWriteOk
  | expire => respWriteInteger 1

/-- The time that `n` stands for, from the set time on: exact for seconds, and within one second
for milliseconds. -/
def Meant (c : TtlCmd) (n : Int) (now : Nat) (expireNs : Int) : Prop :=
  match c with
  | ex => expireNs = now + n * 1000000000
  | px => now + n * 1000000 - 1000000000 ≤ expireNs ∧ expireNs ≤ now + n * 1000000 + 1000000000
  | expire => expireNs = now + n * 1000000000

/-- At least one whole second, in 32 bits, that the clock can add. -/
def Fits (c : TtlCmd) (n : Int) (now : Nat) : Prop :=
  1 ≤ c.seconds n ∧ c.seconds n < 2 ^ 32 ∧ now + c.seconds n * 1000000000 < 2 ^ 63

instance (c : TtlCmd) (n : Int) (now : Nat) : Decidable (c.Fits n now) := inferInstanceAs (Decidable (_ ∧ _ ∧ _))

end TtlCmd

/-- Options of `SET` without a time. -/
def Untimed (ws : List (List UInt8)) : Prop := ∀ w ∈ ws, isWord w "EX" = false ∧ isWord w "PX" = false

/-- A command that gives the key a time to live: `SET` with other options around the time, or
`EXPIRE`. -/
inductive TtlRequest (k a : List UInt8) : TtlCmd → List (List UInt8) → Prop where
  | ex {word val : List UInt8} {pre post : List (List UInt8)} (hword : isWord word "EX" = true)
      (hpre : Untimed pre) (hpost : Untimed post) :
      TtlRequest k a .ex (str "SET" :: k :: val :: (pre ++ word :: a :: post))
  | px {word val : List UInt8} {pre post : List (List UInt8)} (hword : isWord word "PX" = true)
      (hpre : Untimed pre) (hpost : Untimed post) :
      TtlRequest k a .px (str "SET" :: k :: val :: (pre ++ word :: a :: post))
  | expire : TtlRequest k a .expire [str "EXPIRE", k, a]

/-! ## Options -/

theorem setOptions_untimed {ws : List (List UInt8)} (h : Untimed ws) (o : SetOpts) :
    (setOptions ws o).ttlSec = o.ttlSec := by
  fun_induction setOptions ws o <;> grind [Untimed]

/-- Options without a time are read one after the other. -/
theorem setOptions_append {pre : List (List UInt8)} (h : Untimed pre) (w v : List UInt8)
    (rest : List (List UInt8)) (o : SetOpts) :
    ∃ o', o'.ttlSec = o.ttlSec ∧ setOptions (pre ++ w :: v :: rest) o = setOptions (w :: v :: rest) o' := by
  induction pre generalizing o with
  | nil => exact ⟨o, rfl, rfl⟩
  | cons a pre ih =>
    obtain ⟨v', rest', hcons⟩ := List.exists_cons_of_ne_nil (show pre ++ w :: v :: rest ≠ [] by simp)
    obtain ⟨hex, hpx⟩ := h a List.mem_cons_self
    have hpre : Untimed pre := fun b hb => h b (List.mem_cons_of_mem _ hb)
    rw [List.cons_append, hcons, setOptions]
    simp only [hex, hpx, Bool.false_eq_true, if_false, ← hcons]
    split_ifs
    · exact ih hpre { o with nx := true }
    · exact ih hpre { o with xx := true }
    · exact ih hpre o

theorem setOptions_ex {word a : List UInt8} {pre post : List (List UInt8)} (hword : isWord word "EX" = true)
    (hpre : Untimed pre) (hpost : Untimed post) (o : SetOpts) :
    (setOptions (pre ++ word :: a :: post) o).ttlSec = toUInt32 (parseNum a) := by
  obtain ⟨o', -, heq⟩ := setOptions_append hpre word a post o
  rw [heq, setOptions, if_pos hword, setOptions_untimed hpost]

theorem setOptions_px {word a : List UInt8} {pre post : List (List UInt8)} (hword : isWord word "PX" = true)
    (hpre : Untimed pre) (hpost : Untimed post) (o : SetOpts) :
    (setOptions (pre ++ word :: a :: post) o).ttlSec = toUInt32 ((parseNum a).tdiv 1000) := by
  obtain ⟨o', -, heq⟩ := setOptions_append hpre word a post o
  have hex : ¬ isWord word "EX" = true := by
    rw [isWord_congr hword]
    decide +kernel
  rw [heq, setOptions, if_neg hex, if_pos hword, setOptions_untimed hpost]

/-! ## What is stored -/

/-- The memory for a `vc_set` is there, and the set is made in a state in which the key has no stale
entries and the table has a slot for it. -/
def Host.StoresNow (h : Host) : HostReq → Prop
  | .set key val ttlSec => (h.set key val ttlSec).2 = .ok () ∧ h.Ready key
  | _ => True

section Outcome

variable {srv : Srv} {conn : Conn} {h : Host} {k a val : List UInt8} {argv : List (List UInt8)} {c : TtlCmd}
  {ttlSec : UInt32}

/-- The key has one entry, made just now with this time to live. -/
def Host.JustSet (h : Host) (k : List UInt8) (ttlSec : UInt32) : Prop :=
  ∃ val, h.world.cache.copies k = {newItem h.world.now k val ttlSec}

theorem Host.StoresNow.justSet (hv : h.world.cache.Valid) (hs : h.StoresNow (.set k val ttlSec)) :
    (h.set k val ttlSec).1.JustSet k ttlSec := by
  obtain ⟨hok, ⟨o, hshows⟩, hroom⟩ := hs
  exact ⟨val, Host.set_copies hv hok hshows hroom⟩

/-- Whatever a program does, the tables stay valid. -/
theorem keeps_valid {R : Type} (p : Prog R) :
    p.Triple hostExec Host.StoresNow (fun h => h.world.cache.Valid) fun _ h => h.world.cache.Valid := by
  intro h hv _
  obtain ⟨ops, hops⟩ := run_world p h
  rw [hops]
  exact run_valid hv ops

/-- An answer that confirms the command is given only if the key has just been set. -/
def Confirmed (success : List UInt8) (k : List UInt8) (ttlSec : UInt32) (o : Option Answer) (h : Host) : Prop :=
  o.map (·.reply) = some success → h.JustSet k ttlSec

theorem confirmed_of_ne {success reply : List UInt8} (hne : reply ≠ success) {P : Host → Prop} :
    (conn.answer reply).Triple hostExec Host.StoresNow P (Confirmed success k ttlSec) :=
  .pure fun _ _ hsame => absurd (Option.some.inj hsame) hne

theorem nullReply_ne_ok (conn : Conn) : respWriteNullCompat conn.resp3 ≠ respWriteOk := by
  cases conn.resp3 <;> decide

theorem set_confirmed (hmay : needAuth srv conn vcAclWrite = none) (word : List UInt8)
    (opts : List (List UInt8)) :
    (cmdSet srv conn (word :: k :: val :: opts)).Triple hostExec Host.StoresNow (fun h => h.world.cache.Valid)
      (Confirmed respWriteOk k (setOptions opts ⟨0, false, false⟩).ttlSec) := by
  have heq : cmdSet srv conn (word :: k :: val :: opts) =
      nxTaken (setOptions opts ⟨0, false, false⟩).nx k >>= fun taken =>
        if taken then conn.nullReply
        else xxMissing (setOptions opts ⟨0, false, false⟩).xx k >>= fun missing =>
          if missing then conn.nullReply
          else callSet k (setValue val) (setOptions opts ⟨0, false, false⟩).ttlSec >>= fun r =>
            conn.answer (storeText r) := by
    simp only [← storeReply_eq]
    simp only [cmdSet, guarded, hmay]
    rfl
  rw [heq]
  refine .bind (keeps_valid _) fun taken => .ite (fun _ => confirmed_of_ne (nullReply_ne_ok conn)) fun _ => ?_
  refine .bind (keeps_valid _) fun missing => .ite (fun _ => confirmed_of_ne (nullReply_ne_ok conn)) fun _ => ?_
  exact .ask_bind (fun g hv hs => hs.justSet hv) fun r => .pure fun g hset _ => hset

theorem expire_confirmed (hmay : needAuth srv conn vcAclWrite = none) :
    (cmdExpire srv conn [str "EXPIRE", k, a]).Triple hostExec Host.StoresNow (fun h => h.world.cache.Valid)
      (Confirmed (respWriteInteger 1) k (toUInt32 (parseNum a))) := by
  have heq : cmdExpire srv conn [str "EXPIRE", k, a] = setAgain conn k (toUInt32 (parseNum a)) := by
    simp only [cmdExpire, guarded, hmay]
    rfl
  rw [heq, setAgain]
  refine .bind (keeps_valid _) fun r => ?_
  cases r with
  | error e => exact confirmed_of_ne (by decide +kernel)
  | ok val =>
    refine .bind (keeps_valid _) fun copied => .ite (fun _ => confirmed_of_ne (by decide +kernel)) fun _ => ?_
    exact .ask_bind (fun g hv hs => hs.justSet hv) fun r => .pure fun g hset _ => hset

/-- A request that is confirmed has just set the key, with the seconds of its argument cut to 32
bits. -/
theorem TtlRequest.justSet (hreq : TtlRequest k a c argv) (hmay : needAuth srv conn vcAclWrite = none)
    (hv : h.world.cache.Valid) (hstores : (vcDispatch srv conn argv).Along hostExec Host.StoresNow h)
    (hsuccess : dispatchText ((vcDispatch srv conn argv).run hostExec h).2 = some c.success) :
    ((vcDispatch srv conn argv).run hostExec h).1.JustSet k (toUInt32 (c.seconds (parseNum a))) := by
  obtain ⟨e, hexec, htriple⟩ : ∃ e, executed srv conn argv = some e ∧
      (e.fn srv conn argv).Triple hostExec Host.StoresNow (fun h => h.world.cache.Valid)
        (Confirmed c.success k (toUInt32 (c.seconds (parseNum a)))) := by
    cases hreq with
    | ex hword hpre hpost =>
      refine ⟨⟨"SET", cmdSet, vcAclWrite⟩, executed_set hmay _, ?_⟩
      exact setOptions_ex hword hpre hpost ⟨0, false, false⟩ ▸ set_confirmed hmay _ _
    | px hword hpre hpost =>
      refine ⟨⟨"SET", cmdSet, vcAclWrite⟩, executed_set hmay _, ?_⟩
      exact setOptions_px hword hpre hpost ⟨0, false, false⟩ ▸ set_confirmed hmay _ _
    | expire =>
      exact ⟨⟨"EXPIRE", cmdExpire, vcAclWrite⟩, executed_eq_some.mpr ⟨by simp, rfl, .inr hmay⟩,
        expire_confirmed hmay⟩
  rw [vcDispatch_of_executed hexec, Calls.along_bind_pure] at hstores
  rw [vcDispatch_run hexec] at hsuccess ⊢
  refine htriple h hv hstores ?_
  rw [← hsuccess, dispatchText, Option.map_map]
  rfl

end Outcome

/-! ## What was meant -/

theorem toNat_toUInt32 (v : Int) : (toUInt32 v).toNat = (v % 2 ^ 32).toNat := by
  rw [toUInt32, UInt32.toNat_ofNat']
  omega

/-- The deadline for a number of seconds, cut to 32 bits. -/
theorem deadline_toUInt32 (now : Nat) (v : Int) : deadline now (toUInt32 v) =
    if v % 2 ^ 32 = 0 then 0 else toInt64 (now + (v % 2 ^ 32).toNat * 1000000000) := by
  have hzero : toUInt32 v = 0 ↔ v % 2 ^ 32 = 0 := by
    rw [← UInt32.toNat_inj, toNat_toUInt32, UInt32.toNat_zero]
    omega
  rw [deadline, toNat_toUInt32]
  simp only [hzero]

theorem toInt64_le_sub {n : Nat} (h : 2 ^ 63 ≤ n) : toInt64 n ≤ n - 2 ^ 64 := by
  unfold toInt64
  split <;> omega

theorem deadline_of_fits {now : Nat} {v : Int} (hpos : 1 ≤ v) (hlt : v < 2 ^ 32)
    (hclock : now + v * 1000000000 < 2 ^ 63) : deadline now (toUInt32 v) = now + v * 1000000000 := by
  have hmod : v % 2 ^ 32 = v := Int.emod_eq_of_lt (by omega) hlt
  rw [deadline_toUInt32, hmod, if_neg (by omega), toInt64_of_lt (by omega)]
  omega

/-- Otherwise there is no deadline, or it is more than a century too early. -/
theorem deadline_of_not_fits {now : Nat} {v : Int} (hpos : 0 ≤ v)
    (h : ¬ (1 ≤ v ∧ v < 2 ^ 32 ∧ now + v * 1000000000 < 2 ^ 63)) :
    deadline now (toUInt32 v) = 0 ∨
      deadline now (toUInt32 v) + 2 ^ 32 * 1000000000 ≤ now + v * 1000000000 := by
  rw [deadline_toUInt32]
  split
  · exact .inl rfl
  · next hne =>
    right
    have hle : v % 2 ^ 32 ≤ v := by omega
    have hnat : ((v % 2 ^ 32).toNat : Int) = v % 2 ^ 32 := Int.toNat_of_nonneg (Int.emod_nonneg _ (by decide))
    by_cases hclock : now + (v % 2 ^ 32).toNat * 1000000000 < 2 ^ 63
    · rw [toInt64_of_lt hclock]
      omega
    · have hwrap := toInt64_le_sub (Nat.le_of_not_lt hclock)
      omega

/-- For a positive argument the deadline is the one that is meant if and only if the argument fits. -/
theorem TtlCmd.meant_iff (c : TtlCmd) {n : Int} (hn : 0 < n) (now : Nat) :
    deadline now (toUInt32 (c.seconds n)) ≠ 0 ∧ c.Meant n now (deadline now (toUInt32 (c.seconds n))) ↔
      c.Fits n now := by
  have hdiv : n.tdiv 1000 = n / 1000 := Int.tdiv_eq_ediv_of_nonneg (Int.le_of_lt hn)
  have hsec : 0 ≤ c.seconds n ∧ c.seconds n ≤ n := by
    cases c <;> simp only [seconds] <;> omega
  constructor
  · rintro ⟨hne, hmeant⟩
    by_contra hfits
    have hearly := (deadline_of_not_fits hsec.1 hfits).resolve_left hne
    generalize deadline now (toUInt32 (c.seconds n)) = e at hmeant hearly
    cases c <;> simp only [Meant, seconds] at hmeant hearly <;> omega
  · intro hfits
    rw [deadline_of_fits hfits.1 hfits.2.1 hfits.2.2]
    have hone := hfits.1
    refine ⟨by omega, ?_⟩
    cases c with
    | ex => rfl
    | px =>
      simp only [Meant, seconds]
      omega
    | expire => rfl

/-! ## Expiries from arguments -/

/-- The one entry of the key has the expiry that `n` stands for. -/
def TtlCmd.Timed (c : TtlCmd) (n : Int) (h : Host) (k : List UInt8) : Prop :=
  ∃ i, h.world.cache.copies k = {i} ∧ i.expireNs ≠ 0 ∧ c.Meant n h.world.now i.expireNs

/-- Every entry has an expiry, and takes the place of one that was to live at least as long. -/
def NotLonger (before after : Multiset Item) : Prop :=
  ∀ i ∈ after, i.expireNs ≠ 0 ∧ ∃ j ∈ before, j.expireNs = 0 ∨ i.expireNs ≤ j.expireNs

theorem notLonger_singleton {before : Multiset Item} {i : Item} :
    NotLonger before {i} ↔ i.expireNs ≠ 0 ∧ ∃ j ∈ before, j.expireNs = 0 ∨ i.expireNs ≤ j.expireNs := by
  simp [NotLonger]

/-- What `strtoll` makes of the argument has a whole second in its low 32 bits, and the key had an entry
that does not expire before them. -/
def TtlCmd.Harmless (c : TtlCmd) (a : List UInt8) (now : Nat) (before : Multiset Item) : Prop :=
  c.seconds (parseNum a) % 2 ^ 32 ≠ 0 ∧
    toInt64 (now + (c.seconds (parseNum a) % 2 ^ 32).toNat * 1000000000) ≠ 0 ∧
    ∃ j ∈ before, j.expireNs = 0 ∨
      toInt64 (now + (c.seconds (parseNum a) % 2 ^ 32).toNat * 1000000000) ≤ j.expireNs

section Meaning

variable {srv : Srv} {conn : Conn} {h : Host} {k a : List UInt8} {argv : List (List UInt8)} {c : TtlCmd}

theorem Host.JustSet.timed_iff {n : Int} (hset : h.JustSet k (toUInt32 (c.seconds n))) (hn : 0 < n) :
    c.Timed n h k ↔ c.Fits n h.world.now := by
  obtain ⟨val, hcopies⟩ := hset
  rw [← c.meant_iff hn, TtlCmd.Timed, hcopies]
  constructor
  · rintro ⟨i, hi, hne, hmeant⟩
    obtain rfl := Multiset.singleton_inj.mp hi
    exact ⟨hne, hmeant⟩
  · rintro ⟨hne, hmeant⟩
    exact ⟨_, rfl, hne, hmeant⟩

theorem Host.JustSet.notLonger_iff {before : Multiset Item}
    (hset : h.JustSet k (toUInt32 (c.seconds (parseNum a)))) :
    NotLonger before (h.world.cache.copies k) ↔ c.Harmless a h.world.now before := by
  obtain ⟨val, hcopies⟩ := hset
  have hexpire : (newItem h.world.now k val (toUInt32 (c.seconds (parseNum a)))).expireNs = _ :=
    deadline_toUInt32 h.world.now (c.seconds (parseNum a))
  rw [hcopies, notLonger_singleton, hexpire, TtlCmd.Harmless]
  by_cases hzero : c.seconds (parseNum a) % 2 ^ 32 = 0
  · rw [if_pos hzero]
    exact iff_of_false (fun hne => hne.1 rfl) (fun hne => hne.1 hzero)
  · rw [if_neg hzero, and_iff_right hzero]

/-- No seconds in the low 32 bits are no expiry. -/
theorem Host.JustSet.forever {v : Int} (hset : h.JustSet k (toUInt32 v)) (hzero : v % 2 ^ 32 = 0) :
    ∃ i ∈ h.world.cache.copies k, i.expireNs = 0 := by
  obtain ⟨val, hcopies⟩ := hset
  have hexpire : (newItem h.world.now k val (toUInt32 v)).expireNs = _ := deadline_toUInt32 h.world.now v
  rw [if_pos hzero] at hexpire
  exact ⟨_, hcopies ▸ Multiset.mem_singleton_self _, hexpire⟩

/-- What a time to live given to `SET` with `EX` or `PX` or to `EXPIRE` comes to, when the command is
confirmed and has stored. A positive number gives the expiry that is meant if and only if it is a
whole second or more, in 32 bits. A zero, a negative number or no number gives an expiry that is no
later than the one before if and only if its low 32 bits happen to. -/
theorem ttl_argument_iff (hreq : TtlRequest k a c argv) (hmay : needAuth srv conn vcAclWrite = none)
    (hv : h.world.cache.Valid) (hstores : (vcDispatch srv conn argv).Along hostExec Host.StoresNow h)
    (hsuccess : dispatchText ((vcDispatch srv conn argv).run hostExec h).2 = some c.success) :
    let last := ((vcDispatch srv conn argv).run hostExec h).1
    (∀ n, IsNum a n → 0 < n → (c.Timed n last k ↔ c.Fits n last.world.now)) ∧
    ((∀ n, IsNum a n → n ≤ 0) →
      (NotLonger (h.world.cache.copies k) (last.world.cache.copies k) ↔
        c.Harmless a last.world.now (h.world.cache.copies k))) := by
  intro last
  have hset := hreq.justSet hmay hv hstores hsuccess
  exact ⟨fun n hn hpos => (hn.parseNum_eq ▸ hset).timed_iff hpos, fun _ => hset.notLonger_iff⟩

/-- A `SET` with a time and no other option makes one call. -/
theorem along_set_timed (hmay : needAuth srv conn vcAclWrite = none) {val : List UInt8}
    {opts : List (List UInt8)} (hnx : (setOptions opts ⟨0, false, false⟩).nx = false)
    (hxx : (setOptions opts ⟨0, false, false⟩).xx = false)
    (hnow : h.StoresNow (.set k (setValue val) (setOptions opts ⟨0, false, false⟩).ttlSec)) :
    (vcDispatch srv conn (str "SET" :: k :: val :: opts)).Along hostExec Host.StoresNow h := by
  have hcmd : cmdSet srv conn (str "SET" :: k :: val :: opts) =
      storeReply conn k val (setOptions opts ⟨0, false, false⟩).ttlSec := by
    have hargs : (str "SET" :: k :: val :: opts).drop 3 = opts := rfl
    simp only [cmdSet, guarded, hmay, hargs, hnx, hxx]
    rfl
  rw [vcDispatch_of_executed (executed_set hmay _), Calls.along_bind_pure]
  dsimp only
  rw [hcmd, storeReply_eq]
  exact ⟨hnow, trivial⟩

theorem ten_seconds :
    let p := vcDispatch openServer freshConn [str "SET", str "k", str "v", str "EX", str "10"]
    TtlCmd.ex.Timed 10 (p.run hostExec newHost).1 (str "k") := by
  intro p
  have hreq : TtlRequest (str "k") (str "10") .ex [str "SET", str "k", str "v", str "EX", str "10"] :=
    @TtlRequest.ex _ _ (str "EX") (str "v") [] [] (by decide +kernel) (by simp [Untimed]) (by simp [Untimed])
  have hstores : p.Along hostExec Host.StoresNow newHost :=
    along_set_timed (by decide) (by decide +kernel) (by decide +kernel)
      ⟨by decide +kernel, newHost_ready _ (by decide +kernel)⟩
  exact ((ttl_argument_iff hreq (by decide) newCache_reachable.valid hstores (by decide +kernel)).1 10
    (by decide +kernel) (by decide)).mpr (by decide +kernel)

/-- Half a second is taken for no expiry, and so is a text that is no number. -/
theorem half_second_forever :
    let px := vcDispatch openServer freshConn [str "SET", str "k", str "v", str "PX", str "500"]
    let ex := vcDispatch openServer freshConn [str "SET", str "k", str "v", str "EX", str "abc"]
    (dispatchText (px.run hostExec newHost).2 = some respWriteOk ∧
      IsNum (str "500") 500 ∧ ¬ TtlCmd.px.Timed 500 (px.run hostExec newHost).1 (str "k")) ∧
    dispatchText (ex.run hostExec newHost).2 = some respWriteOk ∧ parseNum (str "abc") = 0 ∧
      ∃ i ∈ (ex.run hostExec newHost).1.world.cache.copies (str "k"), i.expireNs = 0 := by
  intro px ex
  have hpx : TtlRequest (str "k") (str "500") .px [str "SET", str "k", str "v", str "PX", str "500"] :=
    @TtlRequest.px _ _ (str "PX") (str "v") [] [] (by decide +kernel) (by simp [Untimed]) (by simp [Untimed])
  have hex : TtlRequest (str "k") (str "abc") .ex [str "SET", str "k", str "v", str "EX", str "abc"] :=
    @TtlRequest.ex _ _ (str "EX") (str "v") [] [] (by decide +kernel) (by simp [Untimed]) (by simp [Untimed])
  have hready := newHost_ready (str "k") (by decide +kernel)
  have hpxok : dispatchText (px.run hostExec newHost).2 = some respWriteOk := by decide +kernel
  have hexok : dispatchText (ex.run hostExec newHost).2 = some respWriteOk := by decide +kernel
  have hpxset := hpx.justSet (by decide) newCache_reachable.valid
    (along_set_timed (by decide) (by decide +kernel) (by decide +kernel) ⟨by decide +kernel, hready⟩) hpxok
  have hexset := hex.justSet (by decide) newCache_reachable.valid
    (along_set_timed (by decide) (by decide +kernel) (by decide +kernel) ⟨by decide +kernel, hready⟩) hexok
  have hnum : IsNum (str "500") 500 := by decide +kernel
  rw [hnum.parseNum_eq] at hpxset
  refine ⟨⟨hpxok, hnum, fun htimed => ?_⟩, hexok, by decide +kernel, ?_⟩
  · exact absurd ((hpxset.timed_iff (by decide)).mp htimed) (by decide +kernel)
  · exact hexset.forever (by decide +kernel)

end Meaning

end VoidCache
