import VoidCache.Cache.Uniqueness

/-!
# A hit returns the last value written

Without time to live nothing expires, so every `vc_set` finds the old copy of its key. Along
every run, whatever was evicted, dropped or refused, each item is then the last value that
was stored under its key, and no delete of the key and no flush came after it.
-/
namespace VoidCache

variable {c c' : Cache} {now : Nat} {key val : List UInt8}

/-- Sets have no time to live. -/
def Op.NoTtl : Op → Prop
  | .set _ _ ttlSec _ => ttlSec = 0
  | _ => True

/-- Sets have no time to live and a value whose length fits `val_len`. -/
def Op.Plain : Op → Prop
  | .set _ val ttlSec _ => ttlSec = 0 ∧ val.length ≤ valMax
  | _ => True

theorem Op.Plain.noTtl {op : Op} (h : op.Plain) : op.NoTtl := by
  cases op with
  | set => exact h.1
  | _ => trivial

/-- Calls after which the last value set for `key` no longer counts. -/
def Overrides (key : List UInt8) : Op × Res → Prop
  | (.set k _ _ _, .done (.ok ())) => k = key
  | (.del k _, _) => k = key
  | (.flush, _) => True
  | _ => False

/-- The last successful `vc_set` of `key` stored `val`, and neither a delete of `key` nor a
flush came after it. -/
def LastSet (tr : List (Op × Res)) (key val : List UInt8) : Prop :=
  ∃ before ttlSec env after, tr = before ++ (.set key val ttlSec env, .done (.ok ())) :: after ∧
    ∀ x ∈ after, ¬ Overrides key x

theorem LastSet.snoc {tr : List (Op × Res)} (h : LastSet tr key val) {x : Op × Res}
    (hx : ¬ Overrides key x) : LastSet (tr ++ [x]) key val := by
  obtain ⟨before, ttlSec, env, after, rfl, hafter⟩ := h
  refine ⟨before, ttlSec, env, after ++ [x], by simp, fun y hy => ?_⟩
  rcases List.mem_append.mp hy with hy | hy
  · exact hafter y hy
  · rw [List.mem_singleton.mp hy]
    exact hx

theorem LastSet.last (tr : List (Op × Res)) (key val : List UInt8) (ttlSec : UInt32) (env : Env) :
    LastSet (tr ++ [(.set key val ttlSec env, .done (.ok ()))]) key val :=
  ⟨tr, ttlSec, env, [], rfl, by simp⟩

/-- The item holds a last value of the run so far, clipped to `val_len`, for ever. -/
def Current (tr : List (Op × Res)) (i : Item) : Prop :=
  i.expireNs = 0 ∧ ∃ key val, i.key = Cell.bytes key ∧ i.val = Cell.bytes (val.take valMax) ∧
    LastSet tr key val

theorem Current.snoc {tr : List (Op × Res)} {i : Item} (h : Current tr i) {x : Op × Res}
    (hx : ∀ key, i.key = Cell.bytes key → ¬ Overrides key x) : Current (tr ++ [x]) i := by
  obtain ⟨h0, key, val, hk, hval, hl⟩ := h
  exact ⟨h0, key, val, hk, hval, hl.snoc (hx key hk)⟩

/-- The keys of a valid cache are shorter than `2^32`. -/
theorem Cache.Valid.key_lt (hv : c.Valid) {i : Item} (hi : i ∈ c.items)
    (hk : i.key = Cell.bytes key) : key.length < 2 ^ 32 := by
  obtain ⟨d, hd, rfl⟩ := Cache.Valid.mem_items.mp hi
  obtain ⟨si, hsi, hd⟩ := Cache.Valid.mem_contents.mp hd
  obtain ⟨key', _, hn, _⟩ := hv.named si hsi d hd
  rw [hn.item] at hk
  rw [← Cell.bytes_injective hk]
  exact hn.bound

/-! ## Without time to live -/

/-- A valid cache with at most one copy of each key, in which nothing ever expires. -/
structure Cache.Settled (c : Cache) : Prop where
  valid : c.Valid
  unique : c.Unique
  forever : ∀ i ∈ c.items, i.expireNs = 0

theorem Cache.Settled.unshadowed (h : c.Settled) (now : Nat) (key : List UInt8) :
    c.Unshadowed now key := fun i hi _ => by simp [Item.expired, h.forever i hi]

theorem Cache.Settled.log (h : c.Settled) (r : WalReq) : (c.log r).Settled :=
  ⟨h.valid.log r, h.unique, h.forever⟩

/-- What a delete leaves does not have the deleted key. -/
theorem Cache.Settled.deleted (h : c.Settled) {env : Env} {r : Res}
    (he : Effect c now (.del key env) r c') (hle : c'.items ≤ c.items) {i : Item}
    (hi : i ∈ c'.items) : i.key ≠ Cell.bytes key := by
  intro hik
  have hi' := Multiset.mem_of_le hle hi
  have hx := he.hidden_of_del h.valid (h.valid.key_lt hi' hik) h.unique i hi hik
  rw [h.unshadowed now key i hi' hik] at hx
  exact absurd hx (by simp)

/-- All items of the cache are current. -/
structure Fresh (tr : List (Op × Res)) (w : World) : Prop where
  valid : w.cache.Valid
  unique : w.cache.Unique
  current : ∀ i ∈ w.cache.items, Current tr i

theorem Fresh.settled {tr : List (Op × Res)} {w : World} (h : Fresh tr w) : w.cache.Settled :=
  ⟨h.valid, h.unique, fun i hi => (h.current i hi).1⟩

theorem Fresh.unshadowed {tr : List (Op × Res)} {w : World} (h : Fresh tr w) (key : List UInt8) :
    w.cache.Unshadowed w.now key := h.settled.unshadowed w.now key

/-- Items that stay are current after a call that overrides none of them. -/
theorem Fresh.keep {tr : List (Op × Res)} {w : World} (h : Fresh tr w) {x : Op × Res}
    (hle : c'.items ≤ w.cache.items)
    (hx : ∀ i ∈ c'.items, ∀ key, i.key = Cell.bytes key → ¬ Overrides key x) :
    ∀ i ∈ c'.items, Current (tr ++ [x]) i := fun i hi =>
  (h.current i (Multiset.mem_of_le hle hi)).snoc (hx i hi)

theorem Effect.current {tr : List (Op × Res)} {w : World} {op : Op} {r : Res}
    (he : Effect w.cache w.now op r c') (h : Fresh tr w) (hop : op.NoTtl) :
    ∀ i ∈ c'.items, Current (tr ++ [(op, r)]) i := by
  cases he with
  | @stored key val ttlSec env _ ev left rest hset hs =>
    obtain rfl : ttlSec = 0 := hop
    intro i hi
    rcases Multiset.mem_cons.mp (hs.after ▸ Multiset.mem_add.mpr (Or.inl hi)) with rfl | hi
    · exact ⟨rfl, key, val, rfl, rfl, LastSet.last _ _ _ _ _⟩
    · have hne := hs.rest_key h.valid hset.2.1 h.unique (h.unshadowed key)
        (Multiset.mem_add.mpr (Or.inr hi))
      have hmem : i ∈ w.cache.items := by
        rw [hs.before]
        exact Multiset.mem_add.mpr (Or.inr (Multiset.mem_add.mpr (Or.inr hi)))
      exact (h.current i hmem).snoc fun k hk hov => hne (by rw [hk, hov])
  | oom _ _ hi => exact h.keep hi.le fun _ _ _ _ => id
  | invalid => exact h.keep le_rfl fun _ _ _ _ => id
  | got ht => exact h.keep ht.items.le fun _ _ _ _ => id
  | @deleted key env _ i hd =>
    have hle : c'.items ≤ w.cache.items := hd.items ▸ Multiset.le_cons_self _ _
    refine h.keep hle fun i hi k hk hov => ?_
    have he : Effect w.cache w.now (.del key env) _ c' := Effect.deleted hd
    exact h.settled.deleted he hle hi (by rw [hk, hov])
  | @absent key env _ hf ht =>
    refine h.keep ht.items.le fun i hi k hk hov => ?_
    have he : Effect w.cache w.now (.del key env) _ c' := Effect.absent hf ht
    exact h.settled.deleted he ht.items.le hi (by rw [hk, hov])
  | flushed _ hz =>
    intro i hi
    rw [hz] at hi
    exact absurd hi (Multiset.notMem_zero i)
  | ticked => exact h.keep le_rfl fun _ _ _ _ => id

theorem Fresh.step {tr : List (Op × Res)} {w : World} (h : Fresh tr w) {op : Op} (hop : op.NoTtl) :
    Fresh (tr ++ [(op, (step w op).2)]) (step w op).1 := by
  have he := step_effect h.valid op
  refine ⟨he.valid h.valid, he.unique h.valid h.unique ?_, he.current h hop⟩
  cases op with
  | set key => exact h.unshadowed key
  | _ => trivial

theorem Fresh.create {file : Option (Nat → UInt8)} {slots : UInt32} {c : Cache}
    (hc : vcCreate file slots = some c) (now : Nat) : Fresh [] ⟨c, now⟩ := by
  obtain ⟨hv, hi⟩ := vcCreate_outcome hc
  refine ⟨hv, Cache.Unique.of_empty hi, fun i h => ?_⟩
  rw [hi] at h
  exact absurd h (Multiset.notMem_zero i)

theorem Fresh.run {file : Option (Nat → UInt8)} {slots : UInt32} {c : Cache}
    (hc : vcCreate file slots = some c) (now : Nat) {ops : List Op} (hops : ∀ op ∈ ops, op.NoTtl) :
    Fresh (Machine.trace VoidCache.step ⟨c, now⟩ ops) (Machine.run VoidCache.step ⟨c, now⟩ ops) :=
  Machine.trace_inv (P := fun _ op => op.NoTtl) (fun _ _ _ h hop => h.step hop) []
    (Fresh.create hc now) (Machine.along_of_forall fun op hop _ => hops op hop)

theorem LastSet.val_le {w : World} {ops : List Op} (h : LastSet (Machine.trace step w ops) key val)
    (hops : ∀ op ∈ ops, op.Plain) : val.length ≤ valMax := by
  obtain ⟨before, ttlSec, env, after, htr, _⟩ := h
  have hmem : Op.set key val ttlSec env ∈ ops := by
    have hops := congrArg (List.map Prod.fst) htr
    rw [Machine.map_fst_trace] at hops
    simp [hops]
  exact (hops _ hmem).2

/-- In every run without time to live, whatever fails or is evicted on the way, a `vc_get`
of a key of at most `UINT32_MAX` bytes that returns `VC_OK` returns the length and the bytes
of the last value set for the key, not deleted or flushed since. -/
theorem get_returns_last_set {file : Option (Nat → UInt8)} {slots : UInt32} {c : Cache}
    (hc : vcCreate file slots = some c) (now : Nat) (ops : List Op) (hops : ∀ op ∈ ops, op.Plain)
    (key : List UInt8) (hkey : key.length < 2 ^ 32) (loc : Loc) (len : Nat) :
    let w := Machine.run step ⟨c, now⟩ ops
    (vcGet w.cache w.now key).1 = .ok (loc, len) →
    ∃ val, LastSet (Machine.trace step ⟨c, now⟩ ops) key val ∧ len = val.length ∧
      (vcGet w.cache w.now key).2.readLoc loc len = Cell.bytes val := by
  intro w hget
  have hrun := Fresh.run hc now fun op hop => (hops op hop).noTtl
  obtain ⟨i, val, _, hmem, hik, hival, _, hlen, hread⟩ := vcGet_ok hrun.valid hkey hget
  obtain ⟨_, key', val', hk', hv', hlast⟩ := hrun.current i hmem
  rw [List.take_of_length_le (hlast.val_le hops)] at hv'
  obtain rfl := Cell.bytes_injective (hk'.symm.trans hik)
  obtain rfl := Cell.bytes_injective (hv'.symm.trans hival)
  refine ⟨val', hlast, hlen, ?_⟩
  rw [(vcGet_touched w.cache w.now key').readLoc]
  exact hread

/-- One set and a hit. -/
theorem get_returns_value_just_set :
    let w := Machine.run step ⟨newCache none 2, 0⟩ [.set [97] [7, 8] 0 calmEnv]
    ∃ val, LastSet (Machine.trace step ⟨newCache none 2, 0⟩ [.set [97] [7, 8] 0 calmEnv]) [97] val ∧
      2 = val.length ∧
      (vcGet w.cache w.now [97]).2.readLoc (.payload 14 1 1) 2 = Cell.bytes val :=
  get_returns_last_set (show vcCreate none 2 = some (newCache none 2) from rfl) 0
    [.set [97] [7, 8] 0 calmEnv] (by simp [Op.Plain, valMax]) [97] (by decide) (.payload 14 1 1) 2
    (by decide +kernel)

/-! ## Keys longer than `UINT32_MAX`

`vc_set` refuses them; `vc_get` and `vc_del` cast their length to 32 bits and search for
what is left. All that is needed for a foreign hit is an equal hash.
-/

/-- `vc_get` sees a key only through its hash, its length modulo `2^32` and that many bytes. -/
theorem vcGet_alias {key key' : List UInt8} (hh : wyhash64 key 0 = wyhash64 key' 0)
    (hl : key.length % 2 ^ 32 = key'.length % 2 ^ 32)
    (ht : key.take (key.length % 2 ^ 32) = key'.take (key'.length % 2 ^ 32)) (c : Cache) (now : Nat) :
    vcGet c now key = vcGet c now key' := by
  have hmatch : ∀ e, slotMatches c.mem e key (key.length % 2 ^ 32) (wyhash64 key 0) =
      slotMatches c.mem e key' (key'.length % 2 ^ 32) (wyhash64 key' 0) := fun e => by
    rw [Bool.eq_iff_iff, slotMatches_iff, slotMatches_iff, hh, ht, hl]
  have hfind : c.find now key = c.find now key' := by
    unfold Cache.find homeShard shardFind
    rw [hh] at hmatch ⊢
    generalize tableSlot (wyhash64 key' 0) _ = slot
    generalize (c.shards (shardIdx (wyhash64 key' 0))).cap = n
    induction n generalizing slot with
    | zero => rfl
    | succ n ih => rw [shardFindLoop, shardFindLoop, hmatch, ih]
  rw [vcGet_eq, vcGet_eq, hfind, homeShard, homeShard, hh]

/-- Twelve bytes whose first fold is the constant it is xored with. -/
def zeroHashKey : List UInt8 := [0xb9, 0x79, 0x37, 0x9e, 0x15, 0x7c, 0x4a, 0x7f, 0, 0, 0, 0]

def paddedEnd : List UInt8 := [0x15, 0x7c, 0x4a, 0x7f, 0xb9, 0x79, 0x37, 0x9e, 0, 0, 0, 0, 0, 0, 0, 0]

/-- The same twelve bytes, `n` zeros, and an end that folds to the constant again. -/
def paddedKey (n : Nat) : List UInt8 := zeroHashKey ++ (List.replicate n 0 ++ paddedEnd)

theorem length_paddedKey (n : Nat) : (paddedKey n).length = n + 28 := by
  simp [paddedKey, zeroHashKey, paddedEnd]

theorem load8_paddedKey (n off : Nat) (h8 : 8 ≤ off) (hlt : off < n + 12) :
    load8 (paddedKey n) off = 0 := by
  unfold load8 paddedKey
  by_cases h : off < 12
  · rw [List.getD_append _ _ _ _ (by simpa [zeroHashKey] using h)]
    rcases (by omega : off = 8 ∨ off = 9 ∨ off = 10 ∨ off = 11) with rfl | rfl | rfl | rfl <;> rfl
  · rw [List.getD_append_right _ _ _ _ (by simpa [zeroHashKey] using h),
      List.getD_append _ _ _ _ (by simp [zeroHashKey]; omega)]
    simp

theorem load8_paddedKey_end (n j : Nat) :
    load8 (paddedKey n) (n + 12 + j) = load8 paddedEnd j := by
  unfold load8 paddedKey
  rw [List.getD_append_right _ _ _ _ (by simp [zeroHashKey]; omega),
    List.getD_append_right _ _ _ _ (by simp [zeroHashKey]; omega)]
  congr 1
  simp [zeroHashKey]
  omega

/-- Every full block of the padded key multiplies by zero twice. -/
theorem wyBlocks_paddedKey (n r : Nat) : ∀ m p, r ≤ m → p + 32 * r ≤ n + 16 →
    wyBlocks (paddedKey n) m ⟨p, 12 + 32 * r, 0, 0⟩ = ⟨p + 32 * r, 12, 0, 0⟩ := by
  induction r with
  | zero =>
    intro m p _ _
    cases m <;> rfl
  | succ r ih =>
    intro m p hm hp
    obtain ⟨m, rfl⟩ : ∃ k, m = k + 1 := ⟨m - 1, by omega⟩
    have hy : load64 (paddedKey n) (p + 8) = 0 :=
      load64_eq_zero fun j h1 h2 => load8_paddedKey n j (by omega) (by omega)
    have hx : load64 (paddedKey n) (p + 16) = 0 :=
      load64_eq_zero fun j h1 h2 => load8_paddedKey n j (by omega) (by omega)
    have hblock : wyBlock (paddedKey n) ⟨p, 12 + 32 * (r + 1), 0, 0⟩ =
        ⟨p + 32, 12 + 32 * r, 0, 0⟩ := by
      simp only [wyBlock, hy, hx, UInt64.xor_self, wymix_zero_left, wymix_zero_right,
        UInt64.zero_xor, show 12 + 32 * (r + 1) - 32 = 12 + 32 * r by omega]
    rw [wyBlocks, if_pos (by dsimp only; omega), hblock, ih m (p + 32) (by omega) (by omega)]
    rw [show p + 32 + 32 * r = p + 32 * (r + 1) by omega]

theorem wyhash64_paddedKey {n r : Nat} (hn : n + 16 = 32 * r) : wyhash64 (paddedKey n) 0 = 0 := by
  have hblocks : wyBlocks (paddedKey n) (n + 28) ⟨0, n + 28, 0, 0⟩ = ⟨n + 16, 12, 0, 0⟩ := by
    have := wyBlocks_paddedKey n r (n + 28) 0 (by omega) (by omega)
    rw [show n + 28 = 12 + 32 * r by omega, show n + 16 = 0 + 32 * r by omega]
    rwa [show n + 28 = 12 + 32 * r by omega] at this
  have hx : load64 (paddedKey n) (n + 12) = wyC1 := by
    have h := load8_paddedKey_end n
    unfold load64 load32
    rw [h 1, h 2, h 3, h 4, (h 0 : load8 (paddedKey n) (n + 12) = _),
      (h 5 : load8 (paddedKey n) (n + 12 + 4 + 1) = _),
      (h 6 : load8 (paddedKey n) (n + 12 + 4 + 2) = _),
      (h 7 : load8 (paddedKey n) (n + 12 + 4 + 3) = _)]
    decide
  refine wyhash64_of_fold ?_ 0
  unfold wyFold
  rw [length_paddedKey, if_neg (by omega), hblocks]
  simp [wyTail, hx]

/-- A key of `2^32 + 12` bytes that was never set finds the value of a key of twelve bytes. -/
theorem long_key_returns_foreign_value :
    let ops : List Op := [.set zeroHashKey [1] 0 calmEnv]
    let w := Machine.run step ⟨newCache none 2, 0⟩ ops
    vcCreate none 2 = some (newCache none 2) ∧ (∀ op ∈ ops, op.Plain) ∧
      (vcGet w.cache w.now (paddedKey (2 ^ 32 - 16))).1 = .ok (.payload 0 0 12, 1) ∧
      ∀ val, ¬ LastSet (Machine.trace step ⟨newCache none 2, 0⟩ ops) (paddedKey (2 ^ 32 - 16)) val := by
  intro ops w
  have hlen : (paddedKey (2 ^ 32 - 16)).length = 2 ^ 32 + 12 := by
    rw [length_paddedKey]
    omega
  have hhash : wyhash64 (paddedKey (2 ^ 32 - 16)) 0 = wyhash64 zeroHashKey 0 := by
    rw [wyhash64_paddedKey (r := 2 ^ 27) (by omega), wyhash64_of_fold (by decide)]
  have halias : vcGet w.cache w.now (paddedKey (2 ^ 32 - 16)) = vcGet w.cache w.now zeroHashKey := by
    refine vcGet_alias hhash ?_ ?_ _ _
    · rw [hlen]
      rfl
    · rw [hlen, paddedKey]
      exact List.take_left' rfl
  refine ⟨rfl, by simp [ops, Op.Plain, valMax, zeroHashKey], ?_, ?_⟩
  · rw [halias]
    decide +kernel
  · rintro val ⟨before, ttlSec, env, after, htr, _⟩
    have hmem : (Op.set (paddedKey (2 ^ 32 - 16)) val ttlSec env, Res.done (.ok ())) ∈
        Machine.trace step ⟨newCache none 2, 0⟩ ops := by
      rw [htr]
      simp
    simp only [ops, Machine.trace, List.mem_singleton, Prod.mk.injEq, Op.set.injEq] at hmem
    have := congrArg List.length hmem.1.1
    rw [hlen] at this
    simp [zeroHashKey] at this

end VoidCache
