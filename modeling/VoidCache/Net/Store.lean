import VoidCache.Cache.View
import VoidCache.Net.Host

/-!
# The calls of a command, by what the keys show

A call of the cache takes place at the time `Host.time`. These are the effects of `vc_get`,
`vc_set` and `vc_del` on the entries of each key, for keys that have no stale entries.
-/
namespace VoidCache

/-- The time of the next call. -/
def Host.time (h : Host) : Nat := h.world.now + (h.envs h.calls).elapsed

section Calls

variable {h : Host} {key key' val : List UInt8} {ttlSec : UInt32} {o : Option (List UInt8)}

/-! ## Get -/

/-- The answer to a lookup of a key that shows `o`. -/
def lookupResult : Option (List UInt8) → Except VcErr (List UInt8)
  | none => .error .notFnd
  | some val => .ok val

theorem getBytes_of_shows {c : Cache} {now : Nat} (hs : c.Shows now key o) (hv : c.Valid)
    (hk : key.length < 2 ^ 32) : getBytes c now key = lookupResult o := by
  unfold getBytes
  cases o with
  | none =>
    have hmiss := vcGet_of_shows_none hs hv hk
    generalize vcGet c now key = r at hmiss ⊢
    obtain ⟨res, c'⟩ := r
    subst hmiss
    rfl
  | some val =>
    obtain ⟨loc, len, hhit, -, hread⟩ := vcGet_of_shows_some hs hv hk
    generalize vcGet c now key = r at hhit hread ⊢
    obtain ⟨res, c'⟩ := r
    subst hhit
    show Except.ok ((c'.readLoc loc len).map Cell.toByte) = _
    rw [show c'.readLoc loc len = _ from hread, Cell.map_toByte_bytes]
    rfl

theorem Host.get_result (hs : h.world.cache.Shows h.time key o) (hv : h.world.cache.Valid)
    (hk : key.length < 2 ^ 32) : (h.get key).2 = lookupResult o :=
  getBytes_of_shows hs hv hk

theorem Host.get_touched (h : Host) (key : List UInt8) :
    Touched h.world.cache (h.get key).1.world.cache :=
  vcGet_touched h.world.cache h.time key

/-! ## Set -/

theorem Host.set_effect (hv : h.world.cache.Valid) :
    Effect h.world.cache h.time (.set key val ttlSec (h.envs h.calls).env)
      (.done (h.set key val ttlSec).2) (h.set key val ttlSec).1.world.cache :=
  step_effect (w := ⟨h.world.cache, h.time⟩) hv _

theorem Host.set_ok (hv : h.world.cache.Valid) (hok : (h.set key val ttlSec).2 = .ok ()) :
    Settable key val ∧ ∃ ev left rest, SetOk h.world.cache h.time key
      (newItem h.time key val ttlSec) (h.set key val ttlSec).1.world.cache ev left rest := by
  have he := @Host.set_effect h key val ttlSec hv
  rw [hok] at he
  cases he with
  | stored hset hs => exact ⟨hset, _, _, _, hs⟩

theorem Host.set_error {e : VcErr} (hv : h.world.cache.Valid)
    (herr : (h.set key val ttlSec).2 = .error e) :
    (h.set key val ttlSec).1.world.cache.items = h.world.cache.items := by
  have he := @Host.set_effect h key val ttlSec hv
  rw [herr] at he
  generalize (h.set key val ttlSec).1.world.cache = c' at he ⊢
  cases he with
  | oom _ _ hitems => exact hitems
  | invalid => rfl

/-- After a set of a key that has no expired entry, in a table with room for it, the new item is the
one entry of the key. -/
theorem Host.set_copies (hv : h.world.cache.Valid) (hok : (h.set key val ttlSec).2 = .ok ())
    (hs : h.world.cache.Shows h.time key o) (hroom : h.world.cache.HasRoom h.time key) :
    (h.set key val ttlSec).1.world.cache.copies key = {newItem h.time key val ttlSec} := by
  obtain ⟨hset, ev, left, rest, hstored⟩ := Host.set_ok hv hok
  have hleft := hstored.room hroom
  exact hstored.copies hs hv hset.2.1 rfl (by simp [hleft])

/-! ## Delete -/

theorem Host.del_effect (hv : h.world.cache.Valid) :
    Effect h.world.cache h.time (.del key (h.envs h.calls).env) (.done (h.del key).2)
      (h.del key).1.world.cache :=
  step_effect (w := ⟨h.world.cache, h.time⟩) hv _

end Calls

/-- A new cache with eight slots a shard. -/
def newHost : Host := quietHost (newCache none 8)

end VoidCache
