import VoidCache.Net.ConnHolds

/-!
# The workers and their pool

Every connection that is not free, every open descriptor and every buffer belongs to just one of the
workers (`Shares`), and each step of a worker keeps it so until a sweep closes a connection. Hence up
to then nothing is closed, freed or used after it was given back, and nothing gets lost
(`workers_share_pool`). A sweep looks at the connections of all workers, and closes them while their
own worker may do so as well (`sweep_closes_twice`).
-/
namespace VoidCache.ConnPool

/-! ## What the workers hold together -/

section Shares

variable {ι : Type} {gs : ι → Holds ι} {g : Holds ι} {σ σ' : PoolWorld ι} {w v : ι} {i : Nat}

/-- What a worker knows is so. -/
structure Holds.Knows (w : ι) (h : Holds ι) (σ : PoolWorld ι) : Prop where
  me : h.me = w
  conn : ∀ i k, h.conn i = some k → k.Fits (σ.conns i)
  lock : h.locked = true → σ.lock = some w
  saw : ∀ i, h.saw = some i → h.locked = true ∧ (σ.conns i).state = .free
  watched : ∀ fd i, (fd, i) ∈ σ.watched w → h.fds fd = some (.conn i)

/-- Every connection that is not free, every open descriptor and every buffer is held by just one of
the workers. -/
structure Shares (gs : ι → Holds ι) (σ : PoolWorld ι) : Prop where
  conns : Divided (fun w => (gs w).conn) fun i => (σ.conns i).state ≠ .free
  fds : Divided (fun w => (gs w).fds) (· ∈ σ.fds)
  bufs : Divided (fun w => (gs w).bufs) (· ∈ σ.bufs)
  knows : ∀ w, (gs w).Knows w σ

/-- It may write to the connection. -/
def Holds.Claims (h : Holds ι) (i : Nat) : Prop := h.conn i ≠ none ∨ h.saw = some i

/-- The connection that a call writes to. -/
def PoolReq.writes? : PoolReq ι → Option Nat
  | .storeState i _ => some i
  | .storeFd i _ => some i
  | .storeBuf _ i _ => some i
  | .storeActive i _ => some i
  | .serve i => some i
  | _ => none

theorem Holds.claims_of_writes {h : Holds ι} {a : PoolReq ι} (hallows : h.Allows a)
    (ha : a.writes? = some i) : h.Claims i := by
  have hown {j : Nat} (hj : (h.conn j).isSome) : h.Claims j := .inl (Option.isSome_iff_ne_none.mp hj)
  cases a with
  | storeState j st =>
    obtain rfl := Option.some.inj ha
    by_cases hst : st = .free
    · obtain ⟨hj, -⟩ := (if_pos hst).mp hallows
      exact hown hj
    · exact ((if_neg hst).mp hallows).imp_left Option.isSome_iff_ne_none.mp
  | storeFd j fd => exact Option.some.inj ha ▸ hown hallows.1
  | storeBuf side j b => exact Option.some.inj ha ▸ hown hallows.1
  | storeActive j t => exact Option.some.inj ha ▸ hown hallows
  | serve j =>
    obtain ⟨k, hk, -⟩ := hallows
    exact Option.some.inj ha ▸ hown (by simp [hk])
  | _ => cases ha

namespace Shares

theorem ne_free (hJ : Shares gs σ) (hown : (gs w).conn i ≠ none) : (σ.conns i).state ≠ .free :=
  hJ.conns.live_of (i := w) hown

theorem fds_live (hJ : Shares gs σ) {fd : Nat} (hown : (gs w).fds fd ≠ none) : fd ∈ σ.fds :=
  hJ.fds.live_of (i := w) hown

theorem bufs_live (hJ : Shares gs σ) {b : Nat} (hown : (gs w).bufs b ≠ none) : b ∈ σ.bufs :=
  hJ.bufs.live_of (i := w) hown

theorem fds_eq_none (hJ : Shares gs σ) {fd : Nat} (hown : (gs w).fds fd ≠ none) (hv : v ≠ w) :
    (gs v).fds fd = none :=
  hJ.fds.eq_none (i := w) hown hv

theorem bufs_eq_none (hJ : Shares gs σ) {b : Nat} (hown : (gs w).bufs b ≠ none) (hv : v ≠ w) :
    (gs v).bufs b = none :=
  hJ.bufs.eq_none (i := w) hown hv

theorem claims_one (hJ : Shares gs σ) (hw : (gs w).Claims i) (hv : (gs v).Claims i) : w = v := by
  rcases hw with hown | hsaw <;> rcases hv with hown' | hsaw'
  · exact hJ.conns.one w v i hown hown'
  · exact absurd ((hJ.knows v).saw i hsaw').2 (hJ.ne_free hown)
  · exact absurd ((hJ.knows w).saw i hsaw).2 (hJ.ne_free hown')
  · have hlock := (hJ.knows w).lock ((hJ.knows w).saw i hsaw).1
    rw [(hJ.knows v).lock ((hJ.knows v).saw i hsaw').1] at hlock
    exact (Option.some.inj hlock).symm

theorem isSome_of_watched (hJ : Shares gs σ) (hsettled : (gs w).Settled)
    (hi : i ∈ (σ.watched w).map Prod.snd) : ((gs w).conn i).isSome := by
  obtain ⟨⟨f, _⟩, hf, rfl⟩ := List.mem_map.mp hi
  obtain ⟨_, k, heq, hk, -⟩ := hsettled.fds f _ ((hJ.knows w).watched f _ hf)
  cases heq
  simp [hk]

/-- A step that changes nothing of what the workers hold. -/
theorem congr (hJ : Shares gs σ)
    (hconns : ∀ i, ((σ'.conns i).state = .free ↔ (σ.conns i).state = .free) ∧
      (σ'.conns i).fd = (σ.conns i).fd ∧ (σ'.conns i).buf = (σ.conns i).buf)
    (hfds : σ'.fds = σ.fds) (hbufs : σ'.bufs = σ.bufs) (hlock : σ'.lock = σ.lock)
    (hwatched : ∀ w fd i, (fd, i) ∈ σ'.watched w → (gs w).fds fd = some (.conn i)) : Shares gs σ' := by
  refine ⟨?_, hfds ▸ hJ.fds, hbufs ▸ hJ.bufs, fun w => ?_⟩
  · simpa only [ne_eq, (hconns _).1] using hJ.conns
  · obtain ⟨hme, hknown, hlocked, hsaw, -⟩ := hJ.knows w
    refine ⟨hme, fun i k hk => ?_, hlock ▸ hlocked, fun i hi => ?_, hwatched w⟩
    · obtain ⟨hfd, hbuf⟩ := hknown i k hk
      exact ⟨(hconns i).2.1 ▸ hfd, (hconns i).2.2 ▸ hbuf⟩
    · exact ⟨(hsaw i hi).1, (hconns i).1.mpr (hsaw i hi).2⟩

theorem tick (hJ : Shares gs σ) : Shares gs σ.tick :=
  hJ.congr (fun _ => ⟨.rfl, rfl, rfl⟩) rfl rfl rfl fun v => (hJ.knows v).watched

/-- A store that changes neither whether the connection is free nor what is in it. -/
theorem touched (hJ : Shares gs σ) {f : PoolConn → PoolConn}
    (hstate : (f (σ.conns i)).state = .free ↔ (σ.conns i).state = .free)
    (hfd : (f (σ.conns i)).fd = (σ.conns i).fd) (hbuf : (f (σ.conns i)).buf = (σ.conns i).buf) :
    Shares gs (σ.setConn i f) := by
  refine hJ.congr (fun j => ?_) rfl rfl rfl fun v => (hJ.knows v).watched
  by_cases hj : j = i
  · subst hj
    simpa [PoolWorld.setConn] using ⟨hstate, hfd, hbuf⟩
  · simp [PoolWorld.setConn, hj]

section Update

variable [DecidableEq ι]

/-- What one worker holds changes. -/
theorem update (hJ : Shares gs σ)
    (hconns : Divided (Function.update (fun v => (gs v).conn) w g.conn)
      fun i => (σ'.conns i).state ≠ .free)
    (hfds : Divided (Function.update (fun v => (gs v).fds) w g.fds) (· ∈ σ'.fds))
    (hbufs : Divided (Function.update (fun v => (gs v).bufs) w g.bufs) (· ∈ σ'.bufs))
    (hself : g.Knows w σ') (hothers : ∀ v, v ≠ w → (gs v).Knows v σ → (gs v).Knows v σ') :
    Shares (Function.update gs w g) σ' := by
  have hproj {X : Type} (f : Holds ι → X) :
      (fun v => f (Function.update gs w g v)) = Function.update (fun v => f (gs v)) w (f g) :=
    Function.comp_update f gs w g
  refine ⟨?_, ?_, ?_, ?_⟩
  · rwa [hproj Holds.conn]
  · rwa [hproj Holds.fds]
  · rwa [hproj Holds.bufs]
  · exact (Function.forall_update_iff gs fun v h => h.Knows v σ').mpr
      ⟨hself, fun v hv => hothers v hv (hJ.knows v)⟩

theorem setLocked (hJ : Shares gs σ) {b : Bool} {lock : Option ι}
    (hothers : ∀ v, v ≠ w → (gs v).locked = false) (hlock : b = true → lock = some w) :
    Shares (Function.update gs w ((gs w).setLocked b)) { σ with lock } := by
  refine hJ.update (hJ.conns.same w) (hJ.fds.same w) (hJ.bufs.same w) ?_ fun v hv hknows => ?_
  · obtain ⟨hme, hconn, -, -, hwatched⟩ := hJ.knows w
    exact ⟨hme, hconn, hlock, by simp, hwatched⟩
  · obtain ⟨hme, hconn, -, hsaw, hwatched⟩ := hknows
    exact ⟨hme, hconn, by simp [hothers v hv], hsaw, hwatched⟩

theorem see (hJ : Shares gs σ) (hlocked : (gs w).locked = true) (hfree : (σ.conns i).state = .free) :
    Shares (Function.update gs w ((gs w).see i)) σ := by
  refine hJ.update (hJ.conns.same w) (hJ.fds.same w) (hJ.bufs.same w) ?_ fun _ _ hknows => hknows
  obtain ⟨hme, hconn, hlock, -, hwatched⟩ := hJ.knows w
  refine ⟨hme, hconn, hlock, ?_, hwatched⟩
  rintro _ ⟨⟩
  exact ⟨hlocked, hfree⟩

/-- A store to a connection, by a worker that may write to it. -/
theorem putConn (hJ : Shares gs σ) (hclaims : (gs w).Claims i) {k : Option KnownConn} {c : PoolConn}
    (hlive : c.state ≠ .free ↔ k ≠ none) (hfits : ∀ k', k = some k' → k'.Fits c) :
    Shares (Function.update gs w ((gs w).putConn i k))
      { σ with conns := Function.update σ.conns i c } := by
  have hnone (v : ι) (hv : v ≠ w) : (gs v).conn i = none := by
    by_contra hown
    exact hv (hJ.claims_one (.inl hown) hclaims)
  refine hJ.update (hJ.conns.set hnone fun j => ?_) (hJ.fds.same w) (hJ.bufs.same w) ?_
    fun v hv hknows => ?_
  · by_cases hj : j = i
    · simpa [hj] using hlive
    · simp [hj]
  · obtain ⟨hme, hconn, hlock, -, hwatched⟩ := hJ.knows w
    refine ⟨hme, fun j k' hk' => ?_, hlock, by simp, hwatched⟩
    by_cases hj : j = i
    · subst hj
      simp only [Holds.putConn_conn, Function.update_self] at hk' ⊢
      exact hfits k' hk'
    · simp only [Holds.putConn_conn, Function.update_of_ne hj] at hk' ⊢
      exact hconn j k' hk'
  · obtain ⟨hme, hconn, hlock, hsaw, hwatched⟩ := hknows
    refine ⟨hme, fun j k' hk' => ?_, hlock, fun j hj => ?_, hwatched⟩
    · have hji : j ≠ i := by
        rintro rfl
        simp [hnone v hv] at hk'
      simpa [hji] using hconn j k' hk'
    · have hji : j ≠ i := by
        rintro rfl
        exact hv (hJ.claims_one (.inr hj) hclaims)
      simpa [hji] using hsaw j hj

theorem putFd (hJ : Shares gs σ) {fd : Nat} (hnone : ∀ v, v ≠ w → (gs v).fds fd = none)
    {p : Option FdPlace} (fds : Finset Nat) (watched : ι → List (Nat × Nat))
    (hfds : ∀ f, f ∈ fds ↔ if f = fd then p ≠ none else f ∈ σ.fds)
    (hwatched : ∀ v f i, (f, i) ∈ watched v → f ≠ fd ∧ (f, i) ∈ σ.watched v) :
    Shares (Function.update gs w ((gs w).putFd fd p)) { σ with fds, watched } := by
  refine hJ.update (hJ.conns.same w) (hJ.fds.set hnone hfds) (hJ.bufs.same w) ?_ fun v hv hknows => ?_
  · obtain ⟨hme, hconn, hlock, hsaw, hwatch⟩ := hJ.knows w
    refine ⟨hme, hconn, hlock, hsaw, fun f j hf => ?_⟩
    obtain ⟨hne, hf⟩ := hwatched w f j hf
    simpa [hne] using hwatch f j hf
  · obtain ⟨hme, hconn, hlock, hsaw, hwatch⟩ := hknows
    exact ⟨hme, hconn, hlock, hsaw, fun f j hf => hwatch f j (hwatched v f j hf).2⟩

theorem putBuf (hJ : Shares gs σ) {b : Nat} (hnone : ∀ v, v ≠ w → (gs v).bufs b = none)
    {p : Option BufPlace} (bufs : Finset Nat)
    (hbufs : ∀ f, f ∈ bufs ↔ if f = b then p ≠ none else f ∈ σ.bufs) :
    Shares (Function.update gs w ((gs w).putBuf b p)) { σ with bufs } := by
  refine hJ.update (hJ.conns.same w) (hJ.fds.same w) (hJ.bufs.set hnone hbufs) ?_ fun v _ hknows => ?_
  · obtain ⟨hme, hconn, hlock, hsaw, hwatch⟩ := hJ.knows w
    exact ⟨hme, hconn, hlock, hsaw, hwatch⟩
  · obtain ⟨hme, hconn, hlock, hsaw, hwatch⟩ := hknows
    exact ⟨hme, hconn, hlock, hsaw, hwatch⟩

theorem storedState (hJ : Shares gs σ) {st : ConnState} (hallows : (gs w).Allows (.storeState i st)) :
    Shares (Function.update gs w ((gs w).storedState i st))
      (σ.setConn i fun c => { c with state := st }) := by
  refine hJ.putConn (Holds.claims_of_writes hallows rfl) ?_ fun k hk => ?_
  · by_cases hst : st = .free <;> simp [hst]
  · split_ifs at hk with hst
    obtain rfl := Option.some.inj hk
    cases hown : (gs w).conn i with
    | none => exact KnownConn.unknown_fits _
    | some k =>
      obtain ⟨hfd, hbuf⟩ := (hJ.knows w).conn i k hown
      exact ⟨hfd, hbuf⟩

/-- A store to a connection by the worker that has it, which then knows what is in there. -/
theorem stored (hJ : Shares gs σ) (hown : ((gs w).conn i).isSome) {f : KnownConn → KnownConn}
    {c : PoolConn → PoolConn} (hstate : (c (σ.conns i)).state = (σ.conns i).state)
    (hfits : ∀ k : KnownConn, k.Fits (σ.conns i) → (f k).Fits (c (σ.conns i))) :
    Shares (Function.update gs w ((gs w).putConn i (((gs w).conn i).map f))) (σ.setConn i c) := by
  have hne := Option.isSome_iff_ne_none.mp hown
  refine hJ.putConn (.inl hne) ?_ fun k hk => ?_
  · exact iff_of_true (hstate ▸ hJ.ne_free hne) (by simpa [Option.isSome_iff_ne_none] using hown)
  · obtain ⟨k₀, hk₀, rfl⟩ := Option.map_eq_some_iff.mp hk
    exact hfits k₀ ((hJ.knows w).conn i k₀ hk₀)

theorem storedFd (hJ : Shares gs σ) {fd : Int} (hallows : (gs w).Allows (.storeFd i fd)) :
    Shares (Function.update gs w ((gs w).storedFd i fd)) (σ.setConn i fun c => { c with fd := fd }) := by
  obtain ⟨hown, hhand⟩ := hallows
  have hconn := hJ.stored (f := fun k => { k with fd := some fd })
    (c := fun c => { c with fd := fd }) hown rfl fun k hk => ⟨fun _ h => Option.some.inj h, hk.buf⟩
  unfold Holds.storedFd
  by_cases hfd : 0 ≤ fd
  · obtain ⟨f, rfl⟩ := Int.eq_ofNat_of_zero_le hfd
    have hf : (gs w).fds f = some .hand := hhand f rfl
    have hlive : f ∈ σ.fds := hJ.fds_live (w := w) (by simp [hf])
    have hput := hconn.putFd (w := w) (p := some (.conn i)) (fun v hv => ?_) σ.fds σ.watched
      (fun y => (?_ : y ∈ σ.fds ↔ if y = f then _ else _)) (fun v y j hy => (?_ : y ≠ f ∧ _))
    · rw [Function.update_self, Function.update_idem] at hput
      rw [if_pos hfd]
      exact hput
    · rw [Function.update_of_ne hv]
      exact hJ.fds_eq_none (by simp [hf]) hv
    · by_cases hy : y = f
      · simp [hy, hlive]
      · rw [if_neg hy]
        rfl
    · refine ⟨?_, hy⟩
      rintro rfl
      have hwatched := (hJ.knows v).watched y j hy
      by_cases hv : v = w
      · simp [hv, hf] at hwatched
      · rw [hJ.fds_eq_none (by simp [hf]) hv] at hwatched
        cases hwatched
  · simpa [hfd] using hconn

theorem storedBuf (hJ : Shares gs σ) {side : Side} {b : Option Nat}
    (hallows : (gs w).Allows (.storeBuf side i b)) :
    Shares (Function.update gs w ((gs w).storedBuf side i b))
      (σ.setConn i fun c => { c with buf := Function.update c.buf side b }) := by
  obtain ⟨hown, hhand⟩ := hallows
  have hconn := hJ.stored (f := fun k => { k with buf := Function.update k.buf side (some b) })
    (c := fun c => { c with buf := Function.update c.buf side b }) hown rfl
    fun k hk => ⟨hk.fd, fun side' b' h => ?_⟩
  · cases b with
    | none => exact hconn
    | some p =>
      have hp : (gs w).bufs p = some .hand := hhand p rfl
      have hlive : p ∈ σ.bufs := hJ.bufs_live (w := w) (by simp [hp])
      have hput := hconn.putBuf (w := w) (p := some (.conn side i)) (fun v hv => ?_) σ.bufs
        (fun y => (?_ : y ∈ σ.bufs ↔ if y = p then _ else _))
      · rw [Function.update_self, Function.update_idem] at hput
        exact hput
      · rw [Function.update_of_ne hv]
        exact hJ.bufs_eq_none (by simp [hp]) hv
      · by_cases hy : y = p
        · simp [hy, hlive]
        · rw [if_neg hy]
          rfl
  · by_cases hside : side' = side
    · subst hside
      simpa using h
    · simp only [ne_eq, hside, not_false_eq_true, Function.update_of_ne] at h ⊢
      exact hk.buf side' b' h

theorem loadedState (hJ : Shares gs σ) (w : ι) (i : Nat) :
    ∃ g, (gs w).loadedState i (σ.conns i).state = some g ∧ Shares (Function.update gs w g) σ := by
  by_cases hst : (σ.conns i).state = .free
  · have hnone : (gs w).conn i = none := by
      by_contra hown
      exact hJ.ne_free hown hst
    refine ⟨if (gs w).locked then (gs w).see i else gs w, by simp [Holds.loadedState, hst, hnone], ?_⟩
    by_cases hlocked : (gs w).locked = true
    · rw [if_pos hlocked]
      exact hJ.see hlocked hst
    · rwa [if_neg hlocked, Function.update_eq_self]
  · exact ⟨gs w, if_neg hst, by rwa [Function.update_eq_self]⟩

/-- A new descriptor is in the hands of the worker that has accepted it. -/
theorem accepted (hJ : Shares gs σ) {fd : Nat} (hnew : fd ∉ σ.fds) :
    (gs w).gotFd fd = some ((gs w).putFd fd (some .hand)) ∧
      Shares (Function.update gs w ((gs w).putFd fd (some .hand))) { σ with fds := insert fd σ.fds } := by
  have hnone (v : ι) : (gs v).fds fd = none := hJ.fds.eq_none_of_not_live hnew
  refine ⟨by simp [Holds.gotFd, hnone], hJ.putFd (fun v _ => hnone v) _ σ.watched (fun y => ?_)
    fun v y j hy => ⟨?_, hy⟩⟩
  · by_cases hy : y = fd <;> simp [hy]
  · rintro rfl
    have hwatched := (hJ.knows v).watched y j hy
    simp [hnone] at hwatched

theorem epollAdded (hJ : Shares gs σ) {fd : Nat} (hfd : (gs w).fds fd = some (.conn i)) :
    Shares gs { σ with watched := Function.update σ.watched w ((fd, i) :: σ.watched w) } := by
  refine hJ.congr (fun _ => ⟨.rfl, rfl, rfl⟩) rfl rfl rfl fun v y l hy => ?_
  by_cases hv : v = w
  · subst hv
    simp only [Function.update_self, List.mem_cons, Prod.mk.injEq] at hy
    rcases hy with ⟨rfl, rfl⟩ | hy
    · exact hfd
    · exact (hJ.knows v).watched y l hy
  · exact (hJ.knows v).watched y l (by simpa [hv] using hy)

theorem epollDeleted (hJ : Shares gs σ) (w : ι) (fd : Nat) :
    Shares gs { σ with watched := Function.update σ.watched w ((σ.watched w).filter fun p => p.1 ≠ fd) } := by
  refine hJ.congr (fun _ => ⟨.rfl, rfl, rfl⟩) rfl rfl rfl fun v y l hy => (hJ.knows v).watched y l ?_
  by_cases hv : v = w
  · subst hv
    simp only [Function.update_self, List.mem_filter] at hy
    exact hy.1
  · simpa [hv] using hy

theorem exec (hJ : Shares gs σ) {a : PoolReq ι} (hallows : (gs w).Allows a) (hkernel : σ.Kernel a)
    (hactive : σ.Active a) :
    ∃ g, (gs w).after a (poolExec σ a).2 = some g ∧ Shares (Function.update gs w g) (poolExec σ a).1 := by
  have hstay (hJ' : Shares gs (poolExec σ a).1) :
      Shares (Function.update gs w (gs w)) (poolExec σ a).1 := by
    rwa [Function.update_eq_self]
  have hme := (hJ.knows w).me
  cases a with
  | lock u =>
    obtain ⟨rfl, -⟩ := hallows
    refine ⟨_, rfl, hJ.setLocked (fun v _ => ?_) fun _ => by rw [hme]⟩
    by_contra hlocked
    have hlock := (hJ.knows v).lock (by simpa using hlocked)
    simp [show σ.lock = none from hkernel] at hlock
  | unlock u =>
    obtain ⟨rfl, hlocked⟩ := hallows
    refine ⟨_, rfl, hJ.setLocked (fun v hv => ?_) (by simp)⟩
    by_contra hlocked'
    have hlock := (hJ.knows v).lock (by simpa using hlocked')
    rw [(hJ.knows w).lock hlocked] at hlock
    exact hv (Option.some.inj hlock).symm
  | loadState j => exact hJ.loadedState w j
  | storeState j st => exact ⟨_, rfl, hJ.storedState hallows⟩
  | loadFd j =>
    refine ⟨gs w, if_pos ?_, hstay hJ⟩
    simp only [Option.all_eq_true, decide_eq_true_eq]
    exact fun k hk fd hfd => (((hJ.knows w).conn j k hk).fd fd hfd).symm
  | storeFd j fd => exact ⟨_, rfl, hJ.storedFd hallows⟩
  | loadBuf side j =>
    refine ⟨gs w, if_pos ?_, hstay hJ⟩
    simp only [Option.all_eq_true, decide_eq_true_eq]
    exact fun k hk b hb => (((hJ.knows w).conn j k hk).buf side b hb).symm
  | storeBuf side j b => exact ⟨_, rfl, hJ.storedBuf hallows⟩
  | idleAt now j =>
    have hearly : ¬ connTimeoutNs < now - (σ.conns j).lastActive := not_lt.mpr hactive
    exact ⟨gs w, if_neg (by simpa [poolExec] using hearly), hstay hJ⟩
  | storeActive j t =>
    exact ⟨gs w, rfl, hstay (hJ.touched (i := j) (f := fun c => { c with lastActive := t }) .rfl rfl rfl)⟩
  | bufNew =>
    have hnew : σ.now.address ∉ σ.bufs := hkernel
    have hnone (v : ι) : (gs v).bufs σ.now.address = none := hJ.bufs.eq_none_of_not_live hnew
    refine ⟨_, if_neg (by simpa [poolExec] using hnone w), ?_⟩
    refine hJ.tick.putBuf (fun v _ => hnone v) _ fun y => ?_
    by_cases hy : y = σ.now.address <;> simp [hy, PoolWorld.tick]
  | bufFree b =>
    obtain ⟨p, rfl, hp⟩ := hallows
    refine ⟨_, rfl, hJ.putBuf (fun v => hJ.bufs_eq_none hp) _ fun y => ?_⟩
    by_cases hy : y = p <;> simp [hy]
  | accept =>
    dsimp only [poolExec]
    cases haccepts : σ.now.accepts with
    | none => exact ⟨gs w, rfl, by rw [Function.update_eq_self]; exact hJ.tick⟩
    | some fd => exact ⟨_, hJ.tick.accepted (hkernel fd haccepts)⟩
  | close fd =>
    obtain ⟨f, rfl, hf⟩ := hallows
    refine ⟨_, rfl, hJ.putFd (fun v => hJ.fds_eq_none hf) _ _ (fun y => ?_) fun v y j hy => ?_⟩
    · by_cases hy : y = f <;> simp [hy]
    · simpa [and_comm] using hy
  | epollAdd u fd j =>
    obtain ⟨hu, f, rfl, hf⟩ := hallows
    obtain rfl : u = w := hu.trans hme
    exact ⟨gs u, rfl, hstay (hJ.epollAdded hf)⟩
  | epollDel u fd => exact ⟨gs w, rfl, hstay (hJ.epollDeleted u fd.toNat)⟩
  | epollWait u =>
    obtain ⟨rfl, hsettled⟩ := hallows
    obtain ⟨hnodup, hwatched⟩ := hkernel
    refine ⟨gs w, if_pos ⟨hnodup, fun l hl => ?_⟩, hstay hJ.tick⟩
    rw [hme] at hwatched
    exact hJ.isSome_of_watched hsettled (hwatched l hl)
  | monoNs =>
    exact ⟨gs w, rfl, hstay hJ.tick⟩
  | serve j =>
    obtain ⟨k, hk, -⟩ := hallows
    have hst : (σ.conns j).state ≠ .free := hJ.ne_free (w := w) (by simp [hk])
    exact ⟨gs w, rfl, hstay (hJ.tick.touched (i := j)
      (f := fun c => { c with state := σ.now.state, lastActive := σ.now.time })
      (iff_of_false σ.now.state_ne hst) rfl rfl)⟩

end Update

end Shares

/-! ## The workers together -/

/-- The connection has an open descriptor and both buffers. -/
def PoolWorld.SetUp (σ : PoolWorld ι) (i : Nat) : Prop :=
  (σ.conns i).state ≠ .free ∧ (∃ fd ∈ σ.fds, (σ.conns i).fd = fd) ∧
    ∀ side, ∃ b ∈ σ.bufs, (σ.conns i).buf side = some b

/-- What is closed is open, what is freed has not been freed, and what is used is set up. -/
def PoolWorld.InOrder (σ : PoolWorld ι) : PoolReq ι → Prop
  | .unlock w => σ.lock = some w
  | .storeState i st => st = .free → (σ.conns i).state ≠ .free
  | .storeFd i _ => (σ.conns i).state ≠ .free
  | .loadBuf _ i => (σ.conns i).state ≠ .free
  | .storeBuf _ i _ => (σ.conns i).state ≠ .free
  | .storeActive i _ => (σ.conns i).state ≠ .free
  | .bufFree b => ∃ p ∈ σ.bufs, b = some p
  | .close fd => ∃ f ∈ σ.fds, fd = (f : Int)
  | .epollAdd _ fd _ => ∃ f ∈ σ.fds, fd = (f : Int)
  | .serve i => σ.SetUp i
  | _ => True

/-- The open descriptors and the buffers are those of the connections that are not free, each of
one connection. -/
structure PoolWorld.Tidy (σ : PoolWorld ι) : Prop where
  fds : ∀ f : Nat, f ∈ σ.fds ↔ ∃ i, (σ.conns i).state ≠ .free ∧ (σ.conns i).fd = f
  bufs : ∀ b, b ∈ σ.bufs ↔ ∃ i side, (σ.conns i).state ≠ .free ∧ (σ.conns i).buf side = some b
  fd_inj : ∀ i j, (σ.conns i).state ≠ .free → (σ.conns j).state ≠ .free →
    (σ.conns i).fd = (σ.conns j).fd → i = j
  buf_inj : ∀ i j side side', (σ.conns i).state ≠ .free → (σ.conns j).state ≠ .free →
    (σ.conns i).buf side = (σ.conns j).buf side' → i = j ∧ side = side'

/-- The server has just been created. -/
structure PoolWorld.Fresh (σ : PoolWorld ι) : Prop where
  conns : ∀ i, (σ.conns i).state = .free
  lock : σ.lock = none
  fds : σ.fds = ∅
  bufs : σ.bufs = ∅
  watched : ∀ w, σ.watched w = []

namespace Shares

theorem fresh (hσ : σ.Fresh) : Shares Holds.nothing σ where
  conns := Divided.nothing fun i => by simp [hσ.conns i]
  fds := Divided.nothing fun f => by simp [hσ.fds]
  bufs := Divided.nothing fun b => by simp [hσ.bufs]
  knows w := ⟨rfl, by simp [Holds.nothing], by simp [Holds.nothing], by simp [Holds.nothing],
    by simp [hσ.watched w]⟩

theorem ready_fd (hJ : Shares gs σ) (hready : (gs w).Ready i) :
    ∃ fd : Nat, (σ.conns i).fd = fd ∧ (gs w).fds fd = some (.conn i) := by
  obtain ⟨k, hk, ⟨fd, hkfd, hfd⟩, -⟩ := hready
  exact ⟨fd, ((hJ.knows w).conn i k hk).fd _ hkfd, hfd⟩

theorem ready_buf (hJ : Shares gs σ) (hready : (gs w).Ready i) (side : Side) :
    ∃ b, (σ.conns i).buf side = some b ∧ (gs w).bufs b = some (.conn side i) := by
  obtain ⟨k, hk, -, hbufs⟩ := hready
  obtain ⟨b, hkb, hb⟩ := hbufs side
  exact ⟨b, ((hJ.knows w).conn i k hk).buf side _ hkb, hb⟩

theorem setUp (hJ : Shares gs σ) (hready : (gs w).Ready i) : σ.SetUp i := by
  obtain ⟨fd, hfd, hown⟩ := hJ.ready_fd hready
  refine ⟨?_, ⟨fd, hJ.fds_live (w := w) (by simp [hown]), hfd⟩, fun side => ?_⟩
  · obtain ⟨k, hk, -⟩ := hready
    exact hJ.ne_free (w := w) (by simp [hk])
  · obtain ⟨b, hb, hown⟩ := hJ.ready_buf hready side
    exact ⟨b, hJ.bufs_live (w := w) (by simp [hown]), hb⟩

theorem inOrder (hJ : Shares gs σ) {a : PoolReq ι} (hallows : (gs w).Allows a) : σ.InOrder a := by
  have hne {j : Nat} (hown : ((gs w).conn j).isSome) : (σ.conns j).state ≠ .free :=
    hJ.ne_free (Option.isSome_iff_ne_none.mp hown)
  cases a with
  | unlock u =>
    obtain ⟨rfl, hlocked⟩ := hallows
    rw [(hJ.knows w).me]
    exact (hJ.knows w).lock hlocked
  | storeState j st =>
    intro hst
    obtain ⟨hown, -⟩ := (if_pos hst).mp hallows
    exact hne hown
  | storeFd j fd => exact hne hallows.1
  | loadBuf side j => exact hne hallows
  | storeBuf side j b => exact hne hallows.1
  | storeActive j t => exact hne hallows
  | bufFree b =>
    obtain ⟨p, rfl, hp⟩ := hallows
    exact ⟨p, hJ.bufs_live hp, rfl⟩
  | close fd =>
    obtain ⟨f, rfl, hf⟩ := hallows
    exact ⟨f, hJ.fds_live hf, rfl⟩
  | epollAdd u fd j =>
    obtain ⟨-, f, rfl, hf⟩ := hallows
    exact ⟨f, hJ.fds_live (w := w) (by simp [hf]), rfl⟩
  | serve j => exact hJ.setUp hallows
  | _ => trivial

theorem tidy (hJ : Shares gs σ) (hsettled : ∀ w, (gs w).Settled) : σ.Tidy := by
  have hready {j : Nat} (hj : (σ.conns j).state ≠ .free) : ∃ w, (gs w).Ready j := by
    obtain ⟨w, hown⟩ := (hJ.conns.live_iff j).mp hj
    exact ⟨w, (hsettled w).ready j (Option.isSome_iff_ne_none.mpr hown)⟩
  refine ⟨fun f => ⟨fun hf => ?_, ?_⟩, fun b => ⟨fun hb => ?_, ?_⟩, fun i j hi hj heq => ?_,
    fun i j side side' hi hj heq => ?_⟩
  · obtain ⟨w, hown⟩ := (hJ.fds.live_iff f).mp hf
    obtain ⟨p, hp⟩ := Option.ne_none_iff_exists'.mp hown
    obtain ⟨j, k, -, hk, hkf⟩ := (hsettled w).fds f p hp
    exact ⟨j, hJ.ne_free (w := w) (by simp [hk]), ((hJ.knows w).conn j k hk).fd _ hkf⟩
  · rintro ⟨j, hj, hfd⟩
    obtain ⟨w, hr⟩ := hready hj
    obtain ⟨fd, hfd', hown⟩ := hJ.ready_fd hr
    obtain rfl : fd = f := by exact_mod_cast hfd'.symm.trans hfd
    exact hJ.fds_live (w := w) (by simp [hown])
  · obtain ⟨w, hown⟩ := (hJ.bufs.live_iff b).mp hb
    obtain ⟨p, hp⟩ := Option.ne_none_iff_exists'.mp hown
    obtain ⟨side, j, k, -, hk, hkb⟩ := (hsettled w).bufs b p hp
    exact ⟨j, side, hJ.ne_free (w := w) (by simp [hk]), ((hJ.knows w).conn j k hk).buf side _ hkb⟩
  · rintro ⟨j, side, hj, hbuf⟩
    obtain ⟨w, hr⟩ := hready hj
    obtain ⟨b', hb', hown⟩ := hJ.ready_buf hr side
    obtain rfl : b' = b := Option.some.inj (hb'.symm.trans hbuf)
    exact hJ.bufs_live (w := w) (by simp [hown])
  · obtain ⟨w, hr⟩ := hready hi
    obtain ⟨v, hr'⟩ := hready hj
    obtain ⟨fd, hfd, hown⟩ := hJ.ready_fd hr
    obtain ⟨fd', hfd', hown'⟩ := hJ.ready_fd hr'
    obtain rfl : fd = fd' := by exact_mod_cast hfd.symm.trans (heq.trans hfd')
    obtain rfl : w = v := hJ.fds.one w v fd (by simp [hown]) (by simp [hown'])
    simpa [hown] using hown'
  · obtain ⟨w, hr⟩ := hready hi
    obtain ⟨v, hr'⟩ := hready hj
    obtain ⟨b, hb, hown⟩ := hJ.ready_buf hr side
    obtain ⟨b', hb', hown'⟩ := hJ.ready_buf hr' side'
    obtain rfl : b = b' := Option.some.inj (hb.symm.trans (heq.trans hb'))
    obtain rfl : w = v := hJ.bufs.one w v b (by simp [hown]) (by simp [hown'])
    simpa [hown, and_comm] using hown'

end Shares

/-- The worker waits for events, or has ended. -/
def Waits (w : ι) (p : PoolProg ι Unit) : Prop := ∀ a ∈ p.next?, a = .epollWait w

theorem settled_of_waits {h : Holds ι} {p : PoolProg ι Unit}
    (hp : p.Honours poolContract (fun _ h' => h'.Settled) h) (hwaits : Waits w p) : h.Settled := by
  cases p with
  | ret r => exact hp.returned
  | call a next =>
    obtain rfl := hwaits a rfl
    exact (hp.allows rfl).2

variable [DecidableEq ι]

/-- The workers of a server that has just been created. -/
def workers (maxConns : Nat) (tls : Bool) (fuel turns : Nat) (σ : PoolWorld ι) :
    Pool (@PoolReq.Resp ι) Unit ι (PoolWorld ι) :=
  .start σ fun w => workerThread maxConns tls w fuel turns 0

/-- The workers take their steps in any order, and no sweep has found a connection idle yet. No call is
out of order, no two workers write to one connection at a time, and when all of them wait, nothing
has been lost. -/
theorem workers_share_pool {σ : PoolWorld ι} (hσ : σ.Fresh) (maxConns : Nat) (tls : Bool)
    (fuel turns : Nat) {sched : List ι}
    (h : Machine.Along (poolStep poolExec)
      (fun p w => ∀ a ∈ (p.prog w).next?, p.state.Kernel a ∧ p.state.Active a)
      (workers maxConns tls fuel turns σ) sched) :
    let p := Machine.run (poolStep poolExec) (workers maxConns tls fuel turns σ) sched
    (∀ w, ∀ a ∈ (p.prog w).next?, p.state.InOrder a) ∧
    (∀ w v, ∀ a ∈ (p.prog w).next?, ∀ b ∈ (p.prog v).next?, ∀ i ∈ a.writes?, i ∈ b.writes? → w = v) ∧
    ((∀ w, Waits w (p.prog w)) → p.state.Tidy) := by
  intro p
  have hworker (w : ι) : (workerThread maxConns tls w fuel turns 0).Honours poolContract
      (fun _ h' => h'.Settled) (Holds.nothing w) :=
    (workerThread_honours (Holds.nothing_rests w) maxConns tls fuel turns 0).weaken fun _ _ hr => hr.settled
  obtain ⟨gs, hJ, hall⟩ := pool_honours (C := fun σ a => σ.Kernel a ∧ σ.Active a)
    (fun _ _ _ _ hJ hallows hC => hJ.exec hallows hC.1 hC.2) hworker (Shares.fresh hσ) h
  refine ⟨fun w a ha => hJ.inOrder ((hall w).allows ha), fun w v a ha b hb i hi hi' => ?_,
    fun hwaits => hJ.tidy fun w => settled_of_waits (hall w) (hwaits w)⟩
  exact hJ.claims_one (Holds.claims_of_writes ((hall w).allows ha) hi)
    (Holds.claims_of_writes ((hall v).allows hb) hi')

end Shares

section Example

/-- Both workers accept a client. Then the client of the first one hangs up. -/
def hangUpEnv (n : Nat) : PoolEnv where
  accepts := if n = 2 then some 7 else if n = 3 then some 8 else none
  address := n
  events := if n < 2 then [.listen] else if n = 8 then [.conn 0 true] else []
  time := 0
  closes := false
  state := .connected
  state_ne := by decide

def hangUpStart : PoolWorld Bool :=
  ⟨fun _ => ⟨.free, -1, fun _ => none, 0⟩, none, ∅, ∅, fun _ => [], hangUpEnv, 0⟩

/-- The first worker gives its connection back while the second one looks for a free one. Later it
sweeps. -/
def hangUpSched : List Bool :=
  [false, true, false, true] ++ List.replicate 14 false ++ [true, true] ++ List.replicate 14 false ++
    List.replicate 12 true ++ List.replicate 13 false

theorem two_workers_share_pool :
    ((Machine.run (poolStep poolExec) (workers 2 false 2 10 hangUpStart)
      hangUpSched.dropLast).prog false).next? = some (.idleAt 0 1) ∧
      (Machine.run (poolStep poolExec) (workers 2 false 2 10 hangUpStart) hangUpSched).state.fds = {8} ∧
      (Machine.run (poolStep poolExec) (workers 2 false 2 10 hangUpStart) hangUpSched).state.Tidy := by
  have hfresh : hangUpStart.Fresh := ⟨fun _ => rfl, rfl, rfl, rfl, fun _ => rfl⟩
  have hruns : Machine.Along (poolStep poolExec)
      (fun p w => ∀ a ∈ (p.prog w).next?, p.state.Kernel a ∧ p.state.Active a)
      (workers 2 false 2 10 hangUpStart) hangUpSched := by decide +kernel
  refine ⟨by decide +kernel, by decide +kernel, (workers_share_pool hfresh 2 false 2 10 hruns).2.2 ?_⟩
  unfold Waits
  decide +kernel

/-- The client of the first worker hangs up when it has been idle for too long. -/
def sweepEnv (n : Nat) : PoolEnv where
  accepts := some 7
  address := n
  events := if n = 0 then [.listen] else if n = 5 then [.conn 0 true] else []
  time := if n = 16 then 400000000000 else 0
  closes := false
  state := .connected
  state_ne := by decide

def sweepStart : PoolWorld Bool := { hangUpStart with env := sweepEnv }

def sweepSched : List Bool := List.replicate 15 false ++ List.replicate 18 true ++ List.replicate 6 false

/-- A sweep that finds the connection of another worker idle is about to close its descriptor once
more, when that worker has just done so itself. -/
theorem sweep_closes_twice :
    sweepStart.Fresh ∧
    Machine.Along (poolStep poolExec) (fun p w => ∀ a ∈ (p.prog w).next?, p.state.Kernel a)
      (workers 1 false 1 10 sweepStart) sweepSched ∧
    ((Machine.run (poolStep poolExec) (workers 1 false 1 10 sweepStart) sweepSched).prog true).next? =
      some (.close 7) ∧
    7 ∉ (Machine.run (poolStep poolExec) (workers 1 false 1 10 sweepStart) sweepSched).state.fds :=
  ⟨⟨fun _ => rfl, rfl, rfl, rfl, fun _ => rfl⟩, by decide +kernel⟩

end Example

end VoidCache.ConnPool
