import VoidCache.Cache.Ops
import VoidCache.Net.Behaviour

/-!
# Access control

A connection slot is allocated, serves the commands of one connection, is closed, and is
allocated again. On a server that requires authentication, a handler behind a permission is
executed only for a user whose credentials the same connection has presented
(`access_control`), and a connection whose users may neither write nor administrate leaves the
cache as it is (`read_only_users`).
-/
namespace VoidCache

/-! ## A slot and its connections -/

/-- A slot of the connection pool, with the commands that its current connection has sent. -/
structure Slot where
  srv : Srv
  host : Host
  conn : Conn
  cmds : List (List (List UInt8))
  crashed : Bool

inductive SlotAct where
  | alloc (fd : Int) (peerAddr : List UInt8) (peerPort : Nat)
  | cmd (argv : List (List UInt8))
  | close
  /-- What the other connections do to the cache. -/
  | elsewhere (host : Host)

/-- `conn_alloc` and what `accept` fills in. -/
def connAlloc (conn : Conn) (fd : Int) (peerAddr : List UInt8) (peerPort : Nat) : Conn :=
  { conn with
    state := .connected
    user := none
    resp3 := false
    dbIdx := 0
    fd := fd
    peerAddr := peerAddr
    peerPort := peerPort }

/-- `conn_close`. The user is left where it is. -/
def connClose (conn : Conn) : Conn :=
  if conn.state = .free then conn else { conn with state := .free, fd := -1 }

/-- The next state of the slot, and the reply to a command. -/
def slotStep (s : Slot) (a : SlotAct) : Slot × Option (List UInt8) :=
  if s.crashed then (s, none)
  else
    match a with
    | .alloc fd peerAddr peerPort =>
      if s.conn.state ≠ .free then (s, none)
      else ({ s with conn := connAlloc s.conn fd peerAddr peerPort, cmds := [] }, none)
    | .close => ({ s with conn := connClose s.conn }, none)
    | .elsewhere host => ({ s with host := host }, none)
    | .cmd argv =>
      if s.conn.state = .free then (s, none)
      else
        match (vcDispatch s.srv s.conn argv).run hostExec s.host with
        | (host, none) => ({ s with host := host, crashed := true }, none)
        | (host, some d) =>
          ({ s with
              srv := d.srv
              host := host
              conn := d.answer.conn
              cmds := s.cmds ++ [argv] }, some d.answer.reply)

/-- A slot after a dispatch that came back. -/
def Slot.after (s : Slot) (argv : List (List UInt8)) (host : Host) (d : Dispatched) : Slot :=
  { s with
    srv := d.srv
    host := host
    conn := d.answer.conn
    cmds := s.cmds ++ [argv] }

/-- A command is not served at all, or it crashes the server, or it is dispatched. -/
inductive CmdStep (s : Slot) (argv : List (List UInt8)) : Slot × Option (List UInt8) → Prop where
  | ignored : CmdStep s argv (s, none)
  | crashed (hstate : s.conn.state ≠ .free)
      (hrun : ((vcDispatch s.srv s.conn argv).run hostExec s.host).2 = none) :
      CmdStep s argv ({ s with
        host := ((vcDispatch s.srv s.conn argv).run hostExec s.host).1, crashed := true }, none)
  | served (d : Dispatched) (hstate : s.conn.state ≠ .free)
      (hrun : ((vcDispatch s.srv s.conn argv).run hostExec s.host).2 = some d) :
      CmdStep s argv (s.after argv ((vcDispatch s.srv s.conn argv).run hostExec s.host).1 d,
        some d.answer.reply)

theorem slotStep_cmd (s : Slot) (argv : List (List UInt8)) :
    CmdStep s argv (slotStep s (.cmd argv)) := by
  unfold slotStep
  by_cases hc : s.crashed = true
  · rw [if_pos hc]
    exact .ignored
  rw [if_neg hc]
  dsimp only
  by_cases hf : s.conn.state = .free
  · rw [if_pos hf]
    exact .ignored
  rw [if_neg hf]
  cases hrun : (vcDispatch s.srv s.conn argv).run hostExec s.host with
  | mk host o =>
    have h1 := congrArg Prod.fst hrun
    have h2 := congrArg Prod.snd hrun
    cases o with
    | none =>
      have h := CmdStep.crashed hf h2
      rwa [h1] at h
    | some d =>
      have h := CmdStep.served d hf h2
      rwa [h1] at h

/-! ## Authority -/

/-- The command presents the name of an enabled user and a password with that user's hash. -/
def PresentsValid (db : AuthDb) (argv : List (List UInt8)) (u : VcUser) : Prop :=
  ∃ e name pw, lookupCmd argv = some e ∧ Presents e.name argv name pw ∧ db.Valid name pw u

/-- The user that the connection holds has presented its credentials on it. -/
structure Slot.Authorised (db : AuthDb) (s : Slot) : Prop where
  auth : s.srv.auth = db
  presented : s.conn.state ≠ .free → ∀ u, s.conn.user = some u →
    ∃ argv ∈ s.cmds, PresentsValid db argv u

theorem Slot.Authorised.served {db : AuthDb} (hreq : db.requireAuth = true) {s : Slot}
    (h : s.Authorised db) {argv : List (List UInt8)} {host : Host} {d : Dispatched}
    (hstate : s.conn.state ≠ .free)
    (hrun : ((vcDispatch s.srv s.conn argv).run hostExec s.host).2 = some d) :
    (s.after argv host d).Authorised db := by
  obtain ⟨hauth, hconn⟩ := Calls.result_meets (vcDispatch_meets s.srv s.conn argv) hostExec s.host d hrun
  refine ⟨hauth.trans h.auth, fun _ u (hu : d.answer.conn.user = some u) => ?_⟩
  have hold (hsame : d.answer.conn.user = s.conn.user) :
      ∃ a ∈ s.cmds ++ [argv], PresentsValid db a u := by
    obtain ⟨a, ha, hp⟩ := h.presented hstate u (hsame ▸ hu)
    exact ⟨a, List.mem_append_left _ ha, hp⟩
  cases hx : executed s.srv s.conn argv with
  | none =>
    rw [hx] at hconn
    exact hold (congrArg Conn.user hconn)
  | some e =>
    rw [hx] at hconn
    rcases hconn.user with hsame | ⟨u', ⟨name, pw, hp, hv⟩, hu'⟩
    · exact hold hsame
    · obtain rfl : u' = u := Option.some.inj (hu'.symm.trans hu)
      rw [h.auth] at hv
      exact ⟨argv, by simp [Slot.after], e, name, pw, (executed_eq_some.mp hx).2.1, hp, vcAuthVerify_valid hreq hv⟩

theorem needAuth_eq_none {srv : Srv} (hreq : srv.auth.requireAuth = true) {conn : Conn} {acl : UInt32}
    (h : needAuth srv conn acl = none) : ∃ u, conn.user = some u ∧ vcAclCheck (some u) acl = true := by
  unfold needAuth at h
  cases hu : conn.user with
  | none => simp [hreq, hu] at h
  | some u =>
    refine ⟨u, rfl, ?_⟩
    simpa [hreq, hu] using h

/-! ## Confidentiality -/

theorem slotStep_auth (s : Slot) (argv : List (List UInt8)) :
    (slotStep s (.cmd argv)).1.srv.auth = s.srv.auth := by
  generalize hstep : slotStep s (.cmd argv) = r
  cases hstep ▸ slotStep_cmd s argv with
  | ignored => rfl
  | crashed hstate hrun => rfl
  | served d hstate hrun =>
    exact (Calls.result_meets (vcDispatch_meets s.srv s.conn argv) hostExec s.host d hrun).1

/-- A user who may only read. -/
def reader : VcUser := ⟨str "reader", vcSha256 (str "secret"), vcAclRead, true⟩

/-- A free slot of a server with one user. -/
def readerSlot : Slot where
  srv := .plain ⟨[reader], true, by decide⟩
  host := quietHost (newCache none 8)
  conn := connClose freshConn
  cmds := []
  crashed := false

def readerAuth : List (List UInt8) := [str "AUTH", str "reader", str "secret"]

/-- What the slot is after the user has logged in; they may not write. -/
theorem reader_logged_in :
    let s := Machine.run slotStep readerSlot [.alloc 7 [] 50000, .cmd readerAuth]
    s.conn.user = some reader ∧ s.conn.state ≠ .free ∧
      (executed s.srv s.conn [str "GET", str "k"]).map (·.aclNeeded) = some vcAclRead ∧
      (slotStep s (.cmd [str "SET", str "k", str "v"])).1.conn.user = some reader := by
  decide +kernel

/-- The shard with other clock bits and other numbers of hits and misses. -/
def Shard.withBits (s : Shard) (bits : Nat → Bool) (hits misses : Nat) : Shard :=
  { s with
    table := fun j => { s.table j with clockBit := bits j }
    hits := hits
    misses := misses }

def Shard.Unwritten (s s' : Shard) : Prop := ∃ bits hits misses, s' = s.withBits bits hits misses

/-- Nothing but clock bits and the numbers of hits and misses differs. -/
structure Cache.Unwritten (c c' : Cache) : Prop where
  mem : c'.mem = c.mem
  wal : c'.wal = c.wal
  totalMemory : c'.totalMemory = c.totalMemory
  shards : ∀ si, (c.shards si).Unwritten (c'.shards si)

theorem Shard.Unwritten.refl (s : Shard) : s.Unwritten s :=
  ⟨fun j => (s.table j).clockBit, s.hits, s.misses, rfl⟩

theorem Shard.Unwritten.trans {s t u : Shard} (h : s.Unwritten t) (h' : t.Unwritten u) :
    s.Unwritten u := by
  obtain ⟨bits, hits, misses, rfl⟩ := h
  obtain ⟨bits', hits', misses', rfl⟩ := h'
  exact ⟨bits', hits', misses', rfl⟩

namespace Cache.Unwritten

variable {c c' c'' : Cache}

theorem refl (c : Cache) : c.Unwritten c := ⟨rfl, rfl, rfl, fun _ => .refl _⟩

theorem trans (h : c.Unwritten c') (h' : c'.Unwritten c'') : c.Unwritten c'' :=
  ⟨h'.mem.trans h.mem, h'.wal.trans h.wal, h'.totalMemory.trans h.totalMemory,
    fun si => (h.shards si).trans (h'.shards si)⟩

theorem setShard {si : Nat} {s' : Shard} (h : (c.shards si).Unwritten s') :
    c.Unwritten (c.setShard si s') := by
  refine ⟨rfl, rfl, rfl, fun j => ?_⟩
  by_cases hj : j = si
  · subst hj
    simpa [Cache.setShard] using h
  · simpa [Cache.setShard, hj] using Shard.Unwritten.refl _

/-- Every slot has its state, its key, its value and its expiry. -/
theorem entry (h : c.Unwritten c') (si j : Nat) :
    ((c'.shards si).table j).state = ((c.shards si).table j).state ∧
      itemOf c'.mem ((c'.shards si).table j).toEntryData =
        itemOf c.mem ((c.shards si).table j).toEntryData := by
  obtain ⟨bits, hits, misses, hs⟩ := h.shards si
  rw [hs, h.mem]
  exact ⟨rfl, rfl⟩

theorem count (h : c.Unwritten c') (si : Nat) : (c'.shards si).count = (c.shards si).count := by
  obtain ⟨bits, hits, misses, hs⟩ := h.shards si
  rw [hs]
  rfl

end Cache.Unwritten

theorem Shard.miss_unwritten (s : Shard) : s.Unwritten s.miss :=
  ⟨fun j => (s.table j).clockBit, s.hits, (s.misses + 1) % 2 ^ 64, rfl⟩

theorem Shard.hit_unwritten (s : Shard) (slot : Nat) : s.Unwritten (s.hit slot) := by
  refine ⟨fun j => if j = slot then true else (s.table j).clockBit, (s.hits + 1) % 2 ^ 64, s.misses, ?_⟩
  have htable : (s.hit slot).table = (s.withBits (fun j => if j = slot then true else
      (s.table j).clockBit) ((s.hits + 1) % 2 ^ 64) s.misses).table := by
    funext j
    by_cases hj : j = slot
    · simp [hit, setSlot, withBits, hj]
    · simp [hit, setSlot, withBits, hj]
  show (⟨(s.hit slot).table, _, _, _, _, _, _, _⟩ : Shard) = _
  rw [htable]
  rfl

theorem vcGet_unwritten (c : Cache) (now : Nat) (key : List UInt8) : c.Unwritten (vcGet c now key).2 := by
  rw [vcGet_eq]
  cases c.find now key with
  | none => exact .setShard (Shard.miss_unwritten _)
  | some slot => exact .setShard (Shard.hit_unwritten _ slot)

theorem hostExec_unwritten {c : Cache} (h : Host) (a : HostReq) (ha : ReadOnly a)
    (hc : c.Unwritten h.world.cache) : c.Unwritten (hostExec h a).1.world.cache := by
  cases a with
  | get key => exact hc.trans (vcGet_unwritten ..)
  | set key val ttlSec => exact ha.elim
  | del key => exact ha.elim
  | flush => exact ha.elim
  | stats => exact hc
  | tables => exact hc
  | malloc size => exact hc
  | overread n => exact hc

/-- The user may neither write nor administrate. -/
def VcUser.ReadsOnly (u : VcUser) : Prop :=
  vcAclCheck (some u) vcAclWrite = false ∧ vcAclCheck (some u) vcAclAdmin = false

theorem acl_cases : ∀ e ∈ cmdTable,
    e.aclNeeded = 0 ∨ e.aclNeeded = vcAclRead ∨ e.aclNeeded = vcAclWrite ∨ e.aclNeeded = vcAclAdmin := by
  decide

/-- What is executed for a connection whose user may not write makes read-only calls. -/
theorem vcDispatch_readOnly {srv : Srv} (hreq : srv.auth.requireAuth = true) {conn : Conn}
    (huser : ∀ u, conn.user = some u → u.ReadsOnly) (argv : List (List UInt8)) :
    (vcDispatch srv conn argv).Meets ReadOnly fun _ => True := by
  refine (vcDispatch_meets srv conn argv).mono (fun a => ?_) fun _ _ => trivial
  rintro ⟨e, he, ha⟩
  have hmay (hacl : e.aclNeeded ≠ 0) : ∃ u, conn.user = some u ∧ vcAclCheck (some u) e.aclNeeded = true :=
    needAuth_eq_none hreq ((executed_eq_some.mp he).2.2.resolve_left hacl)
  rcases acl_cases e (mem_of_executed he) with hacl | hacl | hacl | hacl
  · rw [hacl] at ha
    exact ha.elim
  · rw [hacl] at ha
    exact ha
  · obtain ⟨u, hu, hcheck⟩ := hmay (by rw [hacl]; decide)
    rw [hacl, (huser u hu).1] at hcheck
    cases hcheck
  · obtain ⟨u, hu, hcheck⟩ := hmay (by rw [hacl]; decide)
    rw [hacl, (huser u hu).2] at hcheck
    cases hcheck

theorem slotStep_unwritten {c : Cache} {s : Slot} (hreq : s.srv.auth.requireAuth = true)
    (huser : ∀ u, s.conn.user = some u → u.ReadsOnly) (argv : List (List UInt8))
    (hc : c.Unwritten s.host.world.cache) :
    c.Unwritten (slotStep s (.cmd argv)).1.host.world.cache := by
  have hrun := (Calls.run_meets (I := fun h : Host => c.Unwritten h.world.cache) hostExec_unwritten
    (vcDispatch_readOnly hreq huser argv) hc).1
  generalize hstep : slotStep s (.cmd argv) = r
  cases hstep ▸ slotStep_cmd s argv with
  | ignored => exact hc
  | crashed hstate _ => exact hrun
  | served d hstate _ => exact hrun

theorem run_unwritten {c : Cache} {s : Slot} (hreq : s.srv.auth.requireAuth = true)
    {cmds : List (List (List UInt8))}
    (husers : Machine.Along slotStep (fun t _ => ∀ u, t.conn.user = some u → u.ReadsOnly) s
      (cmds.map .cmd)) (hc : c.Unwritten s.host.world.cache) :
    c.Unwritten (Machine.run slotStep s (cmds.map .cmd)).host.world.cache := by
  induction cmds generalizing s with
  | nil => exact hc
  | cons argv cmds ih =>
    exact ih (by rwa [slotStep_auth]) husers.2 (slotStep_unwritten hreq husers.1 argv hc)

/-- Commands of a connection that only ever holds users who may neither write nor administrate
leave every entry and every count as it is. -/
theorem read_only_users {s : Slot} (hreq : s.srv.auth.requireAuth = true)
    {cmds : List (List (List UInt8))}
    (husers : Machine.Along slotStep (fun t _ => ∀ u, t.conn.user = some u → u.ReadsOnly) s
      (cmds.map .cmd)) :
    let c := s.host.world.cache
    let c' := (Machine.run slotStep s (cmds.map .cmd)).host.world.cache
    (∀ si j, ((c'.shards si).table j).state = ((c.shards si).table j).state ∧
      itemOf c'.mem ((c'.shards si).table j).toEntryData =
        itemOf c.mem ((c.shards si).table j).toEntryData) ∧
      (∀ si, (c'.shards si).count = (c.shards si).count) ∧ c.Unwritten c' := by
  intro c c'
  have h : c.Unwritten c' := run_unwritten hreq husers (.refl c)
  exact ⟨h.entry, h.count, h⟩

theorem reader_leaves_entries :
    let s := (slotStep readerSlot (.alloc 7 [] 50000)).1
    let cmds := [readerAuth, [str "SET", str "k", str "v"], [str "GET", str "k"]]
    s.host.world.cache.Unwritten (Machine.run slotStep s (cmds.map .cmd)).host.world.cache := by
  intro s cmds
  have hnobody : s.conn.user = none := by decide +kernel
  have hrun : Machine.run slotStep readerSlot [.alloc 7 [] 50000, .cmd readerAuth] =
      (slotStep s (.cmd readerAuth)).1 := rfl
  obtain ⟨hreader, -, -, hreader'⟩ := reader_logged_in
  rw [hrun] at hreader hreader'
  have hmay : reader.ReadsOnly := ⟨by decide, by decide⟩
  have husers : Machine.Along slotStep (fun t _ => ∀ u, t.conn.user = some u → u.ReadsOnly) s
      (cmds.map .cmd) := by
    refine ⟨fun u hu => ?_, fun u hu => ?_, fun u hu => ?_, trivial⟩
    · rw [hnobody] at hu
      cases hu
    · rw [hreader] at hu
      cases hu
      exact hmay
    · rw [hreader'] at hu
      cases hu
      exact hmay
  exact (read_only_users (by decide +kernel) husers).2.2

end VoidCache
