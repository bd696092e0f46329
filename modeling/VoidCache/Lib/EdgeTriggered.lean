import Mathlib.Data.List.Basic

/-!
# Sockets under an edge-triggered poller

A `Sock` is a connected socket as its owner sees it through system calls: what has arrived and
was not read, how much the send buffer takes, whether the owner asked to hear about room in it,
and the edges that the next wait reports. The peer may send, close its side and take items out of
the send buffer at any time. A wait reports an edge once. Nothing else tells the owner that there
is something to do, so an owner that goes to sleep must be `Alert` to input and `Awaits` room if
it has output left. The lemmas say which calls make a socket so, and that the peer keeps it so.
-/
namespace VoidCache

/-- What a wait reports. -/
structure Edges where
  readable : Bool
  writable : Bool
  hangUp : Bool
  deriving DecidableEq, Repr

def Edges.none : Edges := ⟨false, false, false⟩

structure Sock (β : Type) where
  /-- All that the peer has sent so far, kept for the statements only. -/
  arrived : List β
  inbox : List β
  finished : Bool
  room : Nat
  /-- A write has found no room, and the peer has taken nothing since. -/
  blocked : Bool
  wantsOut : Bool
  edges : Edges

inductive PeerAct (β : Type) where
  | send (items : List β)
  | finish
  | take (n : Nat)

/-- What one read returns. -/
inductive Received (β : Type) where
  | data (items : List β)
  | eof
  | again
  deriving DecidableEq

/-- What one write returns. -/
inductive Accepted where
  | wrote (n : Nat)
  | again
  deriving DecidableEq

namespace Sock

variable {β : Type}

/-- A socket that was just registered for input. -/
def added (early : List β) (room : Nat) : Sock β where
  arrived := early
  inbox := early
  finished := false
  room := room
  blocked := false
  wantsOut := false
  edges := ⟨early ≠ [], false, false⟩

/-- What the peer does. Nothing comes after the end, and room is news only for a writer that was
turned away. -/
def peer (s : Sock β) : PeerAct β → Sock β
  | .send items =>
    if s.finished ∨ items = [] then s
    else { s with
      arrived := s.arrived ++ items
      inbox := s.inbox ++ items
      edges := { s.edges with readable := true } }
  | .finish => { s with finished := true, edges := ⟨true, s.edges.writable, true⟩ }
  | .take n =>
    if n = 0 then s
    else { s with
      room := s.room + n
      blocked := false
      edges := { s.edges with writable := s.edges.writable || s.blocked && s.wantsOut } }

/-- A wait takes the edges; it may report more than those, but no end that has not come. -/
def wait (s : Sock β) (extra : Edges) : Edges × Sock β :=
  (⟨s.edges.readable || extra.readable, s.edges.writable || extra.writable && s.wantsOut,
      s.edges.hangUp⟩,
    { s with edges := .none })

/-- A read of at most `n` items; how many of those there are it returns is up to the system. -/
def read (s : Sock β) (cut n : Nat) : Received β × Sock β :=
  if s.inbox = [] then (if s.finished then .eof else .again, s)
  else (.data (s.inbox.take (min n (cut + 1))), { s with inbox := s.inbox.drop (min n (cut + 1)) })

/-- A write of `n` items, of which some are taken unless there is no room at all. -/
def write (s : Sock β) (cut n : Nat) : Accepted × Sock β :=
  if s.room = 0 then (.again, { s with blocked := true })
  else
    let k := min n (min s.room (cut + 1))
    (.wrote k, { s with room := s.room - k, blocked := false })

/-- Ask for edges of input, and of output or not. What is ready now is reported again. -/
def rearm (s : Sock β) (out : Bool) : Sock β :=
  { s with
    wantsOut := out
    edges :=
      ⟨s.edges.readable || s.inbox ≠ [] || s.finished, out && (s.edges.writable || 0 < s.room),
        s.edges.hangUp || s.finished⟩ }

/-- Input that is waiting will be reported. -/
def Alert (s : Sock β) : Prop := s.inbox ≠ [] → s.edges.readable = true

/-- Room for output has been reported or will be, once there is any. -/
def Awaits (s : Sock β) : Prop := s.wantsOut = true ∧ (s.edges.writable = true ∨ s.blocked = true)

/-- What the system guarantees of a socket that is open. -/
structure Sound (s : Sock β) : Prop where
  full : s.blocked = true → s.room = 0
  asked : s.edges.writable = true → s.wantsOut = true
  ending : s.finished = true → s.edges.hangUp = true

section Peer

variable {s : Sock β}

theorem added_alert (early : List β) (room : Nat) : (added early room).Alert := by
  intro h
  simpa [added] using h

theorem added_sound (early : List β) (room : Nat) : (added early room).Sound :=
  ⟨nofun, nofun, nofun⟩

theorem Sound.peer (h : s.Sound) (a : PeerAct β) : (s.peer a).Sound := by
  obtain ⟨hfull, hasked, hending⟩ := h
  constructor <;> cases a <;> grind [Sock.peer]

theorem Alert.peer (h : s.Alert) (a : PeerAct β) : (s.peer a).Alert := by
  unfold Alert at h ⊢
  cases a <;> grind [Sock.peer]

/-- The peer takes items from a full send buffer: that is the edge its writer waits for. -/
theorem Awaits.peer (h : s.Awaits) (a : PeerAct β) : (s.peer a).Awaits := by
  obtain ⟨hwants, hedge⟩ := h
  constructor <;> cases a <;> grind [Sock.peer]

theorem peer_inbox (s : Sock β) (a : PeerAct β) :
    ∃ items, (s.peer a).inbox = s.inbox ++ items ∧ (s.peer a).arrived = s.arrived ++ items := by
  cases a with
  | send items =>
    dsimp only [Sock.peer]
    split_ifs
    · exact ⟨[], by simp, by simp⟩
    · exact ⟨items, rfl, rfl⟩
  | finish => exact ⟨[], by simp [Sock.peer], by simp [Sock.peer]⟩
  | take n =>
    dsimp only [Sock.peer]
    split_ifs <;> exact ⟨[], by simp, by simp⟩

@[simp] theorem peer_wantsOut (s : Sock β) (a : PeerAct β) : (s.peer a).wantsOut = s.wantsOut := by
  cases a <;> grind [Sock.peer]

/-- A writer that was turned away finds room, or is still waiting for it. -/
theorem peer_blocked_or_room (a : PeerAct β) (h : s.blocked = true ∨ 0 < s.room) :
    (s.peer a).blocked = true ∨ 0 < (s.peer a).room := by
  cases a <;> grind [Sock.peer]

end Peer

section Calls

variable {s : Sock β}

theorem read_again {cut n : Nat} {s' : Sock β} (h : s.read cut n = (.again, s')) :
    s' = s ∧ s.inbox = [] := by
  unfold read at h
  grind

theorem read_eof {cut n : Nat} {s' : Sock β} (h : s.read cut n = (.eof, s')) : s' = s := by
  unfold read at h
  grind

theorem read_data {cut n : Nat} {items : List β} {s' : Sock β} (h : s.read cut n = (.data items, s')) :
    s.inbox = items ++ s'.inbox ∧ s' = { s with inbox := s'.inbox } ∧ items.length ≤ n ∧
      (0 < n → items ≠ []) := by
  unfold read at h
  split_ifs at h with hempty hend
  · cases h
  · cases h
  · cases h
    refine ⟨(List.take_append_drop ..).symm, rfl, ?_, fun hn hnil => ?_⟩
    · rw [List.length_take]
      omega
    · rcases List.take_eq_nil_iff.mp hnil with hcut | hnone
      · omega
      · exact hempty hnone

theorem write_again {cut n : Nat} {s' : Sock β} (h : s.write cut n = (.again, s')) :
    s' = { s with blocked := true } ∧ s.room = 0 := by
  unfold write at h
  grind

theorem write_wrote {cut n k : Nat} {s' : Sock β} (h : s.write cut n = (.wrote k, s')) (hn : 0 < n) :
    0 < k ∧ k ≤ n ∧ s' = { s with room := s'.room, blocked := false } := by
  unfold write at h
  grind

theorem Sound.read (h : s.Sound) {cut n : Nat} {r : Received β} {s' : Sock β}
    (hr : s.read cut n = (r, s')) : s'.Sound := by
  obtain ⟨hfull, hasked, hending⟩ := h
  unfold Sock.read at hr
  constructor <;> grind

theorem Sound.write (h : s.Sound) {cut n : Nat} {r : Accepted} {s' : Sock β}
    (hr : s.write cut n = (r, s')) : s'.Sound := by
  obtain ⟨hfull, hasked, hending⟩ := h
  unfold Sock.write at hr
  constructor <;> grind

theorem Alert.write (h : s.Alert) {cut n : Nat} {r : Accepted} {s' : Sock β}
    (hr : s.write cut n = (r, s')) : s'.Alert := by
  unfold Alert at h ⊢
  unfold Sock.write at hr
  grind

theorem Sound.rearm (h : s.Sound) (out : Bool) : (s.rearm out).Sound where
  full := h.full
  asked hw := by
    simp only [Sock.rearm, Bool.and_eq_true] at hw
    exact hw.1
  ending hf := by
    simp only [Sock.rearm] at hf ⊢
    simp [hf]

theorem rearm_alert (s : Sock β) (out : Bool) : (s.rearm out).Alert := by
  intro h
  have hne : s.inbox ≠ [] := h
  simp [Sock.rearm, hne]

/-- Asking for edges of output after a write was turned away misses none. -/
theorem rearm_awaits (h : s.blocked = true ∨ 0 < s.room) : (s.rearm true).Awaits := by
  refine ⟨rfl, ?_⟩
  rcases h with hb | hr
  · exact .inr hb
  · simp [Sock.rearm, hr]

end Calls

end Sock

end VoidCache
