import Mathlib.Data.List.Basic

/-!
# Incremental scanners

A `Scanner` looks at the start of a buffer and asks for more input, fails, or returns a value
together with the number of items it used. `Incremental` scanners never take a verdict back
when more input arrives. `drain` runs a scanner again and again over a growing buffer, as a
read loop does; for an incremental scanner that uses something each time, how the input was
cut into chunks makes no difference (`feedAll_eq_drain`).
-/
namespace VoidCache

inductive Scan (α : Type) where
  | more
  | err
  | ok (value : α) (used : Nat)
  deriving DecidableEq, Repr

/-- The verdict `k` items further on. -/
def Scan.advance {α : Type} (k : Nat) : Scan α → Scan α
  | .more => .more
  | .err => .err
  | .ok a n => .ok a (k + n)

theorem Scan.advance_eq_ok {α : Type} {r : Scan α} {k : Nat} {a : α} {n : Nat} :
    r.advance k = .ok a n ↔ ∃ m, r = .ok a m ∧ n = k + m := by
  cases r <;> simp [advance, eq_comm]

/-- The verdict without the value. -/
def Scan.forget {α : Type} : Scan α → Scan Unit
  | .more => .more
  | .err => .err
  | .ok _ n => .ok () n

/-- What a scanner makes of the items that are there so far. -/
def Scanner (β α : Type) : Type :=
  List β → Scan α

namespace Scanner

variable {β α γ : Type}

def pure (a : α) : Scanner β α := fun _ => .ok a 0

def bind (f : Scanner β α) (k : α → Scanner β γ) : Scanner β γ := fun p =>
  match f p with
  | .more => .more
  | .err => .err
  | .ok a n =>
    match k a (p.drop n) with
    | .more => .more
    | .err => .err
    | .ok c m => .ok c (n + m)

instance : Monad (Scanner β) where
  pure := pure
  bind := bind

def fail : Scanner β α := fun _ => .err

/-- Ask for more input unless `n` items are there. -/
def need (n : Nat) : Scanner β Unit := fun p =>
  if p.length < n then .more else .ok () 0

def peek : Scanner β β := fun p =>
  match p with
  | [] => .more
  | b :: _ => .ok b 0

/-- Take `n` items, once they are there. -/
def take (n : Nat) : Scanner β (List β) := fun p =>
  if p.length < n then .more else .ok (p.take n) n

def ofOption : Option α → Scanner β α
  | none => fail
  | some a => pure a

/-- A verdict is never taken back, and no scanner uses what is not there. -/
structure Incremental (f : Scanner β α) : Prop where
  ok_append : ∀ {p a n}, f p = .ok a n → ∀ x, f (p ++ x) = .ok a n
  err_append : ∀ {p}, f p = .err → ∀ x, f (p ++ x) = .err
  used_le : ∀ {p a n}, f p = .ok a n → n ≤ p.length

theorem bind_eq_ok {f : Scanner β α} {k : α → Scanner β γ} {p : List β} {c : γ} {n : Nat} :
    (f >>= k) p = .ok c n ↔ ∃ a i j, f p = .ok a i ∧ k a (p.drop i) = .ok c j ∧ n = i + j := by
  show bind f k p = _ ↔ _
  unfold bind
  cases f p with
  | more => simp
  | err => simp
  | ok a i => cases h : k a (p.drop i) <;> simp_all [eq_comm]

theorem bind_eq_err {f : Scanner β α} {k : α → Scanner β γ} {p : List β} :
    (f >>= k) p = .err ↔ f p = .err ∨ ∃ a i, f p = .ok a i ∧ k a (p.drop i) = .err := by
  show bind f k p = _ ↔ _
  unfold bind
  cases f p with
  | more => simp
  | err => simp
  | ok a i => cases h : k a (p.drop i) <;> simp_all

/-! The monad laws. -/

instance : LawfulMonad (Scanner β) := LawfulMonad.mk' (Scanner β)
  (by
    intro α f
    funext p
    show bind f (fun a => pure a) p = f p
    unfold bind
    cases f p <;> simp [pure])
  (by
    intro α γ a k
    funext p
    show bind (pure a) k p = k a p
    simp only [bind, pure, List.drop_zero, Nat.zero_add]
    cases k a p <;> rfl)
  (by
    intro α γ δ f k l
    funext p
    show bind (bind f k) l p = bind f (fun a => bind (k a) l) p
    unfold bind
    cases f p with
    | more => rfl
    | err => rfl
    | ok a n =>
      dsimp only
      cases k a (p.drop n) with
      | more => rfl
      | err => rfl
      | ok c m =>
        dsimp only
        rw [← List.drop_drop]
        cases l c ((p.drop n).drop m) <;> simp [Nat.add_assoc])

theorem ite_fail_bind {P : Prop} [Decidable P] (f : Scanner β α) (k : α → Scanner β γ) :
    ((if P then fail else f) >>= k) = if P then fail else f >>= k := by
  split_ifs
  · rfl
  · rfl

theorem pure_then (a : α) (k : α → Scanner β γ) : (pure a >>= k) = k a := pure_bind a k

/-! Scanners that look before they go on. -/

theorem need_bind_of_le {m : Nat} {p : List β} (h : m ≤ p.length) (k : Unit → Scanner β γ) :
    (need m >>= k) p = k () p := by
  show bind (need m) k p = _
  simp only [bind, need, if_neg (Nat.not_lt.mpr h), List.drop_zero, Nat.zero_add]
  cases k () p <;> rfl

theorem peek_bind_cons (b : β) (p : List β) (k : β → Scanner β γ) :
    (peek >>= k) (b :: p) = k b (b :: p) := by
  show bind peek k (b :: p) = _
  simp only [bind, peek, List.drop_zero, Nat.zero_add]
  cases k b (b :: p) <;> rfl

theorem need_bind_eq_ok {m : Nat} {k : Unit → Scanner β γ} {p : List β} {c : γ} {n : Nat} :
    (need m >>= k) p = .ok c n ↔ m ≤ p.length ∧ k () p = .ok c n := by
  constructor
  · intro h
    have hm : m ≤ p.length := by
      obtain ⟨_, i, j, hneed, -, -⟩ := bind_eq_ok.mp h
      unfold need at hneed
      split_ifs at hneed with hm
      exact Nat.not_lt.mp hm
    exact ⟨hm, need_bind_of_le hm k ▸ h⟩
  · rintro ⟨hm, hk⟩
    rw [need_bind_of_le hm, hk]

theorem peek_bind_eq_ok {k : β → Scanner β γ} {p : List β} {c : γ} {n : Nat} :
    (peek >>= k) p = .ok c n ↔ ∃ b, p.head? = some b ∧ k b p = .ok c n := by
  cases p with
  | nil => simp [bind_eq_ok, peek]
  | cons b p => simp [peek_bind_cons]

theorem ofOption_bind_eq_ok {o : Option α} {k : α → Scanner β γ} {p : List β} {c : γ} {n : Nat} :
    (ofOption o >>= k) p = .ok c n ↔ ∃ a, o = some a ∧ k a p = .ok c n := by
  rw [bind_eq_ok]
  cases o with
  | none => simp [ofOption, fail]
  | some a =>
    constructor
    · rintro ⟨_, i, j, h, hk, rfl⟩
      cases h
      exact ⟨a, rfl, by simpa using hk⟩
    · rintro ⟨_, h, hk⟩
      cases h
      exact ⟨a, 0, n, rfl, hk, (Nat.zero_add n).symm⟩

theorem take_eq_ok {m : Nat} {p a : List β} {n : Nat} :
    take m p = .ok a n ↔ m ≤ p.length ∧ a = p.take m ∧ n = m := by
  unfold take
  split_ifs with h
  · simp [Nat.not_le.mpr h]
  · simp [Nat.not_lt.mp h, eq_comm]

/-- A test that must not hold. -/
theorem ite_fail_eq_ok {P : Prop} [Decidable P] {f : Scanner β α} {p : List β} {a : α} {n : Nat} :
    (if P then fail else f) p = .ok a n ↔ ¬ P ∧ f p = .ok a n := by
  split_ifs with h <;> simp [h, fail]

namespace Incremental

theorem pure (a : α) : Incremental (Scanner.pure a : Scanner β α) where
  ok_append h _ := h
  err_append h _ := by cases h
  used_le h := by cases h; exact Nat.zero_le _

theorem fail : Incremental (Scanner.fail : Scanner β α) where
  ok_append h _ := by cases h
  err_append h _ := h
  used_le h := by cases h

theorem need (n : Nat) : Incremental (Scanner.need n : Scanner β Unit) where
  ok_append {p a m} h x := by
    unfold Scanner.need at h ⊢
    split at h
    · cases h
    · rw [if_neg (by rw [List.length_append]; omega), h]
  err_append h _ := by unfold Scanner.need at h; split at h <;> cases h
  used_le h := by unfold Scanner.need at h; split at h <;> cases h; exact Nat.zero_le _

theorem peek : Incremental (Scanner.peek : Scanner β β) where
  ok_append {p a m} h x := by
    cases p with
    | nil => cases h
    | cons b p => exact h
  err_append {p} h _ := by cases p <;> cases h
  used_le {p a m} h := by cases p <;> cases h; exact Nat.zero_le _

theorem take (n : Nat) : Incremental (Scanner.take n : Scanner β (List β)) where
  ok_append {p a m} h x := by
    unfold Scanner.take at h ⊢
    split at h
    · cases h
    · rename_i hn
      rw [if_neg (by rw [List.length_append]; omega),
        List.take_append_of_le_length (Nat.not_lt.mp hn), h]
  err_append h _ := by unfold Scanner.take at h; split at h <;> cases h
  used_le h := by
    unfold Scanner.take at h
    split at h
    · cases h
    · cases h; omega

theorem ofOption (o : Option α) : Incremental (Scanner.ofOption o : Scanner β α) := by
  cases o with
  | none => exact fail
  | some a => exact pure a

theorem bind {f : Scanner β α} {k : α → Scanner β γ} (hf : Incremental f)
    (hk : ∀ a, Incremental (k a)) : Incremental (f >>= k) where
  ok_append {p c n} h x := by
    obtain ⟨a, i, j, h1, h2, rfl⟩ := bind_eq_ok.mp h
    refine bind_eq_ok.mpr ⟨a, i, j, hf.ok_append h1 x, ?_, rfl⟩
    rw [List.drop_append_of_le_length (hf.used_le h1)]
    exact (hk a).ok_append h2 x
  err_append {p} h x := by
    obtain h1 | ⟨a, i, h1, h2⟩ := bind_eq_err.mp h
    · exact bind_eq_err.mpr (.inl (hf.err_append h1 x))
    · refine bind_eq_err.mpr (.inr ⟨a, i, hf.ok_append h1 x, ?_⟩)
      rw [List.drop_append_of_le_length (hf.used_le h1)]
      exact (hk a).err_append h2 x
  used_le {p c n} h := by
    obtain ⟨a, i, j, h1, h2, rfl⟩ := bind_eq_ok.mp h
    have hi := hf.used_le h1
    have hj := (hk a).used_le h2
    rw [List.length_drop] at hj
    omega

theorem ite {c : Prop} [Decidable c] {f g : Scanner β α} (hf : Incremental f)
    (hg : Incremental g) : Incremental (if c then f else g) := by
  split
  · exact hf
  · exact hg

end Incremental

end Scanner

/-! ## Draining a buffer that grows -/

/-- How a read loop stands: it waits with what is left over, or it has ended. -/
inductive Ending (β : Type) where
  | waiting (pending : List β)
  | failed
  | stopped
  deriving DecidableEq, Repr

section Drain

variable {β α : Type} (f : Scanner β α) (stop : α → Bool)

/-- Scan value after value; `stop` says which values end the loop. -/
def drainFor : Nat → List β → List α × Ending β
  | 0, buf => ([], .waiting buf)
  | n + 1, buf =>
    if buf = [] then ([], .waiting [])
    else
      match f buf with
      | .more => ([], .waiting buf)
      | .err => ([], .failed)
      | .ok a used =>
        if stop a then ([a], .stopped)
        else
          let (as, e) := drainFor n (buf.drop used)
          (a :: as, e)

def drain (buf : List β) : List α × Ending β :=
  drainFor f stop buf.length buf

/-- One more chunk for a loop that stands at `s`. -/
def feed (s : List α × Ending β) (chunk : List β) : List α × Ending β :=
  match s.2 with
  | .waiting pending =>
    let (as, e) := drain f stop (pending ++ chunk)
    (s.1 ++ as, e)
  | _ => s

def feedAll (chunks : List (List β)) : List α × Ending β :=
  chunks.foldl (feed f stop) ([], .waiting [])

variable {f stop} (hpos : ∀ {p a n}, f p = .ok a n → 0 < n)

include hpos

/-- As many rounds as there are items are enough. -/
theorem drainFor_of_le {n : Nat} {buf : List β} (hn : buf.length ≤ n) :
    drainFor f stop n buf = drain f stop buf := by
  unfold drain
  induction n using Nat.strongRecOn generalizing buf with
  | _ n ih =>
    cases n with
    | zero => rw [Nat.le_zero.mp hn]
    | succ n =>
      cases buf with
      | nil => rfl
      | cons b buf =>
        rw [List.length_cons, drainFor, drainFor]
        cases h : f (b :: buf) with
        | more => rfl
        | err => rfl
        | ok a used =>
          have hu := hpos h
          have hle : ((b :: buf).drop used).length ≤ buf.length := by
            rw [List.length_drop, List.length_cons]
            omega
          rw [List.length_cons] at hn
          simp only [ih n (by omega) (Nat.le_trans hle (by omega)), ih buf.length (by omega) hle]

theorem drain_eq (buf : List β) :
    drain f stop buf =
      if buf = [] then ([], .waiting [])
      else
        match f buf with
        | .more => ([], .waiting buf)
        | .err => ([], .failed)
        | .ok a used =>
          if stop a then ([a], .stopped)
          else ((a :: (drain f stop (buf.drop used)).1), (drain f stop (buf.drop used)).2) := by
  cases buf with
  | nil => rfl
  | cons b buf =>
    rw [drain, List.length_cons, drainFor]
    cases h : f (b :: buf) with
    | more => rfl
    | err => rfl
    | ok a used =>
      have hu := hpos h
      have hle : ((b :: buf).drop used).length ≤ buf.length := by
        rw [List.length_drop, List.length_cons]
        omega
      simp only [drainFor_of_le hpos hle]

variable (hf : f.Incremental)

include hf

/-- Draining what has arrived first and the rest later is draining all of it. -/
theorem drain_append (buf x : List β) :
    feed f stop (drain f stop buf) x = drain f stop (buf ++ x) := by
  induction hlen : buf.length using Nat.strongRecOn generalizing buf with
  | _ n ih =>
    subst hlen
    cases buf with
    | nil => simp [drain, drainFor, feed]
    | cons b buf =>
      rw [drain_eq hpos (b :: buf), if_neg (by simp)]
      cases h : f (b :: buf) with
      | more => simp [feed]
      | err =>
        rw [drain_eq hpos (b :: buf ++ x), if_neg (by simp), hf.err_append h]
        rfl
      | ok a used =>
        rw [drain_eq hpos (b :: buf ++ x), if_neg (by simp), hf.ok_append h]
        have hu := hpos h
        have ih := ih ((b :: buf).drop used).length (by rw [List.length_drop, List.length_cons]; omega)
          _ rfl
        rw [← List.drop_append_of_le_length (hf.used_le h)] at ih
        by_cases hs : stop a = true
        · simp [hs, feed]
        · simp only [hs, ← ih]
          obtain ⟨as, e⟩ := drain f stop ((b :: buf).drop used)
          cases e <;> simp [feed]

theorem foldl_feed (chunks : List (List β)) (buf : List β) :
    chunks.foldl (feed f stop) (drain f stop buf) = drain f stop (buf ++ chunks.flatten) := by
  induction chunks generalizing buf with
  | nil => simp
  | cons c cs ih =>
    rw [List.foldl_cons, drain_append hpos hf, ih, List.flatten_cons, List.append_assoc]

/-- How the input was cut does not matter. -/
theorem feedAll_eq_drain (chunks : List (List β)) :
    feedAll f stop chunks = drain f stop chunks.flatten :=
  foldl_feed hpos hf chunks []

end Drain

end VoidCache
