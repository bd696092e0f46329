import VoidCache.Lib.Words
import VoidCache.Net.Auth
import VoidCache.Net.Parse

/-!
# The ACL file

`vc_auth_load` reads the users of the server from a file with one line for each: a name, the SHA-256
of the password in hexadecimal digits, and letters for the permissions. It reads with `fgets` into
a buffer of 256 bytes and takes the fields with `sscanf` and a width for each, without looking at
what the widths leave over, at the digits of the hash, or at what follows the third field. So the
users are those that the lines denote if no line up to that of the 64th user is of the kinds where
this matters, and in a file with fewer users that all fit the buffer only then.
-/
namespace VoidCache

def vcAuthUsernameMax : Nat := 64
def vcAuthHashHex : Nat := 64

/-! ## The loader -/

def hexDigit (b : UInt8) : Option UInt8 :=
  if 48 ≤ b ∧ b ≤ 57 then some (b - 48)
  else if 97 ≤ b ∧ b ≤ 102 then some (b - 87)
  else if 65 ≤ b ∧ b ≤ 70 then some (b - 55)
  else none

/-- What `sscanf(s, "%02x", &v)` leaves in `v`, which was 0, as a `uint8_t`. The two characters may be a
sign and one digit, and `0x` without a digit is 0. -/
def scan02x (s : List UInt8) : UInt8 :=
  match (s.dropWhile isSpace).take 2 with
  | [] => 0
  | [c] => (hexDigit c).getD 0
  | c :: d :: _ =>
    if c = 43 then (hexDigit d).getD 0
    else if c = 45 then 0 - (hexDigit d).getD 0
    else match hexDigit c with
      | none => 0
      | some hi => match hexDigit d with
        | none => hi
        | some lo => 16 * hi + lo

/-- The array that `%64s` has written a word to, with what stood in it before behind the word. -/
def wordBuffer (word stale : List UInt8) : List UInt8 := word ++ 0 :: stale.drop (word.length + 1)

def hexToBytes (hex : List UInt8) (nbytes : Nat) : List UInt8 :=
  (List.range nbytes).map fun i => scan02x (cstr (hex.drop (i * 2)))

/-- The `switch` over one letter. -/
def aclFlag (acl : UInt32) (b : UInt8) : UInt32 :=
  if b = 114 then acl ||| vcAclRead
  else if b = 119 then acl ||| vcAclWrite
  else if b = 97 then acl ||| vcAclAdmin
  else if b = 112 then acl ||| vcAclPubsub
  else if b = 42 then vcAclAll
  else acl

def parseAclFlags (flags : List UInt8) : UInt32 := flags.foldl aclFlag 0

/-- `sscanf(p, "%63s %64s %15s", user, pw_hex, flags)`, if it finds all three. -/
def scanFields (p : List UInt8) : Option (List UInt8 × List UInt8 × List UInt8) := do
  let (user, p) ← scanWord isSpace (vcAuthUsernameMax - 1) p
  let (pwHex, p) ← scanWord isSpace vcAuthHashHex p
  let (flags, _) ← scanWord isSpace 15 p
  pure (user, pwHex, flags)

/-- What the loop makes of the buffer that `fgets` has filled. -/
def aclLine (stale line : List UInt8) : Option VcUser :=
  let p := (cstr line).dropWhile isBlank
  if p.head? = some 35 ∨ p.head? = some 10 ∨ p.head? = none then none
  else (scanFields p).map fun (user, pwHex, flags) =>
    ⟨user, hexToBytes (wordBuffer pwHex stale) 32, parseAclFlags flags, true⟩

/-- The loop of `vc_auth_load`. `stale i` stands in the array for the hash at line `i`. Each `fgets` takes
at least one byte, so the length of the file is enough fuel. -/
def loadLoop (stale : Nat → List UInt8) : Nat → Nat → List UInt8 → List VcUser → List VcUser
  | 0, _, _, users => users
  | fuel + 1, i, s, users =>
    match fgets 10 256 s with
    | none => users
    | some (line, rest) =>
      if users.length < vcAuthMaxUsers then
        loadLoop stale fuel (i + 1) rest (users ++ (aclLine (stale i) line).toList)
      else users

theorem length_loadLoop (stale : Nat → List UInt8) {fuel i : Nat} {s : List UInt8} {users : List VcUser}
    (h : users.length ≤ vcAuthMaxUsers) : (loadLoop stale fuel i s users).length ≤ vcAuthMaxUsers := by
  fun_induction loadLoop stale fuel i s users with
  | case1 => exact h
  | case2 => exact h
  | case3 fuel i s users line rest hget hlt ih =>
    refine ih ?_
    have hone : (aclLine (stale i) line).toList.length ≤ 1 := Option.length_toList_le
    rw [List.length_append]
    omega
  | case4 => exact h

/-- What the path of the ACL file leads to. -/
inductive AclPath where
  | unset
  | missing
  | file (content : List UInt8)

def vcAuthLoad (stale : Nat → List UInt8) : AclPath → Option AuthDb
  | .unset => some ⟨[], false, Nat.zero_le _⟩
  | .missing => none
  | .file content =>
    some ⟨loadLoop stale (content.length + 1) 0 content [], true, length_loadLoop stale (Nat.zero_le _)⟩

/-! ## What the file says -/

def IsComment (line : List UInt8) : Prop := (line.dropWhile isBlank).head? = some 35

instance (line : List UInt8) : Decidable (IsComment line) := inferInstanceAs (Decidable (_ = _))

/-- Exactly 64 hexadecimal digits. -/
def IsHash (hash : List UInt8) : Prop := hash.length = 64 ∧ ∀ b ∈ hash, (hexDigit b).isSome

instance (hash : List UInt8) : Decidable (IsHash hash) := inferInstanceAs (Decidable (_ ∧ _))

/-- The 32 bytes, two digits for each. -/
def hashBytes (hash : List UInt8) : List UInt8 :=
  (List.range 32).map fun i =>
    16 * (hexDigit (hash.getD (2 * i) 0)).getD 0 + (hexDigit (hash.getD (2 * i + 1) 0)).getD 0

/-- The permissions that a letter names. -/
def letterAcl (b : UInt8) : UInt32 :=
  if b = 114 then vcAclRead
  else if b = 119 then vcAclWrite
  else if b = 97 then vcAclAdmin
  else if b = 112 then vcAclPubsub
  else if b = 42 then vcAclAll
  else 0

def flagsAcl (flags : List UInt8) : UInt32 := (flags.map letterAcl).foldl (· ||| ·) 0

/-- The user that a line denotes. -/
def lineUser (line : List UInt8) : Option VcUser :=
  if IsComment line then none
  else match words isSpace line with
    | [name, hash, flags] =>
      if name.length ≤ 63 ∧ IsHash hash then some ⟨name, hashBytes hash, flagsAcl flags, true⟩ else none
    | _ => none

/-! ## Fields and words -/

/-- The three fields, on the words of the line. -/
def cutFields (ws : List (List UInt8)) : Option (List UInt8 × List UInt8 × List UInt8) :=
  (cutWord 63 ws).bind fun user => (cutWord 64 user.2).bind fun pwHex => (cutWord 15 pwHex.2).bind fun flags =>
    some (user.1, pwHex.1, flags.1)

theorem scanFields_eq (p : List UInt8) : scanFields p = cutFields (words isSpace p) := by
  have hflags (user pwHex s : List UInt8) :
      ((scanWord isSpace 15 s).bind fun r => some (user, pwHex, r.1)) =
        (cutWord 15 (words isSpace s)).bind fun r => some (user, pwHex, r.1) :=
    bind_scanWord (by decide) (fun flags _ => some (user, pwHex, flags)) s
  have hhash (user s : List UInt8) :
      ((scanWord isSpace 64 s).bind fun r => (scanWord isSpace 15 r.2).bind fun f => some (user, r.1, f.1)) =
        (cutWord 64 (words isSpace s)).bind fun r => (cutWord 15 r.2).bind fun f => some (user, r.1, f.1) := by
    simp only [hflags]
    exact bind_scanWord (by decide)
      (fun pwHex ws => (cutWord 15 ws).bind fun f => some (user, pwHex, f.1)) s
  show ((scanWord isSpace 63 p).bind fun r => (scanWord isSpace 64 r.2).bind fun q =>
    (scanWord isSpace 15 q.2).bind fun f => some (r.1, q.1, f.1)) = _
  simp only [hhash]
  exact bind_scanWord (by decide) (fun user ws => (cutWord 64 ws).bind fun r =>
    (cutWord 15 r.2).bind fun f => some (user, r.1, f.1)) p

/-- Words of which no three fields are made. -/
def Silent : List (List UInt8) → Prop
  | [] => True
  | [a] => a.length ≤ 127
  | [a, b] => a.length ≤ 63 ∧ b.length ≤ 64
  | _ => False

theorem cutFields_eq_none_iff (ws : List (List UInt8)) : cutFields ws = none ↔ Silent ws := by
  -- a field is only missing when the widths before it have used up all words
  rcases ws with _ | ⟨a, _ | ⟨b, _ | ⟨c, ws⟩⟩⟩
  · simp [cutFields, cutWord, Silent]
  · by_cases h63 : a.length ≤ 63
    · have h127 : a.length ≤ 127 := by omega
      simp [cutFields, cutWord, Silent, h63, h127]
    · by_cases h127 : a.length ≤ 127 <;> simp [cutFields, cutWord, Silent, h63, h127]
  · by_cases h63 : a.length ≤ 63
    · by_cases h64 : b.length ≤ 64 <;> simp [cutFields, cutWord, Silent, h63, h64]
    · by_cases h127 : a.length ≤ 127 <;> simp [cutFields, cutWord, Silent, h63, h127]
  · by_cases h63 : a.length ≤ 63
    · by_cases h64 : b.length ≤ 64 <;> simp [cutFields, cutWord, Silent, h63, h64]
    · by_cases h127 : a.length ≤ 127 <;> simp [cutFields, cutWord, Silent, h63, h127]

theorem cutFields_of_fit {name hash flags : List UInt8} (hname : name.length ≤ 63) (hhash : hash.length = 64) :
    cutFields [name, hash, flags] = some (name, hash, flags.take 15) := by
  simp [cutFields, cutWord, hname, hhash, List.take_of_length_le]

/-! ## Permissions and digits -/

theorem letterAcl_le_all (b : UInt8) : letterAcl b ||| vcAclAll = vcAclAll := by
  unfold letterAcl
  split_ifs <;> decide

/-- The star sets all permissions, which is adding them. -/
theorem aclFlag_eq {acl : UInt32} (hacl : acl ||| vcAclAll = vcAclAll) (b : UInt8) :
    aclFlag acl b = acl ||| letterAcl b := by
  unfold aclFlag letterAcl
  split_ifs
  all_goals first | rfl | exact hacl.symm | exact (UInt32.or_zero).symm

theorem parseAclFlags_eq (flags : List UInt8) : parseAclFlags flags = flagsAcl flags := by
  have hgeneral (acl : UInt32) (hacl : acl ||| vcAclAll = vcAclAll) :
      flags.foldl aclFlag acl = (flags.map letterAcl).foldl (· ||| ·) acl := by
    induction flags generalizing acl with
    | nil => rfl
    | cons b flags ih =>
      rw [List.foldl_cons, List.map_cons, List.foldl_cons, aclFlag_eq hacl]
      exact ih _ (by rw [UInt32.or_assoc, letterAcl_le_all, hacl])
  exact hgeneral 0 (by decide)

theorem hexDigit_plain {b : UInt8} (h : (hexDigit b).isSome) :
    b ≠ 0 ∧ isSpace b = false ∧ b ≠ 43 ∧ b ≠ 45 := by
  unfold hexDigit at h
  unfold isSpace
  simp only [UInt8.le_iff_toNat_le, ← UInt8.toNat_inj, ne_eq, decide_eq_false_iff_not] at h ⊢
  grind

theorem scan02x_digits {c d : UInt8} (hc : (hexDigit c).isSome) (hd : (hexDigit d).isSome) (s : List UInt8) :
    scan02x (c :: d :: s) = 16 * (hexDigit c).getD 0 + (hexDigit d).getD 0 := by
  obtain ⟨-, hspace, hplus, hminus⟩ := hexDigit_plain hc
  obtain ⟨hi, hhi⟩ := Option.isSome_iff_exists.mp hc
  obtain ⟨lo, hlo⟩ := Option.isSome_iff_exists.mp hd
  rw [scan02x, List.dropWhile_cons_of_neg (by simp [hspace])]
  simp [hplus, hminus, hhi, hlo]

theorem hexToBytes_eq {hash : List UInt8} (h : IsHash hash) (stale : List UInt8) :
    hexToBytes (wordBuffer hash stale) 32 = hashBytes hash := by
  refine List.map_congr_left fun i hi => ?_
  have hi := List.mem_range.mp hi
  have hzero : (0 : UInt8) ∉ hash := fun hmem => (hexDigit_plain (h.2 0 hmem)).1 rfl
  have hdrop : (wordBuffer hash stale).drop (i * 2) =
      hash.drop (i * 2) ++ 0 :: stale.drop (hash.length + 1) := by
    rw [wordBuffer, List.drop_append_of_le_length (by rw [h.1]; omega)]
  have hlt : i * 2 + 1 < hash.length := by rw [h.1]; omega
  have htwo : hash.drop (i * 2) = hash.getD (2 * i) 0 :: hash.getD (2 * i + 1) 0 :: hash.drop (i * 2 + 2) := by
    rw [List.drop_eq_getElem_cons (Nat.lt_of_succ_lt hlt), List.drop_eq_getElem_cons hlt, Nat.mul_comm 2 i,
      List.getD_eq_getElem _ _ (Nat.lt_of_succ_lt hlt), List.getD_eq_getElem _ _ hlt]
  have hdigit (j : Nat) (hj : j < hash.length) : (hexDigit (hash.getD j 0)).isSome := by
    rw [List.getD_eq_getElem _ _ hj]
    exact h.2 _ (List.getElem_mem hj)
  rw [hdrop, cstr_append_zero fun hmem => hzero (List.mem_of_mem_drop hmem), htwo,
    scan02x_digits (hdigit _ (by omega)) (hdigit _ (by omega))]

/-! ## One line -/

section Line

variable {line : List UInt8} {stale : List UInt8}

/-- The user that the three fields make. -/
def fieldsUser (stale : List UInt8) (fields : List UInt8 × List UInt8 × List UInt8) : VcUser :=
  ⟨fields.1, hexToBytes (wordBuffer fields.2.1 stale) 32, parseAclFlags fields.2.2, true⟩

/-- A buffer of which no user is made. -/
def Quiet (b : List UInt8) : Prop := IsComment (cstr b) ∨ Silent (words isSpace (cstr b))

theorem words_dropWhile_isBlank (s : List UInt8) : words isSpace (s.dropWhile isBlank) = words isSpace s := by
  refine words_dropWhile_of_imp (fun b hb => ?_) s
  simp only [isBlank, isSpace, decide_eq_true_eq] at hb ⊢
  rcases hb with rfl | rfl <;> decide

/-- What the loop makes of a buffer, where a newline can only stand at the end. -/
theorem aclLine_eq {b : List UInt8} (hnl : 10 ∉ b.dropLast) :
    aclLine stale b =
      if IsComment (cstr b) then none else (cutFields (words isSpace (cstr b))).map (fieldsUser stale) := by
  have hscan : scanFields ((cstr b).dropWhile isBlank) = cutFields (words isSpace (cstr b)) := by
    rw [scanFields_eq, words_dropWhile_isBlank]
  obtain ⟨p, hp⟩ : ∃ p, (cstr b).dropWhile isBlank = p := ⟨_, rfl⟩
  have hcomment : IsComment (cstr b) ↔ p.head? = some 35 := by rw [IsComment, hp]
  simp only [aclLine, hscan, hcomment]
  rw [hp]
  rcases p with _ | ⟨c, p⟩
  · have hnone : words isSpace (cstr b) = [] := by rw [← words_dropWhile_isBlank, hp, words_nil]
    simp [hnone, cutFields, cutWord]
  · by_cases hc : c = 10
    · -- the newline is the last byte, so there are no words
      subst hc
      obtain ⟨t, ht⟩ : cstr b <+: b := List.takeWhile_prefix _
      obtain ⟨w, hw⟩ := List.dropWhile_suffix (l := cstr b) isBlank
      have hlast : p ++ t = [] := by
        rw [← ht, ← hw, hp, List.append_assoc, List.cons_append] at hnl
        exact eq_nil_of_notMem_dropLast hnl
      have hnone : words isSpace (cstr b) = [] := by
        rw [← words_dropWhile_isBlank, hp, (List.append_eq_nil_iff.mp hlast).1]
        rfl
      simp [hnone, cutFields, cutWord]
    · simp only [List.head?_cons, Option.some.injEq, hc, reduceCtorEq, or_false]
      rfl

theorem aclLine_eq_none_iff {b : List UInt8} (hnl : 10 ∉ b.dropLast) : aclLine stale b = none ↔ Quiet b := by
  rw [aclLine_eq hnl, Quiet, ← cutFields_eq_none_iff]
  by_cases hcomment : IsComment (cstr b) <;> simp [hcomment]

/-- A line that denotes a user has three words. -/
theorem words_of_lineUser {u : VcUser} (h : lineUser line = some u) :
    ¬ IsComment line ∧ ∃ name hash flags, words isSpace line = [name, hash, flags] ∧ name.length ≤ 63 ∧
      IsHash hash ∧ u = ⟨name, hashBytes hash, flagsAcl flags, true⟩ := by
  unfold lineUser at h
  split at h
  · cases h
  · next hcomment =>
    split at h
    · next name hash flags hws =>
      split at h
      · next hfit => exact ⟨hcomment, name, hash, flags, hws, hfit.1, hfit.2, (Option.some.inj h).symm⟩
      · cases h
    · cases h

theorem isComment_concat_iff (line : List UInt8) : IsComment (line ++ [10]) ↔ IsComment line := by
  rw [IsComment, IsComment, List.dropWhile_append]
  cases hp : line.dropWhile isBlank with
  | nil => decide
  | cons b p => simp

/-- A buffer that holds three words, of which a user is made with the permissions of the first 15
letters. -/
def Gives (b : List UInt8) (u : VcUser) : Prop :=
  ¬ IsComment (cstr b) ∧ ∃ name hash flags, words isSpace (cstr b) = [name, hash, flags] ∧
    name.length ≤ 63 ∧ IsHash hash ∧ u = ⟨name, hashBytes hash, flagsAcl (flags.take 15), true⟩

theorem Gives.aclLine {b : List UInt8} {u : VcUser} (h : Gives b u) (hnl : 10 ∉ b.dropLast) :
    aclLine stale b = some u := by
  obtain ⟨hcomment, name, hash, flags, hws, hname, hhash, rfl⟩ := h
  rw [aclLine_eq hnl, if_neg hcomment, hws, cutFields_of_fit hname hhash.1, Option.map_some, fieldsUser,
    hexToBytes_eq hhash, parseAclFlags_eq]

/-- A line of three words that fits the buffer gives a user. -/
theorem gives_of_words (hnul : 0 ∉ line) (hcomment : ¬ IsComment line) {name hash flags : List UInt8}
    (hws : words isSpace line = [name, hash, flags]) (hname : name.length ≤ 63) (hhash : IsHash hash) :
    Gives (line ++ [10]) ⟨name, hashBytes hash, flagsAcl (flags.take 15), true⟩ := by
  have hcstr : cstr (line ++ [10]) = line ++ [10] := cstr_eq_self (by simpa using hnul)
  have hplain : ¬ IsComment (line ++ [10]) := mt (isComment_concat_iff line).mp hcomment
  refine ⟨by rwa [hcstr], name, hash, flags, ?_, hname, hhash, rfl⟩
  rw [hcstr, words_concat_sep (by decide), hws]

end Line

/-! ## The buffers of a line -/

/-- What the loop makes of the buffers, from call `i` on. -/
def usersOf (stale : Nat → List UInt8) : Nat → List (List UInt8) → List VcUser
  | _, [] => []
  | i, b :: bs => (aclLine (stale i) b).toList ++ usersOf stale (i + 1) bs

/-- The buffers that `fgets` fills with a line. -/
def lineBuffers (line : List UInt8) : List (List UInt8) := pieces 255 (line ++ [10])

/-- A line of which the loop, with room for `room` more users, makes what it denotes: no user, and
none is made of its buffers; or a user that one of its buffers gives, none being made of the buffers
before it, nor of those behind it unless the user is the last that there is room for. -/
def WellRead (room : Nat) (line : List UInt8) : Prop :=
  (lineUser line = none ∧ ∀ b ∈ lineBuffers line, Quiet b) ∨
  ∃ u before b behind, lineUser line = some u ∧ lineBuffers line = before ++ b :: behind ∧
    (∀ q ∈ before, Quiet q) ∧ Gives b u ∧ (1 < room → ∀ q ∈ behind, Quiet q)

section Buffers

variable {stale : Nat → List UInt8} {i : Nat} {line : List UInt8}

theorem usersOf_append (bs cs : List (List UInt8)) :
    usersOf stale i (bs ++ cs) = usersOf stale i bs ++ usersOf stale (i + bs.length) cs := by
  induction bs generalizing i with
  | nil => rfl
  | cons b bs ih =>
    rw [List.cons_append, usersOf, usersOf, ih, List.length_cons, List.append_assoc, Nat.add_right_comm]
    rfl

theorem usersOf_eq_nil_iff {bs : List (List UInt8)} (hnl : ∀ b ∈ bs, 10 ∉ b.dropLast) :
    usersOf stale i bs = [] ↔ ∀ b ∈ bs, Quiet b := by
  induction bs generalizing i with
  | nil => simp [usersOf]
  | cons b bs ih =>
    obtain ⟨hb, hbs⟩ := List.forall_mem_cons.mp hnl
    rw [usersOf, List.append_eq_nil_iff, ih hbs, List.forall_mem_cons, ← @aclLine_eq_none_iff (stale i) b hb,
      Option.toList_eq_nil_iff]

theorem nl_of_mem_lineBuffers (hnl : 10 ∉ line) : ∀ b ∈ lineBuffers line, 10 ∉ b.dropLast :=
  fun _ hb => notMem_dropLast_of_pieces (by simpa using hnl) hb

theorem lineBuffers_of_le (hlen : line.length ≤ 254) : lineBuffers line = [line ++ [10]] :=
  pieces_of_le (by simp) (by simp; omega)

/-- What a line that denotes a user, and fits the buffer, gives. -/
theorem usersOf_of_lineUser {u : VcUser} (hnl : 10 ∉ line) (hlen : line.length ≤ 254) (hnul : 0 ∉ line)
    (hu : lineUser line = some u) :
    ∃ v, usersOf stale i (lineBuffers line) = [v] ∧ Gives (line ++ [10]) v := by
  obtain ⟨hcomment, name, hash, flags, hws, hname, hhash, -⟩ := words_of_lineUser hu
  have hgives := gives_of_words hnul hcomment hws hname hhash
  refine ⟨_, ?_, hgives⟩
  rw [lineBuffers_of_le hlen, usersOf, usersOf, List.append_nil, hgives.aclLine (by simpa using hnl)]
  rfl

/-- What the loop makes of a line and of what follows it, as far as there is room. -/
theorem WellRead.take {room : Nat} (h : WellRead room line) (hroom : 0 < room) (hnl : 10 ∉ line)
    (cs : List (List UInt8)) :
    (usersOf stale i (lineBuffers line ++ cs)).take room = (lineUser line).toList ++
      (usersOf stale (i + (lineBuffers line).length) cs).take (room - (lineUser line).toList.length) := by
  have hnls := nl_of_mem_lineBuffers hnl
  rcases h with ⟨hnone, hquiet⟩ | ⟨u, before, b, behind, hu, hbuffers, hbefore, hgives, hbehind⟩
  · rw [hnone, usersOf_append, (usersOf_eq_nil_iff hnls).mpr hquiet]
    rfl
  · rw [hbuffers] at hnls
    simp only [List.forall_mem_append, List.forall_mem_cons] at hnls
    obtain ⟨hnlbefore, hnlb, hnlbehind⟩ := hnls
    obtain ⟨room, rfl⟩ := Nat.exists_eq_succ_of_ne_zero hroom.ne'
    rw [hu, usersOf_append, hbuffers, usersOf_append, (usersOf_eq_nil_iff hnlbefore).mpr hbefore, usersOf,
      hgives.aclLine hnlb]
    simp only [Option.toList_some, List.nil_append, List.cons_append, List.take_succ_cons,
      List.length_singleton, Nat.succ_sub_one, List.cons.injEq, true_and]
    rcases Nat.eq_zero_or_pos room with rfl | hpos
    · rfl
    · rw [(usersOf_eq_nil_iff hnlbehind).mpr (hbehind (by omega)), List.nil_append]

/-- A line that denotes a user, and fits the buffer, gives a user as well. -/
theorem length_lineUser_le (hnl : 10 ∉ line) (hfits : (lineUser line).isSome → line.length ≤ 254 ∧ 0 ∉ line) :
    (lineUser line).toList.length ≤ (usersOf stale i (lineBuffers line)).length := by
  cases hu : lineUser line with
  | none => exact Nat.zero_le _
  | some u =>
    obtain ⟨hlen, hnul⟩ := hfits (by rw [hu]; rfl)
    obtain ⟨v, hv, -⟩ := @usersOf_of_lineUser stale i line u hnl hlen hnul hu
    rw [hv]
    exact Nat.le_refl _

theorem wellRead_of_usersOf (hnl : 10 ∉ line) (hfits : (lineUser line).isSome → line.length ≤ 254 ∧ 0 ∉ line)
    (heq : usersOf stale i (lineBuffers line) = (lineUser line).toList) (room : Nat) : WellRead room line := by
  cases hu : lineUser line with
  | none =>
    rw [hu] at heq
    exact .inl ⟨hu, (usersOf_eq_nil_iff (nl_of_mem_lineBuffers hnl)).mp heq⟩
  | some u =>
    obtain ⟨hlen, hnul⟩ := hfits (by rw [hu]; rfl)
    obtain ⟨v, hv, hgives⟩ := @usersOf_of_lineUser stale i line u hnl hlen hnul hu
    rw [hv, hu] at heq
    obtain rfl : v = u := List.singleton_inj.mp heq
    refine .inr ⟨v, [], line ++ [10], [], hu, lineBuffers_of_le hlen, ?_, hgives, ?_⟩
    · exact List.forall_mem_nil _
    · exact fun _ => List.forall_mem_nil _

end Buffers

/-! ## The whole file -/

theorem loadLoop_nil (stale : Nat → List UInt8) (fuel i : Nat) (users : List VcUser) :
    loadLoop stale fuel i [] users = users := by
  cases fuel <;> rfl

/-- The users of a file are those of the buffers. -/
theorem loadLoop_eq (stale : Nat → List UInt8) {fuel i : Nat} {content : List UInt8} {users : List VcUser}
    (hfuel : content.length < fuel) (hlen : users.length ≤ vcAuthMaxUsers) :
    loadLoop stale fuel i content users =
      (users ++ usersOf stale i (buffers 10 256 content)).take vcAuthMaxUsers := by
  induction fuel generalizing i content users with
  | zero => omega
  | succ fuel ih =>
    by_cases hempty : content = []
    · subst hempty
      rw [loadLoop_nil, buffers_of_notMem List.not_mem_nil, pieces_nil, usersOf, List.append_nil,
        List.take_of_length_le hlen]
    · obtain ⟨b, rest, hget, hshorter, hbuffers⟩ :=
        @fgets_buffers UInt8 _ 10 256 (by decide) content hempty
      rw [loadLoop, hget, hbuffers, usersOf]
      by_cases hlt : users.length < vcAuthMaxUsers
      · have hone : (aclLine (stale i) b).toList.length ≤ 1 := Option.length_toList_le
        simp only [if_pos hlt]
        rw [ih (by omega) (by rw [List.length_append]; omega), List.append_assoc]
      · simp only [if_neg hlt]
        rw [List.take_append_of_le_length (by omega), List.take_of_length_le hlen]

/-- Two lists in two parts each, where neither part of the first is shorter. -/
theorem append_eq_append_of_length_le {α : Type} {a b c d : List α} (hb : b.length ≤ a.length)
    (hd : d.length ≤ c.length) (heq : a ++ c = b ++ d) : a = b ∧ c = d := by
  refine List.append_inj heq ?_
  have hlen := congrArg List.length heq
  rw [List.length_append, List.length_append] at hlen
  omega

/-- The lines that are read while there is room for `room` more users, and what follows the last
newline. -/
def LinesRead (rest : List (List UInt8)) : Nat → List (List UInt8) → Prop
  | room, [] => 0 < room → ∀ b ∈ rest, Quiet b
  | room, l :: ls => (0 < room → WellRead room l) ∧ LinesRead rest (room - (lineUser l).toList.length) ls

section Lines

variable {stale : Nat → List UInt8} {i room : Nat} {ls t : List (List UInt8)}

theorem filterMap_lineUser_cons (l : List UInt8) :
    (l :: ls).filterMap lineUser = (lineUser l).toList ++ ls.filterMap lineUser := by
  rw [List.filterMap_eq_flatMap_toList, List.filterMap_eq_flatMap_toList, List.flatMap_cons]

theorem LinesRead.take_usersOf (hread : LinesRead t room ls) (hls : ∀ l ∈ ls, 10 ∉ l)
    (ht : ∀ b ∈ t, 10 ∉ b.dropLast) :
    (usersOf stale i (ls.flatMap lineBuffers ++ t)).take room = (ls.filterMap lineUser).take room := by
  -- on the lines, the room shrinking with each user; without room nothing is asked of the others
  induction ls generalizing i room with
  | nil =>
    rcases Nat.eq_zero_or_pos room with rfl | hroom
    · rfl
    · exact congrArg (List.take room) ((usersOf_eq_nil_iff ht).mpr (hread hroom))
  | cons l ls ih =>
    obtain ⟨hl, hls⟩ := List.forall_mem_cons.mp hls
    rcases Nat.eq_zero_or_pos room with rfl | hroom
    · rw [List.take_zero, List.take_zero]
    · have hone : (lineUser l).toList.length ≤ room := Option.length_toList_le.trans hroom
      rw [List.flatMap_cons, List.append_assoc, (hread.1 hroom).take hroom hl, ih hread.2 hls,
        filterMap_lineUser_cons, List.take_append, List.take_of_length_le hone]

/-- When the lines that denote users fit the buffer, the loop makes at least as many users as
they denote. -/
theorem length_filterMap_le_usersOf (hls : ∀ l ∈ ls, 10 ∉ l)
    (hfits : ∀ l ∈ ls, (lineUser l).isSome → l.length ≤ 254 ∧ 0 ∉ l) :
    (ls.filterMap lineUser).length ≤ (usersOf stale i (ls.flatMap lineBuffers ++ t)).length := by
  induction ls generalizing i with
  | nil => exact Nat.zero_le _
  | cons l ls ih =>
    obtain ⟨hl, hls⟩ := List.forall_mem_cons.mp hls
    obtain ⟨hlfits, hfits⟩ := List.forall_mem_cons.mp hfits
    have hline := @length_lineUser_le stale i l hl hlfits
    have hrest := @ih (i + (lineBuffers l).length) hls hfits
    rw [filterMap_lineUser_cons, List.flatMap_cons, List.append_assoc, usersOf_append, List.length_append,
      List.length_append]
    omega

/-- Then nothing that the loop makes of one line can stand for another. -/
theorem linesRead_of_usersOf (hls : ∀ l ∈ ls, 10 ∉ l) (ht : ∀ b ∈ t, 10 ∉ b.dropLast)
    (hfits : ∀ l ∈ ls, (lineUser l).isSome → l.length ≤ 254 ∧ 0 ∉ l)
    (heq : usersOf stale i (ls.flatMap lineBuffers ++ t) = ls.filterMap lineUser) : LinesRead t room ls := by
  induction ls generalizing i room with
  | nil => exact fun _ => (usersOf_eq_nil_iff ht).mp heq
  | cons l ls ih =>
    obtain ⟨hl, hls⟩ := List.forall_mem_cons.mp hls
    obtain ⟨hlfits, hfits⟩ := List.forall_mem_cons.mp hfits
    have hline := @length_lineUser_le stale i l hl hlfits
    have hrest := @length_filterMap_le_usersOf stale (i + (lineBuffers l).length) ls t hls hfits
    rw [List.flatMap_cons, List.append_assoc, usersOf_append, filterMap_lineUser_cons] at heq
    obtain ⟨hhead, htail⟩ := append_eq_append_of_length_le hline hrest heq
    exact ⟨fun _ => wellRead_of_usersOf hl hlfits hhead room, ih hls hfits htail⟩

end Lines

/-- A file that the loop reads as it stands, up to the line of the 64th user. -/
structure FileRead (content : List UInt8) : Prop where
  lines : LinesRead (pieces 255 (lastLine 10 content)) 64 (endedLines 10 content)

/-- The users that the lines of a file denote. -/
def fileUsers (content : List UInt8) : List VcUser := (endedLines 10 content).filterMap lineUser

/-- The users of a file are those that its lines denote, in order and up to the first 64, if every
line up to that of the 64th user is well read and, with fewer users, nothing is made of what follows
the last newline. Only then, if the lines that denote a user, less than 64, fit the buffer and have no
zero byte: then the loop makes at least as many users as the lines denote. -/
theorem acl_file_iff (stale : Nat → List UInt8) (content : List UInt8) :
    (FileRead content →
      (vcAuthLoad stale (.file content)).map AuthDb.users = some ((fileUsers content).take 64)) ∧
    ((∀ l ∈ endedLines 10 content, (lineUser l).isSome → l.length ≤ 254 ∧ 0 ∉ l) →
      (fileUsers content).length < 64 →
      ((vcAuthLoad stale (.file content)).map AuthDb.users = some ((fileUsers content).take 64) ↔
        FileRead content)) := by
  obtain ⟨hlines, hlast⟩ := @notMem_of_lines UInt8 _ 10 content
  have hrest : ∀ b ∈ pieces 255 (lastLine 10 content), 10 ∉ b.dropLast := fun b hb =>
    notMem_dropLast_of_pieces (fun h => hlast (List.mem_of_mem_dropLast h)) hb
  have hload : (vcAuthLoad stale (.file content)).map AuthDb.users =
      some ((usersOf stale 0 (buffers 10 256 content)).take 64) :=
    congrArg some (loadLoop_eq stale (Nat.lt_succ_self _) (Nat.zero_le _))
  have hwell (hread : FileRead content) :
      (usersOf stale 0 (buffers 10 256 content)).take 64 = (fileUsers content).take 64 :=
    hread.lines.take_usersOf hlines hrest
  rw [hload, Option.some.injEq]
  refine ⟨hwell, fun hfits hfew => ⟨fun heq => ?_, hwell⟩⟩
  -- fewer than 64 users are loaded, so these are all that the loop would make
  rw [List.take_of_length_le hfew.le] at heq
  have hall : (usersOf stale 0 (buffers 10 256 content)).length ≤ 64 := by
    have hlen := congrArg List.length heq
    rw [List.length_take] at hlen
    omega
  rw [List.take_of_length_le hall] at heq
  exact ⟨linesRead_of_usersOf hlines hrest hfits heq⟩

/-- The line of a user, with blanks behind it. -/
def bobLine (blanks : Nat) : List UInt8 :=
  str "bob " ++ List.replicate 64 97 ++ str " rw" ++ List.replicate blanks 32

def bobUser : VcUser := ⟨str "bob", List.replicate 32 170, vcAclRead ||| vcAclWrite, true⟩

/-- A comment, and a user. -/
def bobFile : List UInt8 := str "# users\n" ++ bobLine 0 ++ [10]

/-- The line of a user that is too long for the buffer, 63 that fit it, and one whose second word is
not a hash. -/
def crowdFile : List UInt8 :=
  bobLine 300 ++ [10] ++ (List.replicate 63 (bobLine 0 ++ [10])).flatten ++ str "bob xyz r\n"

theorem bobLine_read (room : Nat) : WellRead room (bobLine 0) ∧ WellRead room (bobLine 300) := by
  have hgives : Gives (bobLine 0 ++ [10]) bobUser :=
    ⟨by decide +kernel, str "bob", List.replicate 64 97, str "rw", by decide +kernel⟩
  have hlong : Gives ((bobLine 300 ++ [10]).take 255) bobUser :=
    ⟨by decide +kernel, str "bob", List.replicate 64 97, str "rw", by decide +kernel⟩
  have hbuffers : lineBuffers (bobLine 300) = [(bobLine 300 ++ [10]).take 255, (bobLine 300 ++ [10]).drop 255] := by
    rw [lineBuffers, pieces_eq_cons (by decide) (by decide +kernel),
      pieces_of_le (by decide +kernel) (by decide +kernel)]
  refine ⟨.inr ⟨bobUser, [], _, [], by decide +kernel, lineBuffers_of_le (by decide +kernel),
    List.forall_mem_nil _, hgives, fun _ => List.forall_mem_nil _⟩, .inr ⟨bobUser, [], _, _, by decide +kernel,
    hbuffers, List.forall_mem_nil _, hlong, fun _ => ?_⟩⟩
  exact List.forall_mem_singleton.mpr (.inr (by
    have hws : words isSpace (cstr ((bobLine 300 ++ [10]).drop 255)) = [] := by decide +kernel
    rw [hws]
    trivial))

theorem linesRead_zero (t ls : List (List UInt8)) : LinesRead t 0 ls := by
  induction ls with
  | nil => exact fun h => absurd h (Nat.lt_irrefl 0)
  | cons l ls ih => exact ⟨fun h => absurd h (Nat.lt_irrefl 0), by rwa [Nat.zero_sub]⟩

theorem bobFile_read : FileRead bobFile := by
  have hlines : endedLines 10 bobFile = [str "# users", bobLine 0] := by decide +kernel
  have hlast : lastLine 10 bobFile = [] := by decide +kernel
  have hcomment : WellRead 64 (str "# users") := by
    refine .inl ⟨by decide +kernel, ?_⟩
    rw [lineBuffers_of_le (by decide +kernel)]
    exact List.forall_mem_singleton.mpr (.inl (by decide +kernel))
  constructor
  rw [hlines, hlast, pieces_nil]
  exact ⟨fun _ => hcomment, fun _ => (bobLine_read _).1, fun _ => List.forall_mem_nil _⟩

theorem crowdFile_read : FileRead crowdFile := by
  have hlines : endedLines 10 crowdFile = bobLine 300 :: (List.replicate 63 (bobLine 0) ++ [str "bob xyz r"]) := by
    decide +kernel
  have hlen (blanks : Nat) (h : lineUser (bobLine blanks) = some bobUser) :
      (lineUser (bobLine blanks)).toList.length = 1 := by rw [h]; rfl
  have hcrowd (n : Nat) (ls t : List (List UInt8)) : LinesRead t n (List.replicate n (bobLine 0) ++ ls) := by
    induction n with
    | zero => exact linesRead_zero t ls
    | succ n ih => exact ⟨fun _ => (bobLine_read _).1, by rwa [hlen 0 (by decide +kernel)]⟩
  constructor
  rw [hlines]
  exact ⟨fun _ => (bobLine_read _).2, by rw [hlen 300 (by decide +kernel)]; exact hcrowd 63 _ _⟩

/-- The file is loaded as it reads; and so are 64 users before a line that would make one too many. -/
theorem bob_loaded :
    FileRead bobFile ∧
    (∀ l ∈ endedLines 10 bobFile, (lineUser l).isSome → l.length ≤ 254 ∧ 0 ∉ l) ∧
    (fileUsers bobFile).length < 64 ∧
    (vcAuthLoad (fun _ => List.replicate 65 0) (.file bobFile)).map AuthDb.users = some [bobUser] ∧
    FileRead crowdFile ∧
    (vcAuthLoad (fun _ => List.replicate 65 0) (.file crowdFile)).map AuthDb.users =
      some (List.replicate 64 bobUser) := by
  have hfits : ∀ l ∈ endedLines 10 bobFile, (lineUser l).isSome → l.length ≤ 254 ∧ 0 ∉ l := by
    decide +kernel
  have hfew : (fileUsers bobFile).length < 64 := by decide +kernel
  have husers : (fileUsers bobFile).take 64 = [bobUser] := by decide +kernel
  have hcrowd : (fileUsers crowdFile).take 64 = List.replicate 64 bobUser := by decide +kernel
  refine ⟨bobFile_read, hfits, hfew, ?_, crowdFile_read, ?_⟩
  · rw [← husers]
    exact ((acl_file_iff (fun _ => List.replicate 65 0) bobFile).2 hfits hfew).mpr bobFile_read
  · rw [← hcrowd]
    exact (acl_file_iff (fun _ => List.replicate 65 0) crowdFile).1 crowdFile_read

/-- A comment of 255 bytes before something that looks like a user, all in one line. -/
def longComment : List UInt8 :=
  35 :: List.replicate 254 120 ++ str "eve " ++ List.replicate 64 48 ++ str " *\n"

/-- The rest of a long comment makes an administrator; and three words make a user even when the
second is not a hash. -/
theorem long_comment_admin :
    fileUsers longComment = [] ∧
    (vcAuthLoad (fun _ => List.replicate 65 0) (.file longComment)).map AuthDb.users =
      some [⟨str "eve", List.replicate 32 0, vcAclAll, true⟩] ∧
    fileUsers (str "bob xyz r\n") = [] ∧
    (vcAuthLoad (fun _ => List.replicate 65 0) (.file (str "bob xyz r\n"))).map AuthDb.users =
      some [⟨str "bob", List.replicate 32 0, vcAclRead, true⟩] := by
  decide +kernel

end VoidCache
