import VoidCache.Lib.CText

/-!
# Users, passwords and permissions

The in-memory user table of the server, the password hash `vc_sha256` as the code computes it
(its scratch buffer is taken to be allocated), `vc_auth_verify` and `vc_acl_check`.
-/
namespace VoidCache

/-! ## SHA-256 -/

def ror32 (x n : UInt32) : UInt32 := (x >>> n) ||| (x <<< (32 - n))

def ch (x y z : UInt32) : UInt32 := (x &&& y) ^^^ (~~~x &&& z)
def maj (x y z : UInt32) : UInt32 := (x &&& y) ^^^ (x &&& z) ^^^ (y &&& z)
def ep0 (x : UInt32) : UInt32 := ror32 x 2 ^^^ ror32 x 13 ^^^ ror32 x 22
def ep1 (x : UInt32) : UInt32 := ror32 x 6 ^^^ ror32 x 11 ^^^ ror32 x 25
def sig0 (x : UInt32) : UInt32 := ror32 x 7 ^^^ ror32 x 18 ^^^ (x >>> 3)
def sig1 (x : UInt32) : UInt32 := ror32 x 17 ^^^ ror32 x 19 ^^^ (x >>> 10)

def k256 : List UInt32 :=
  [0x428a2f98, 0x71374491, 0xb5c0fbcf, 0xe9b5dba5, 0x3956c25b, 0x59f111f1, 0x923f82a4, 0xab1c5ed5,
   0xd807aa98, 0x12835b01, 0x243185be, 0x550c7dc3, 0x72be5d74, 0x80deb1fe, 0x9bdc06a7, 0xc19bf174,
   0xe49b69c1, 0xefbe4786, 0x0fc19dc6, 0x240ca1cc, 0x2de92c6f, 0x4a7484aa, 0x5cb0a9dc, 0x76f988da,
   0x983e5152, 0xa831c66d, 0xb00327c8, 0xbf597fc7, 0xc6e00bf3, 0xd5a79147, 0x06ca6351, 0x14292967,
   0x27b70a85, 0x2e1b2138, 0x4d2c6dfc, 0x53380d13, 0x650a7354, 0x766a0abb, 0x81c2c92e, 0x92722c85,
   0xa2bfe8a1, 0xa81a664b, 0xc24b8b70, 0xc76c51a3, 0xd192e819, 0xd6990624, 0xf40e3585, 0x106aa070,
   0x19a4c116, 0x1e376c08, 0x2748774c, 0x34b0bcb5, 0x391c0cb3, 0x4ed8aa4a, 0x5b9cca4f, 0x682e6ff3,
   0x748f82ee, 0x78a5636f, 0x84c87814, 0x8cc70208, 0x90befffa, 0xa4506ceb, 0xbef9a3f7, 0xc67178f2]

/-- The eight words of the hash state. -/
structure ShaState where
  a : UInt32
  b : UInt32
  c : UInt32
  d : UInt32
  e : UInt32
  f : UInt32
  g : UInt32
  h : UInt32
  deriving DecidableEq

def ShaState.init : ShaState :=
  ⟨0x6a09e667, 0xbb67ae85, 0x3c6ef372, 0xa54ff53a, 0x510e527f, 0x9b05688c, 0x1f83d9ab, 0x5be0cd19⟩

def ShaState.words (s : ShaState) : List UInt32 := [s.a, s.b, s.c, s.d, s.e, s.f, s.g, s.h]

/-- One 32-bit word, most significant byte first. -/
def beWord (p : List UInt8) (i : Nat) : UInt32 :=
  ((p.getD i 0).toUInt32 <<< 24) ||| ((p.getD (i + 1) 0).toUInt32 <<< 16) |||
    ((p.getD (i + 2) 0).toUInt32 <<< 8) ||| (p.getD (i + 3) 0).toUInt32

/-- Words 16 to 63 of the message schedule, `n` of them still to come. -/
def extendSchedule : Nat → List UInt32 → List UInt32
  | 0, w => w
  | n + 1, w =>
    let i := w.length
    extendSchedule n
      (w ++ [sig1 (w.getD (i - 2) 0) + w.getD (i - 7) 0 + sig0 (w.getD (i - 15) 0) + w.getD (i - 16) 0])

def shaRound (s : ShaState) (kw : UInt32 × UInt32) : ShaState :=
  let t1 := s.h + ep1 s.e + ch s.e s.f s.g + kw.1 + kw.2
  let t2 := ep0 s.a + maj s.a s.b s.c
  ⟨t1 + t2, s.a, s.b, s.c, s.d + t1, s.e, s.f, s.g⟩

def shaBlock (h : ShaState) (block : List UInt8) : ShaState :=
  let w := extendSchedule 48 ((List.range 16).map fun i => beWord block (i * 4))
  let s := (k256.zip w).foldl shaRound h
  ⟨h.a + s.a, h.b + s.b, h.c + s.c, h.d + s.d, h.e + s.e, h.f + s.f, h.g + s.g, h.h + s.h⟩

/-- The message, a one bit, zeros, and the bit length in the last eight bytes. -/
def shaPadded (msg : List UInt8) : List UInt8 :=
  let paddedLen := (msg.length + 9 + 63) / 64 * 64
  let bitLen := msg.length * 8 % 2 ^ 64
  msg ++ (0x80 : UInt8) :: List.replicate (paddedLen - msg.length - 9) (0 : UInt8) ++
    (List.range 8).map fun i => UInt8.ofNat (bitLen >>> ((7 - i) * 8))

/-- Block after block of 64 bytes, `n` of them. -/
def shaBlocks : Nat → List UInt8 → ShaState → ShaState
  | 0, _, h => h
  | n + 1, p, h => shaBlocks n (p.drop 64) (shaBlock h (p.take 64))

def vcSha256 (msg : List UInt8) : List UInt8 :=
  let p := shaPadded msg
  (shaBlocks (p.length / 64) p .init).words.flatMap fun (w : UInt32) =>
    [(w >>> 24).toUInt8, (w >>> 16).toUInt8, (w >>> 8).toUInt8, w.toUInt8]

/-! ## Users -/

def vcAclRead : UInt32 := 0x01
def vcAclWrite : UInt32 := 0x02
def vcAclAdmin : UInt32 := 0x04
def vcAclPubsub : UInt32 := 0x08
def vcAclAll : UInt32 := vcAclRead ||| vcAclWrite ||| vcAclAdmin ||| vcAclPubsub

def vcAuthMaxUsers : Nat := 64

structure VcUser where
  username : List UInt8
  pwSha256 : List UInt8
  acl : UInt32
  enabled : Bool
  deriving DecidableEq

/-- The first `count` users of the table. -/
structure AuthDb where
  users : List VcUser
  requireAuth : Bool
  count_le : users.length ≤ vcAuthMaxUsers

def vcAclCheck (u : Option VcUser) (need : UInt32) : Bool :=
  match u with
  | none => false
  | some u => u.acl &&& need == need

/-- The superuser that stands for everybody when no authentication is asked for. -/
def anonymous : VcUser := ⟨str "anonymous", List.replicate 32 0, vcAclAll, true⟩

def vcAuthVerify (db : AuthDb) (username password : List UInt8) : Option VcUser :=
  if !db.requireAuth then some anonymous
  else
    db.users.find? fun u =>
      u.enabled && cstr u.username == username && u.pwSha256 == vcSha256 password

/-- The credentials are those of an enabled user of the table. -/
def AuthDb.Valid (db : AuthDb) (username password : List UInt8) (u : VcUser) : Prop :=
  u ∈ db.users ∧ u.enabled = true ∧ cstr u.username = username ∧ u.pwSha256 = vcSha256 password

theorem vcAuthVerify_valid {db : AuthDb} (hreq : db.requireAuth = true) {name pass : List UInt8}
    {u : VcUser} (h : vcAuthVerify db name pass = some u) : db.Valid name pass u := by
  simp only [vcAuthVerify, hreq, Bool.not_true, Bool.false_eq_true, if_false] at h
  have htest := List.find?_some h
  simp only [Bool.and_eq_true, beq_iff_eq] at htest
  exact ⟨List.mem_of_find?_eq_some h, htest.1.1, htest.1.2, htest.2⟩

end VoidCache
