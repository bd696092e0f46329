import VoidCache.Lib.CText

/-!
# Hash slots

The slot of a key is a table-driven CRC of its hash tag, or of the whole key if it has none,
modulo the number of slots. The table is the one of the source, entry by entry.
-/
namespace VoidCache

def vcClusterSlots : Nat := 16384

def crc16Tab : List UInt16 :=
  [0x0000, 0x1021, 0x2042, 0x3063, 0x4084, 0x50a5, 0x60c6, 0x70e7, 0x8108, 0x9129, 0xa14a, 0xb16b,
   0xc18c, 0xd1ad, 0xe1ce, 0xf1ef, 0x1231, 0x0210, 0x3273, 0x2252, 0x52b5, 0x4294, 0x72f7, 0x62d6,
   0x9339, 0x8318, 0xb37b, 0xa35a, 0xd3bd, 0xc39c, 0xf3ff, 0xe3de, 0x2462, 0x3443, 0x0420, 0x1401,
   0x64e6, 0x74c7, 0x44a4, 0x5485, 0xa56a, 0xb54b, 0x8528, 0x9509, 0xe5ee, 0xf5cf, 0xc5ac, 0xd58d,
   0x3653, 0x2672, 0x1611, 0x0630, 0x76d7, 0x66f6, 0x5695, 0x46b4, 0xb75b, 0xa77a, 0x9719, 0x8738,
   0xf7df, 0xe7fe, 0xd79d, 0xc7bc, 0x4864, 0x5845, 0x6826, 0x7807, 0x08e0, 0x18c1, 0x28a2, 0x38c3,
   0xc92c, 0xd90d, 0xe96e, 0xf94f, 0x89a8, 0x99f9, 0xa9ba, 0xb99b, 0x5a65, 0x4a44, 0x7a27, 0x6a06,
   0x1ae1, 0x0ac0, 0x3aa3, 0x2a82, 0xdb6d, 0xcb4c, 0xfb2f, 0xeb0e, 0x9be9, 0x8bc8, 0xbbab, 0xabda,
   0x6c76, 0x7c57, 0x4c34, 0x5c15, 0x2cf2, 0x3cd3, 0x0cb0, 0x1c91, 0xed7e, 0xfd5f, 0xcd3c, 0xdd1d,
   0xadfa, 0xbddb, 0x8db8, 0x9d99, 0x7e67, 0x6e46, 0x5e25, 0x4e04, 0x3ee3, 0x2ec2, 0x1ea1, 0x0e80,
   0xff6f, 0xef4e, 0xdf2d, 0xcf0c, 0xbfeb, 0xafca, 0x9fa9, 0x8f88, 0x9188, 0x81a9, 0xb1ca, 0xa1eb,
   0xd10c, 0xc12d, 0xf14e, 0xe16f, 0x1080, 0x00a1, 0x30c2, 0x20e3, 0x5004, 0x4025, 0x7046, 0x6067,
   0x83b9, 0x9398, 0xa3fb, 0xb3da, 0xc33d, 0xd31c, 0xe37f, 0xf35e, 0x02b1, 0x1290, 0x22f3, 0x32d2,
   0x4235, 0x5214, 0x6277, 0x7256, 0xb5ea, 0xa5cb, 0x95a8, 0x8589, 0xf56e, 0xe54f, 0xd52c, 0xc50d,
   0x34e2, 0x24c3, 0x14a0, 0x0481, 0x7466, 0x6447, 0x5424, 0x4405, 0xa7db, 0xb7fa, 0x8799, 0x97b8,
   0xe75f, 0xf77e, 0xc71d, 0xd73c, 0x26d3, 0x36f2, 0x0691, 0x16b0, 0x6657, 0x7676, 0x4615, 0x5634,
   0xd94c, 0xc96d, 0xf90e, 0xe92f, 0x99c8, 0x89e9, 0xb98a, 0xa9ab, 0x5844, 0x4865, 0x7806, 0x6827,
   0x18c0, 0x08e1, 0x38a2, 0x28a3, 0xcb7d, 0xdb5c, 0xeb3f, 0xfb1e, 0x8bf9, 0x9bd8, 0xabbb, 0xbb9a,
   0x4a75, 0x5a54, 0x6a37, 0x7a16, 0x0af1, 0x1ad0, 0x2ab3, 0x3a92, 0xfd2e, 0xed0f, 0xdd6c, 0xcd4d,
   0xbdaa, 0xad8b, 0x9de8, 0x8dc9, 0x7c26, 0x6c07, 0x5c64, 0x4c45, 0x3ca2, 0x2c83, 0x1ce0, 0x0cc1,
   0xef1f, 0xff3e, 0xcf5d, 0xdf7c, 0xaf9b, 0xbfba, 0x8fd9, 0x9ff8, 0x6e17, 0x7e36, 0x4e55, 0x5e74,
   0x2e93, 0x3eb2, 0x0ed1, 0x1ef0]

def vcCrc16 (key : List UInt8) : UInt16 :=
  key.foldl (fun crc b =>
    (crc <<< 8) ^^^ crc16Tab.getD (((crc >>> 8) ^^^ b.toUInt16) &&& 0xFF).toNat 0) 0

/-- The bytes that are hashed: those between the first brace and the next closing one, if there
are any. -/
def hashTag (key : List UInt8) : List UInt8 :=
  match key.dropWhile (· ≠ 123) with
  | [] => key
  | _ :: rest =>
    let tag := rest.takeWhile (· ≠ 125)
    if 125 ∈ rest ∧ tag ≠ [] then tag else key

def vcKeySlot (key : List UInt8) : Nat := (vcCrc16 (hashTag key) &&& 0x3FFF).toNat

end VoidCache
