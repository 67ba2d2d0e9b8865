import NearGit.Lib.Bytes

/-! SHA-1, on numbers below 2^32. -/

namespace Lib.Sha1

def rotl (x n : Nat) : Nat := (x <<< n ||| x >>> (32 - n)) % 2 ^ 32

def pad (m : Bytes) : Bytes :=
  m ++ 0x80 :: List.replicate ((119 - m.length % 64) % 64) 0 ++
    be32 (8 * m.length / 2 ^ 32) ++ be32 (8 * m.length)

def words : Bytes → List Nat
  | a :: b :: c :: d :: rest => fromBe32 a b c d :: words rest
  | _ => []

def schedule : Nat → List Nat → List Nat
  | 0, w => w
  | n + 1, w =>
    schedule n
      (rotl (w.getD 2 0 ^^^ w.getD 7 0 ^^^ w.getD 13 0 ^^^ w.getD 15 0) 1 :: w)

structure State where
  (a b c d e : Nat)

def mix (t b c d : Nat) : Nat × Nat :=
  if t < 20 then ((b &&& c) ||| ((2 ^ 32 - 1 - b) &&& d), 0x5a827999)
  else if t < 40 then (b ^^^ c ^^^ d, 0x6ed9eba1)
  else if t < 60 then ((b &&& c) ||| (b &&& d) ||| (c &&& d), 0x8f1bbcdc)
  else (b ^^^ c ^^^ d, 0xca62c1d6)

def rounds : Nat → State → List Nat → State
  | _, s, [] => s
  | t, s, w :: ws =>
    let (f, k) := mix t s.b s.c s.d
    rounds (t + 1) ⟨(rotl s.a 5 + f + s.e + k + w) % 2 ^ 32, s.a, rotl s.b 30, s.c, s.d⟩ ws

def block (s : State) (ws : List Nat) : State :=
  let r := rounds 0 s (schedule 64 ws.reverse).reverse
  ⟨(s.a + r.a) % 2 ^ 32, (s.b + r.b) % 2 ^ 32, (s.c + r.c) % 2 ^ 32, (s.d + r.d) % 2 ^ 32,
    (s.e + r.e) % 2 ^ 32⟩

def init : State := ⟨0x67452301, 0xefcdab89, 0x98badcfe, 0x10325476, 0xc3d2e1f0⟩

def digestBytes (s : State) : Bytes :=
  be32 s.a ++ be32 s.b ++ be32 s.c ++ be32 s.d ++ be32 s.e

def sha1 (m : Bytes) : Vector UInt8 20 :=
  let s := ((words (pad m)).toChunks 16).foldl block init
  ⟨(digestBytes s).toArray, rfl⟩

example : (sha1 [0x61, 0x62, 0x63]).toList =
    [0xa9, 0x99, 0x3e, 0x36, 0x47, 0x06, 0x81, 0x6a, 0xba, 0x3e, 0x25, 0x71, 0x78, 0x50, 0xc2,
      0x6c, 0x9c, 0xd0, 0xd8, 0x9d] := by
  decide +kernel

end Lib.Sha1
