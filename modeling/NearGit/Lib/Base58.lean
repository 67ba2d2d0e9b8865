import NearGit.Lib.Bytes

/-! Base58 with the alphabet of Bitcoin. -/

namespace Lib.Base58

def alphabet : List Char := "123456789ABCDEFGHJKLMNPQRSTUVWXYZabcdefghijkmnopqrstuvwxyz".toList

/-- The bytes of a number below 256^`width`, without leading zeros. -/
def bigEndian : (width n : Nat) → Bytes
  | 0, _ => []
  | width + 1, n => if n = 0 then [] else bigEndian width (n / 256) ++ [UInt8.ofNat n]

/-- A leading `1` is a zero byte, the rest is one number. -/
def decode (text : String) : Option Bytes := do
  let digits ← text.toList.mapM alphabet.idxOf?
  let zeros := digits.takeWhile (· = 0)
  let number := digits.foldl (fun n digit => n * 58 + digit) 0
  return List.replicate zeros.length 0 ++ bigEndian digits.length number

example : decode "11StV1DL6CwTryKyV" =
    some [0, 0, 104, 101, 108, 108, 111, 32, 119, 111, 114, 108, 100] := by decide

end Lib.Base58
