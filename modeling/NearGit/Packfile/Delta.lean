import NearGit.Lib.Usize
import NearGit.Lib.Varint

/-! Git's binary deltas: `apply_delta` and `compute_delta` of git-core. Positions in a
slice are suffixes here, and `delta[pos]` on an empty suffix is the index panic. -/

namespace NearGit.Packfile
open Lib

/-! ## Applying -/

def readDeltaSize (data : Bytes) : Outcome (Nat × Nat) :=
  Varint.read "unexpected end of delta size" 0 0 0 data

def readOperand (instruction bit : UInt8) (shift : Nat) (delta : Bytes) :
    Nat × Nat → Outcome (Nat × Nat)
  | (value, pos) =>
    if instruction &&& bit ≠ 0 then
      match delta[pos]? with
      | some byte => .ok (value ||| byte.toNat <<< shift, pos + 1)
      | none => .panic .indexOutOfBounds
    else .ok (value, pos)

/-- The operands of a copy instruction: offset, size and the count of operand bytes. -/
def readCopy (instruction : UInt8) (delta : Bytes) : Outcome (Nat × Nat × Nat) := do
  let (offset, pos) ← readOperand instruction 0x01 0 delta (0, 0)
  let (offset, pos) ← readOperand instruction 0x02 8 delta (offset, pos)
  let (offset, pos) ← readOperand instruction 0x04 16 delta (offset, pos)
  let (offset, pos) ← readOperand instruction 0x08 24 delta (offset, pos)
  let (size, pos) ← readOperand instruction 0x10 0 delta (0, pos)
  let (size, pos) ← readOperand instruction 0x20 8 delta (size, pos)
  let (size, pos) ← readOperand instruction 0x40 16 delta (size, pos)
  return (offset, if size = 0 then 0x10000 else size, pos)

def applyLoop (W : Usize) (source : Bytes) (delta : Bytes) (target : VecU8) : Outcome VecU8 :=
  match delta with
  | [] => .ok target
  | instruction :: delta =>
    if instruction &&& 0x80 ≠ 0 then do
      let (offset, size, pos) ← readCopy instruction delta
      let stop ← W.add offset size
      if stop > source.length then
        .err (s!"delta copy out of bounds: offset={offset}, size={size}, " ++
          s!"source_len={source.length}")
      else
        let target ← target.extendFromSlice W ((source.drop offset).take size)
        applyLoop W source (delta.drop pos) target
    else if instruction ≠ 0 then
      let size := instruction.toNat
      if size > delta.length then .err "delta insert out of bounds"
      else do
        let target ← target.extendFromSlice W (delta.take size)
        applyLoop W source (delta.drop size) target
    else .err "delta instruction byte 0 is reserved"
termination_by delta.length
decreasing_by
  all_goals
    simp only [List.length_drop, List.length_cons]
    omega

/-- `apply_delta`. The declared source size is read and ignored. -/
def applyDelta (W : Usize) (source delta : Bytes) : Outcome Bytes := do
  let (_, bytesRead) ← readDeltaSize delta
  let delta := delta.drop bytesRead
  let (targetSize, bytesRead) ← readDeltaSize delta
  let delta := delta.drop bytesRead
  let target ← VecU8.withCapacity W (W.cast targetSize)
  let target ← applyLoop W source delta target
  if target.bytes.length ≠ W.cast targetSize then
    .err s!"delta target size mismatch: expected {targetSize}, got {target.bytes.length}"
  else .ok target.bytes

/-! ## Computing -/

def blockSize : Nat := 16

def fnvHash (data : Bytes) : Nat :=
  data.foldl (fun hash b => (hash ^^^ b.toNat) * 0x100000001b3 % 2 ^ 64) 0xcbf29ce484222325

def encodeSize (val : Nat) : Bytes := Varint.encode val

/-- The operand bytes of one number of a copy instruction; zero bytes are left out. -/
def emitOperands (value firstBit count : Nat) (acc : UInt8 × Bytes) : UInt8 × Bytes :=
  (List.range count).foldl (fun (cmd, data) i =>
    let byte := UInt8.ofNat ((value >>> (i * 8)) &&& 0xff)
    if byte ≠ 0 then (cmd ||| 1 <<< UInt8.ofNat (firstBit + i), data ++ [byte])
    else (cmd, data)) acc

def emitCopy (offset size : Nat) : Bytes :=
  let (cmd, data) := emitOperands offset 0 4 (0x80, [])
  -- no size byte at all stands for 0x10000
  let encSize := if size = 0x10000 then 0 else size
  let (cmd, data) := emitOperands encSize 4 3 (cmd, data)
  cmd :: data

/-- The loop that emits a match in chunks of at most 0x10000 bytes. -/
def emitCopies (bestOffset bestLen copied : Nat) : Bytes :=
  if copied < bestLen then
    let chunk := min (bestLen - copied) 0x10000
    emitCopy (bestOffset + copied) chunk ++ emitCopies bestOffset bestLen (copied + chunk)
  else []
termination_by bestLen - copied

def flushInserts (insertBuf : Bytes) : Bytes :=
  if insertBuf ≠ [] then
    let count := min insertBuf.length 127
    UInt8.ofNat count :: (insertBuf.take count ++ flushInserts (insertBuf.drop count))
  else []
termination_by insertBuf.length
decreasing_by
  have := List.length_pos_of_ne_nil ‹insertBuf ≠ []›
  simp only [List.length_drop]
  omega

def windowStarts (base : Bytes) : List Nat :=
  if blockSize ≤ base.length then
    (List.range ((base.length - blockSize) / blockSize + 1)).map (· * blockSize)
  else []

def buildIndex (base : Bytes) : Nat → List Nat :=
  group (fun i => fnvHash ((base.drop i).take blockSize)) (windowStarts base)

def matchLen : Bytes → Bytes → Nat
  | a :: as, b :: bs => if a = b then matchLen as bs + 1 else 0
  | _, _ => 0

/-- The longest match of the rest of the target among the indexed windows. -/
def bestMatch (base : Bytes) (index : Nat → List Nat) (rest : Bytes) : Nat × Nat :=
  if blockSize ≤ rest.length then
    (index (fnvHash (rest.take blockSize))).foldl (fun (bestOffset, bestLen) baseOff =>
      let len := matchLen rest (base.drop baseOff)
      if bestLen < len then (baseOff, len) else (bestOffset, bestLen)) (0, 0)
  else (0, 0)

def deltaLoop (base : Bytes) (index : Nat → List Nat) (rest result insertBuf : Bytes) : Bytes :=
  match rest with
  | [] => result ++ flushInserts insertBuf
  | byte :: tail =>
    let best := bestMatch base index (byte :: tail)
    if blockSize ≤ best.2 then
      deltaLoop base index ((byte :: tail).drop best.2)
        (result ++ flushInserts insertBuf ++ emitCopies best.1 best.2 0) []
    else deltaLoop base index tail result (insertBuf ++ [byte])
termination_by rest.length
decreasing_by
  · simp only [List.length_drop, List.length_cons]
    have : 0 < best.2 := lt_of_lt_of_le (by decide) ‹blockSize ≤ best.2›
    change tail.length + 1 - best.2 < tail.length + 1
    omega
  · simp

def computeDelta (base target : Bytes) : Bytes :=
  deltaLoop base (buildIndex base) target (encodeSize base.length ++ encodeSize target.length) []

end NearGit.Packfile
