import NearGit.Packfile.Object
import NearGit.Packfile.Delta

/-! `packfile::parse`: the entry loop over the bytes, then the resolution of OFS_DELTA chains
with its cache. The part of the slice from `pos` on is passed along with `pos`. -/

namespace NearGit.Packfile
open Lib

inductive ParsedEntry
  | object (obj : PackObject)
  | refDelta (d : UnresolvedDelta)
  | ofsDelta (basePos : Nat) (deltaData : Bytes)
deriving DecidableEq, Repr

/-! ## Reading the entries -/

def readEntryHeader (rest : Bytes) : Outcome (Nat × Nat × Nat) :=
  match rest with
  | [] => .panic .indexOutOfBounds
  | firstByte :: rest =>
    let typeBits := ((firstByte >>> 4) &&& 0x07).toNat
    let size := (firstByte &&& 0x0f).toNat
    if firstByte &&& 0x80 ≠ 0 then do
      let (size, used) ← Varint.read "unexpected end of packfile in size" size 4 1 rest
      return (typeBits, size, used)
    else .ok (typeBits, size, 1)

def readOfsCont (offset used : Nat) : Bytes → Outcome (Nat × Nat)
  | [] => .panic .indexOutOfBounds
  | byte :: rest =>
    -- the addition is checked, the shift drops what does not fit
    if offset + 1 < 2 ^ 64 then
      let offset := ((offset + 1) <<< 7) % 2 ^ 64 ||| (byte &&& 0x7f).toNat
      if byte &&& 0x80 ≠ 0 then readOfsCont offset (used + 1) rest
      else .ok (offset, used + 1)
    else .panic .addOverflow

def readOfsOffset (rest : Bytes) : Outcome (Nat × Nat) :=
  match rest with
  | [] => .panic .indexOutOfBounds
  | byte :: rest =>
    if byte &&& 0x80 ≠ 0 then readOfsCont (byte &&& 0x7f).toNat 1 rest
    else .ok ((byte &&& 0x7f).toNat, 1)

/-- A zlib stream with its declared size: the buffer is allocated first. -/
def readZlib (W : Usize) (C : Crates) (size : Nat) (what : String) (rest : Bytes) :
    Outcome (Bytes × Nat) := do
  let _ ← VecU8.withCapacity W (W.cast size)
  Outcome.ofExcept (fun e => s!"zlib decompression failed{what}: {e}") (C.inflate rest)

def parseEntry (W : Usize) (C : Crates) (objStart : Nat) (rest : Bytes) :
    Outcome (ParsedEntry × Nat) := do
  let (typeBits, size, used) ← readEntryHeader rest
  let rest := rest.drop used
  match typeBits with
  | 7 =>
    if rest.length < 20 then .err "unexpected end of packfile in ref_delta base SHA"
    else
      let baseSha := Hex.ofBytes (rest.take 20)
      let (deltaData, totalIn) ← readZlib W C size " for delta" (rest.drop 20)
      return (.refDelta { baseSha, deltaData, chain := [] }, used + 20 + totalIn)
  | 6 =>
    let (offset, ofsUsed) ← readOfsOffset rest
    if objStart < W.cast offset then
      .err s!"ofs_delta offset {offset} exceeds object position {objStart}"
    else
      let basePos := objStart - W.cast offset
      let (deltaData, totalIn) ← readZlib W C size " for ofs_delta" (rest.drop ofsUsed)
      return (.ofsDelta basePos deltaData, used + ofsUsed + totalIn)
  | _ =>
    match typeFromBits typeBits with
    | none => .err s!"unknown object type: {typeBits}"
    | some objType =>
      let (decompressed, totalIn) ← readZlib W C size "" rest
      return (.object { objType, data := decompressed }, used + totalIn)

def parseEntries (W : Usize) (C : Crates) :
    (numObjects pos : Nat) → Bytes → Outcome (List (Nat × ParsedEntry))
  | 0, _, _ => .ok []
  | n + 1, pos, rest =>
    if rest = [] then .err "unexpected end of packfile"
    else do
      let (entry, used) ← parseEntry W C pos rest
      let entries ← parseEntries W C n (pos + used) (rest.drop used)
      return (pos, entry) :: entries

/-! ## Resolving OFS_DELTA chains -/

inductive Resolution
  | object (obj : PackObject)
  | external (baseSha : String) (deltas : List Bytes)
deriving DecidableEq, Repr

def Resolution.stack (W : Usize) (deltaData : Bytes) : Resolution → Outcome Resolution
  | .object baseObj => do
    let resolvedData ← applyDelta W baseObj.data deltaData
    return .object { objType := baseObj.objType, data := resolvedData }
  | .external baseSha deltas => .ok (.external baseSha (deltas ++ [deltaData]))

/-- The position-to-index map; a later insert of the same key replaces an earlier one. -/
def posToIdx (entries : List (Nat × ParsedEntry)) (pos : Nat) : Option Nat :=
  entries.zipIdx.foldl (fun found e => if e.1.1 = pos then some e.2 else found) none

/-- `resolve`, with its cache. The first argument bounds the depth of the recursion; running
out of it stands for a recursion that never returns. -/
def resolve (W : Usize) (entries : List (Nat × ParsedEntry)) :
    (depth idx : Nat) → List (Option Resolution) → Outcome (Resolution × List (Option Resolution))
  | 0, _, _ => .diverge
  | depth + 1, idx, cache =>
    match cache[idx]?, entries[idx]? with
    | some (some r), _ => .ok (r, cache)
    | some none, some (_, .object obj) =>
      let r := .object obj
      .ok (r, cache.set idx (some r))
    | some none, some (_, .refDelta d) =>
      let r := .external d.baseSha [d.deltaData]
      .ok (r, cache.set idx (some r))
    | some none, some (_, .ofsDelta basePos deltaData) =>
      match posToIdx entries basePos with
      | none => .err s!"ofs_delta base at offset {basePos} not found"
      | some baseIdx => do
        let (base, cache) ← resolve W entries depth baseIdx cache
        let r ← base.stack W deltaData
        return (r, cache.set idx (some r))
    | _, _ => .panic .indexOutOfBounds

def ParseResult.push (result : ParseResult) : Resolution → Outcome ParseResult
  | .object obj => .ok { result with objects := result.objects ++ [obj] }
  | .external _ [] => .panic .indexOutOfBounds
  | .external baseSha (head :: chain) =>
    .ok { result with
      deltas := result.deltas ++ [{ baseSha, deltaData := head, chain }] }

/-- One round of the resolution loop. A chain of distinct entries is no longer than the list,
so a recursion deeper than that has come back to an entry it is resolving. -/
def resolveStep (W : Usize) (entries : List (Nat × ParsedEntry))
    (acc : List (Option Resolution) × ParseResult) (i : Nat) :
    Outcome (List (Option Resolution) × ParseResult) := do
  let (r, cache) ← resolve W entries entries.length i acc.1
  let result ← acc.2.push r
  return (cache, result)

def resolveAll (W : Usize) (entries : List (Nat × ParsedEntry)) : Outcome ParseResult := do
  let (_, result) ← (List.range entries.length).foldlM (resolveStep W entries)
    (List.replicate entries.length none, { objects := [], deltas := [] })
  return result

def magic : Bytes := [0x50, 0x41, 0x43, 0x4b]

def parse (W : Usize) (C : Crates) (data : Bytes) : Outcome ParseResult :=
  match data with
  | m₀ :: m₁ :: m₂ :: m₃ :: v₀ :: v₁ :: v₂ :: v₃ :: n₀ :: n₁ :: n₂ :: n₃ :: rest =>
    if [m₀, m₁, m₂, m₃] ≠ magic then .err "invalid packfile magic"
    else
      let version := fromBe32 v₀ v₁ v₂ v₃
      if version ≠ 2 ∧ version ≠ 3 then .err s!"unsupported packfile version: {version}"
      else do
        -- what comes after the last entry is not read
        let entries ← parseEntries W C (fromBe32 n₀ n₁ n₂ n₃) 12 rest
        resolveAll W entries
  | _ => .err "packfile too short"

end NearGit.Packfile
