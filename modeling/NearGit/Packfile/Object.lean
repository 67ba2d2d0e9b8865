import NearGit.Lib.Hex

/-! Git objects and the crates git-core leans on. -/

namespace NearGit.Packfile
open Lib

/-- The parts of `flate2` and `sha1` that git-core calls. `inflate` is a `ZlibDecoder` read to
its end: the output and `total_in`, or the text of its error. -/
structure Crates where
  deflate : Bytes → Bytes
  inflate : Bytes → Except String (Bytes × Nat)
  sha1 : Bytes → Vector UInt8 20

/-- What the zlib crate documents: a stream is decoded to what was compressed, whatever
follows it, and compressing hardly grows its input. -/
structure Crates.Zlib (C : Crates) : Prop where
  inflate_deflate : ∀ x rest, C.inflate (C.deflate x ++ rest) = .ok (x, (C.deflate x).length)
  deflate_length : ∀ x : Bytes, x.length < 2 ^ 32 → (C.deflate x).length < 2 ^ 34

structure PackObject where
  objType : String
  data : Bytes
deriving DecidableEq, Repr

/-- A delta whose ultimate base lives in another pack: `deltaData` goes on top of the object
`baseSha`, the deltas of `chain` on top of that, in order. -/
structure UnresolvedDelta where
  baseSha : String
  deltaData : Bytes
  chain : List Bytes
deriving DecidableEq, Repr

structure ParseResult where
  objects : List PackObject
  deltas : List UnresolvedDelta
deriving DecidableEq, Repr

def PackObject.preimage (obj : PackObject) : Bytes :=
  s!"{obj.objType} {obj.data.length}\x00".toUTF8.toList ++ obj.data

def PackObject.sha1 (C : Crates) (obj : PackObject) : String :=
  Hex.ofBytes (C.sha1 obj.preimage).toList

def typeFromBits (bits : Nat) : Option String :=
  match bits with
  | 1 => some "commit"
  | 2 => some "tree"
  | 3 => some "blob"
  | 4 => some "tag"
  | _ => none

def typeToBits (objType : String) : Outcome Nat :=
  match objType with
  | "commit" => .ok 1
  | "tree" => .ok 2
  | "blob" => .ok 3
  | "tag" => .ok 4
  | _ => .panic (.message s!"unknown object type: {objType}")

def IsObjType (objType : String) : Prop :=
  objType = "commit" ∨ objType = "tree" ∨ objType = "blob" ∨ objType = "tag"

instance (objType : String) : Decidable (IsObjType objType) :=
  inferInstanceAs (Decidable (_ ∨ _))

theorem typeFromBits_isObjType {bits : Nat} {objType : String}
    (h : typeFromBits bits = some objType) : IsObjType objType := by
  unfold typeFromBits at h
  split at h <;> simp_all [IsObjType]

theorem typeToBits_neverErr (objType : String) : (typeToBits objType).NeverErr := by
  unfold typeToBits
  split
  all_goals first | exact Outcome.neverErr_ok _ | exact Outcome.neverErr_panic _

theorem typeToBits_of_isObjType {objType : String} (h : IsObjType objType) :
    ∃ bits, typeToBits objType = .ok bits ∧ bits < 5 ∧ typeFromBits bits = some objType := by
  rcases h with rfl | rfl | rfl | rfl
  · exact ⟨1, rfl, by decide, rfl⟩
  · exact ⟨2, rfl, by decide, rfl⟩
  · exact ⟨3, rfl, by decide, rfl⟩
  · exact ⟨4, rfl, by decide, rfl⟩

end NearGit.Packfile
