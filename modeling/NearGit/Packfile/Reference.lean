import NearGit.Packfile.Object
import NearGit.Lib.Sha1
import NearGit.Lib.StoredZlib

/-! The crates of git-core, built from SHA-1 and a zlib codec of stored blocks: packs can be
built and read back by evaluation. -/

namespace NearGit.Packfile
open Lib

def referenceCrates : Crates where
  deflate := StoredZlib.deflate
  inflate := StoredZlib.inflate
  sha1 := Sha1.sha1

theorem referenceCrates_zlib : referenceCrates.Zlib where
  inflate_deflate := StoredZlib.inflate_deflate
  deflate_length x hx := by
    have := StoredZlib.deflate_length_le x
    show (StoredZlib.deflate x).length < 2 ^ 34
    omega

end NearGit.Packfile
