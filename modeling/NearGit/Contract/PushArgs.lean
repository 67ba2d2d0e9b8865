import NearGit.Contract.GitStorage
import NearGit.Lib.Borsh

/-! The Borsh arguments of `push`: `pack_data`, then `ref_updates`. -/

namespace NearGit.Contract
open Lib

def refUpdateCodec : Borsh.Codec RefUpdate :=
  (Borsh.pair Borsh.string (Borsh.pair (Borsh.option Borsh.string) Borsh.string)).map
    (fun (name, oldSha, newSha) => some { name, oldSha, newSha })
    (fun update => (update.name, update.oldSha, update.newSha)) (fun _ => rfl)

def pushArgsCodec : Borsh.Codec (Bytes × List RefUpdate) :=
  Borsh.pair Borsh.bytes (Borsh.vec refUpdateCodec)

def decodePushArgs (input : Bytes) : Option (Bytes × List RefUpdate) :=
  pushArgsCodec.tryFromSlice input

end NearGit.Contract
