import NearGit.Contract.GitStorage
import NearGit.Lib.Hex
import NearGit.Lib.Near
import NearGit.Lib.Utf8

/-! The `GitFactory` contract, and the two contracts as code of a chain. -/

namespace NearGit.Factory
open Lib Lib.Near NearGit.Contract

inductive FactoryPanic
  /-- "Invalid repo name" -/
  | invalidRepoName
  /-- "Attach at least 1 NEAR for account creation and storage" -/
  | depositTooSmall
  /-- "Only the factory owner can update the global contract hash" -/
  | notFactoryOwner
  /-- "Invalid hex in hash" -/
  | invalidHex
  /-- `hex[i..i + 2]` past the end, or inside a character -/
  | badSlice
  /-- "global_contract_hash must be 32 bytes (64 hex chars)" -/
  | wrongHashLength
deriving DecidableEq, Repr

/-- The calls that the code of this repository answers. The arguments of `new` are those that the
JSON object has. -/
inductive FunctionCall
  | new (globalContractHash : Option String)
  | repo (call : Call)
  | selfDelete
  | createRepo (repoName : String)
  | setGlobalContractHash (globalContractHash : String)
  | getGlobalContractHash
  | web4Get
  | other (method : String)
deriving DecidableEq

inductive Code
  | gitStorage
  | gitFactory
  | foreign
deriving DecidableEq

/-- What is fixed outside of the two contracts: which texts parse as account ids, who may create
an account, which repositories have little enough in store to be deleted, and the account that was
built in as `FEE_RECIPIENT`. -/
structure Network where
  validAccountId : String → Bool
  mayCreate : String → String → Prop
  smallState : GitStorage → Prop
  feeRecipient : String

abbrev RepoPromise := Promise FunctionCall Code

structure GitFactory where
  globalContractHash : Bytes
  owner : String
deriving DecidableEq, Repr

def oneNear : ℕ := 10 ^ 24

/-- `is_char_boundary`, of the bytes of a string. -/
def isCharBoundary (bs : Bytes) (i : ℕ) : Bool :=
  match bs[i]? with
  | some b => i = 0 || b < 0x80 || 0xC0 ≤ b
  | none => i = bs.length

/-- `&s[i..j]`, of the bytes of a string. -/
def sliceStr (bs : Bytes) (i j : ℕ) : Except FactoryPanic Bytes :=
  if i ≤ j && isCharBoundary bs i && isCharBoundary bs j then .ok ((bs.drop i).take (j - i))
  else .error .badSlice

/-- `u8::from_str_radix(pair, 16)`. -/
def hexPair (pair : Bytes) : Except FactoryPanic UInt8 :=
  match Hex.fromStrRadix 255 (pair.map fun b => Char.ofNat b.toNat) with
  | some n => .ok (UInt8.ofNat n)
  | none => .error .invalidHex

namespace GitFactory

def decodeHex (hex : String) : Except FactoryPanic Bytes :=
  let bs := Utf8.encode hex
  (List.range ((bs.length + 1) / 2)).mapM fun n => do
    let i := 2 * n
    let pair ← sliceStr bs i (i + 2)
    hexPair pair

def new (predecessor globalContractHash : String) : Except FactoryPanic GitFactory := do
  let hash ← decodeHex globalContractHash
  if hash.length = 32 then .ok { globalContractHash := hash, owner := predecessor }
  else .error .wrongHashLength

def subAccount (factoryAccount repoName : String) : String := s!"{repoName}.{factoryAccount}"

def createRepo (net : Network) (f : GitFactory) (factoryAccount repoName : String)
    (deposit : ℕ) : Except FactoryPanic RepoPromise :=
  let subAccount := subAccount factoryAccount repoName
  if net.validAccountId subAccount then
    if oneNear ≤ deposit then
      .ok {
        receiver := subAccount
        actions := [
          .createAccount,
          .transfer deposit,
          .useGlobalContract f.globalContractHash,
          .functionCall (.new none) 0] }
    else .error .depositTooSmall
  else .error .invalidRepoName

def setGlobalContractHash (f : GitFactory) (predecessor globalContractHash : String) :
    Except FactoryPanic GitFactory :=
  if predecessor = f.owner then do
    let hash ← decodeHex globalContractHash
    if hash.length = 32 then .ok { f with globalContractHash := hash } else .error .wrongHashLength
  else .error .notFactoryOwner

def getGlobalContractHash (f : GitFactory) : String := Hex.ofBytes f.globalContractHash

def getOwner (f : GitFactory) : String := f.owner

end GitFactory

/-! ## The contracts on their accounts -/

inductive CallPanic
  | storage (why : ContractPanic)
  | factory (why : FactoryPanic)
  | alreadyInitialized
  | notInitialized
  | depositNotAccepted
  | invalidArguments
  | methodNotFound
  /-- `FEE_RECIPIENT.parse().unwrap()` -/
  | invalidFeeRecipient
deriving DecidableEq, Repr

/-- `SERVICE_FEE`: 100 milliNEAR. -/
def serviceFee : ℕ := 100 * 10 ^ 21

/-- Methods that are not `#[payable]` do not take a deposit. -/
def notPayable (ctx : Context) : Except CallPanic Unit :=
  if ctx.deposit = 0 then .ok () else .error .depositNotAccepted

def depositCheck (ctx : Context) : Call → Except CallPanic Unit
  | .push _ _ | .clearStorage => notPayable ctx
  | .getRefs | .getPackCount | .getPacks _ | .getOwner => .ok ()

def selfDelete (s : GitStorage) (predecessor current : String) :
    Except ContractPanic RepoPromise := do
  s.assertOwner predecessor
  return { receiver := current, actions := [.deleteAccount s.owner] }

/-- A call of the repository contract; the state is absent until `new` has run. -/
def storageCall (net : Network) (state : Option GitStorage) (ctx : Context) (call : FunctionCall) :
    Except CallPanic (GitStorage × List RepoPromise) :=
  match call, state with
  | .new _, some _ => .error .alreadyInitialized
  | .new _, none => do
    notPayable ctx
    if net.validAccountId net.feeRecipient then
      .ok (GitStorage.new ctx.signer,
        [{ receiver := net.feeRecipient, actions := [.transfer serviceFee] }])
    else .error .invalidFeeRecipient
  | .repo _, none | .selfDelete, none => .error .notInitialized
  | .repo call, some s => do
    depositCheck ctx call
    let s' ← (s.exec { predecessor := ctx.predecessor, call }).mapError .storage
    return (s', [])
  | .selfDelete, some s => do
    notPayable ctx
    let promise ← (selfDelete s ctx.predecessor ctx.current).mapError .storage
    return (s, [promise])
  | _, _ => .error .methodNotFound

def factoryCall (net : Network) (state : Option GitFactory) (ctx : Context) (call : FunctionCall) :
    Except CallPanic (GitFactory × List RepoPromise) :=
  match call, state with
  | .new _, some _ => .error .alreadyInitialized
  | .new none, none => .error .invalidArguments
  | .new (some hash), none => do
    notPayable ctx
    let f ← (GitFactory.new ctx.predecessor hash).mapError .factory
    return (f, [])
  | .createRepo repoName, some f => do
    let promise ← (f.createRepo net ctx.current repoName ctx.deposit).mapError .factory
    return (f, [promise])
  | .setGlobalContractHash hash, some f => do
    notPayable ctx
    let f' ← (f.setGlobalContractHash ctx.predecessor hash).mapError .factory
    return (f', [])
  | .getGlobalContractHash, some f | .repo .getOwner, some f | .web4Get, some f => .ok (f, [])
  | .createRepo _, none | .setGlobalContractHash _, none | .getGlobalContractHash, none
  | .repo .getOwner, none | .web4Get, none => .error .notInitialized
  | _, _ => .error .methodNotFound

inductive Deployed
  | gitStorage (state : Option GitStorage)
  | gitFactory (state : Option GitFactory)
  | foreign

/-- Code that takes the place of other code finds the state that is there, whatever it reads in
it. -/
inductive Deploys : Option Deployed → Code → Deployed → Prop
  | storage : Deploys none .gitStorage (.gitStorage none)
  | factory : Deploys none .gitFactory (.gitFactory none)
  | storageAgain {state} : Deploys (some (.gitStorage state)) .gitStorage (.gitStorage state)
  | factoryAgain {state} : Deploys (some (.gitFactory state)) .gitFactory (.gitFactory state)
  | storageOver {k state} : (∀ state', k ≠ .gitStorage state') →
      Deploys (some k) .gitStorage (.gitStorage state)
  | factoryOver {k state} : (∀ state', k ≠ .gitFactory state') →
      Deploys (some k) .gitFactory (.gitFactory state)
  | foreign {contract} : Deploys contract .foreign .foreign

inductive Runs (net : Network) :
    Deployed → Context → FunctionCall → Deployed → List RepoPromise → Prop
  | storage {state ctx call s promises} : storageCall net state ctx call = .ok (s, promises) →
      Runs net (.gitStorage state) ctx call (.gitStorage (some s)) promises
  | factory {state ctx call f promises} : factoryCall net state ctx call = .ok (f, promises) →
      Runs net (.gitFactory state) ctx call (.gitFactory (some f)) promises
  | foreign {ctx call promises} : Runs net .foreign ctx call .foreign promises

def MayDelete (net : Network) : Option Deployed → Prop
  | some (.gitStorage (some s)) => net.smallState s
  | _ => True

def runtime (net : Network) : Runtime FunctionCall Code Deployed where
  mayCreate := net.mayCreate
  mayDelete := MayDelete net
  deploys := Deploys
  runs := Runs net

end NearGit.Factory
