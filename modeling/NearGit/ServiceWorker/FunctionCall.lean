import Mathlib.Logic.Function.Basic
import NearGit.Lib.Number
import NearGit.Lib.System

/-! `nearFunctionCall` of the service worker, cut at its awaits, and the system of all calls that
are made with one access key. -/

namespace NearGit.ServiceWorker
open Lib

variable {ω ι α : Type*}

/-! ## One call -/

structure SignedTx (α : Type*) where
  call : α
  blockHash : String
  nonce : ℕ
deriving DecidableEq

structure AccessKeyView where
  nonce : ℕ
  blockHash : String

/-- What comes back from `broadcast_tx_commit`; a `status` is that of the executed transaction. -/
inductive BroadcastAnswer
  | invalidNonce (akNonce : ℕ)
  | error
  | status (success : Bool)
  | threw
deriving DecidableEq

inductive Phase (α : Type*)
  | idle
  | viewing
  | broadcasting (attempt : ℕ) (tx : SignedTx α)
  | answered (attempt : ℕ) (tx : SignedTx α) (answer : BroadcastAnswer)
  | returned (success : Bool)
  | threw

/-- `Math.max(accessKeyRes.result.nonce, lastUsedNonces[nonceKey] || 0) + 1`. -/
def freshNonce (viewed lastUsed : ℕ) : ℕ := Number.add (max (Number.round viewed) lastUsed) 1

/-- `invalidNonce.ak_nonce + 1`. -/
def retryNonce (akNonce : ℕ) : ℕ := Number.add (Number.round akNonce) 1

/-- The top of the loop; `signs` says whether `create_signed_transaction` takes the call and the
block hash. The nonce reaches it as a `u64`. -/
def signAndBroadcast (signs : α → String → Bool) (call : α) (blockHash : String)
    (attempt txNonce : ℕ) : Phase α :=
  if signs call blockHash then
    .broadcasting attempt { call, blockHash, nonce := txNonce % 2 ^ 64 }
  else .threw

/-- From the answer to `view_access_key` to the first broadcast: the nonce that is reserved, and
what comes next. -/
def afterView (signs : α → String → Bool) (call : α) (lastUsed : ℕ) (view : AccessKeyView) :
    ℕ × Phase α :=
  let nonce := freshNonce view.nonce lastUsed
  (nonce, signAndBroadcast signs call view.blockHash 0 nonce)

/-- From the answer to a broadcast to the next one, or to the end. -/
def afterBroadcast (signs : α → String → Bool) (call : α) (lastUsed attempt : ℕ)
    (blockHash : String) : BroadcastAnswer → ℕ × Phase α
  | .invalidNonce akNonce =>
    if attempt < 2 then
      let txNonce := retryNonce akNonce
      (txNonce, signAndBroadcast signs call blockHash (attempt + 1) txNonce)
    else (lastUsed, .returned false)
  | .error => (lastUsed, .returned false)
  | .status success => (lastUsed, .returned success)
  | .threw => (lastUsed, .threw)

/-! ## All calls with one key -/

structure Chain (α : Type*) where
  akNonce : ℕ
  executed : List (SignedTx α × Bool)

def Chain.execute (chain : Chain α) (tx : SignedTx α) (success : Bool) : Chain α :=
  if chain.akNonce < tx.nonce then
    { akNonce := tx.nonce, executed := chain.executed ++ [(tx, success)] }
  else chain

def Chain.Executed (chain : Chain α) (tx : SignedTx α) : Prop :=
  ∃ success, (tx, success) ∈ chain.executed

/-- `sent` holds what an invocation has broadcast so far. A worker that is started again is a new
worker, with no nonce in use. -/
structure KeyState (ω ι α : Type*) where
  lastUsedNonces : ω → ℕ
  phase : ι → Phase α
  sent : ι → List (SignedTx α)
  chain : Chain α

structure Invocations (ω ι α : Type*) where
  worker : ι → ω
  call : ι → α
  signs : α → String → Bool

def Phase.signed : Phase α → List (SignedTx α)
  | .broadcasting _ tx => [tx]
  | _ => []

@[simp] theorem signed_broadcasting (attempt : ℕ) (tx : SignedTx α) :
    (Phase.broadcasting attempt tx).signed = [tx] := rfl

@[simp] theorem signed_returned (success : Bool) : (Phase.returned success : Phase α).signed = [] :=
  rfl

@[simp] theorem signed_threw : (Phase.threw : Phase α).signed = [] := rfl

inductive Action (ι α : Type*)
  | start (i : ι)
  | view (i : ι) (view : AccessKeyView)
  | viewFailed (i : ι)
  | deliver (i : ι) (tx : SignedTx α) (success : Bool)
  | answer (i : ι) (answer : BroadcastAnswer)
  | resume (i : ι)
  | other (tx : SignedTx α) (success : Bool)

namespace KeyState
variable [DecidableEq ι]

def setPhase (s : KeyState ω ι α) (i : ι) (phase : Phase α) : KeyState ω ι α :=
  { s with phase := Function.update s.phase i phase }

def proceed [DecidableEq ω] (s : KeyState ω ι α) (w : ω) (i : ι) (next : ℕ × Phase α) :
    KeyState ω ι α :=
  { s with
    lastUsedNonces := Function.update s.lastUsedNonces w next.1
    phase := Function.update s.phase i next.2
    sent := Function.update s.sent i (s.sent i ++ next.2.signed) }

def execute (s : KeyState ω ι α) (tx : SignedTx α) (success : Bool) : KeyState ω ι α :=
  { s with chain := s.chain.execute tx success }

@[simp] theorem setPhase_chain (s : KeyState ω ι α) (i : ι) (phase : Phase α) :
    (s.setPhase i phase).chain = s.chain := rfl

@[simp] theorem setPhase_sent (s : KeyState ω ι α) (i : ι) (phase : Phase α) :
    (s.setPhase i phase).sent = s.sent := rfl

@[simp] theorem proceed_chain [DecidableEq ω] (s : KeyState ω ι α) (w : ω) (i : ι)
    (next : ℕ × Phase α) : (s.proceed w i next).chain = s.chain := rfl

end KeyState

def Chain.Answers (chain : Chain α) (tx : SignedTx α) : BroadcastAnswer → Prop
  | .invalidNonce akNonce => akNonce = chain.akNonce ∧ tx.nonce ≤ chain.akNonce
  | .status success => (tx, success) ∈ chain.executed
  | .error => True
  | .threw => True

/-- One step: of an invocation up to its next await, or of the chain. The views may be stale, and
what was broadcast may be delivered late and many times. -/
inductive Step [DecidableEq ω] [DecidableEq ι] (calls : Invocations ω ι α) :
    KeyState ω ι α → Action ι α → KeyState ω ι α → Prop
  | start {s i} : s.phase i = .idle → Step calls s (.start i) (s.setPhase i .viewing)
  | view {s i view} : s.phase i = .viewing → view.nonce ≤ s.chain.akNonce →
      Step calls s (.view i view) (s.proceed (calls.worker i) i
        (afterView calls.signs (calls.call i) (s.lastUsedNonces (calls.worker i)) view))
  | viewFailed {s i} : s.phase i = .viewing → Step calls s (.viewFailed i) (s.setPhase i .threw)
  | deliver {s i tx success} : tx ∈ s.sent i →
      Step calls s (.deliver i tx success) (s.execute tx success)
  | answer {s i attempt tx answer} : s.phase i = .broadcasting attempt tx →
      s.chain.Answers tx answer →
      Step calls s (.answer i answer) (s.setPhase i (.answered attempt tx answer))
  | resume {s i attempt tx answer} : s.phase i = .answered attempt tx answer →
      Step calls s (.resume i) (s.proceed (calls.worker i) i
        (afterBroadcast calls.signs (calls.call i) (s.lastUsedNonces (calls.worker i)) attempt
          tx.blockHash answer))
  | other {s tx success} : Step calls s (.other tx success) (s.execute tx success)

structure Chain.Ordered (chain : Chain α) : Prop where
  increasing : chain.executed.Pairwise fun t u => t.1.nonce < u.1.nonce
  le_akNonce : ∀ t ∈ chain.executed, t.1.nonce ≤ chain.akNonce

def callSystem [DecidableEq ω] [DecidableEq ι] (calls : Invocations ω ι α)
    (P : KeyState ω ι α → Action ι α → Prop) : System (KeyState ω ι α) where
  init := {s | (∀ w, s.lastUsedNonces w = 0) ∧ (∀ i, s.phase i = .idle) ∧ (∀ i, s.sent i = []) ∧
    s.chain.Ordered}
  step s s' := ∃ a, P s a ∧ Step calls s a s'

end NearGit.ServiceWorker
