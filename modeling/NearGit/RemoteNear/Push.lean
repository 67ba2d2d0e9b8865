import NearGit.Lib.Text
import NearGit.Contract.GitStorage

/-! `do_push` of git-remote-near. The git subprocesses and the transactions it sends have any
outcome; text that a subprocess prints is decoded already. -/

namespace NearGit.RemoteNear
open Lib NearGit.Contract

/-! ## Subprocesses -/

structure Output (α : Type) where
  success : Bool
  stdout : α

/-- What the git commands of one op do, by what they are given; none where the process cannot
be run or talked to. -/
structure Git where
  revParse : (refspec : String) → Option (Output String)
  revList : (args : List String) → Option (Output String)
  packObjects : (stdin : List String) → Option (Output Bytes)

def resolveLocalRef (git : Git) (refspec : String) : String :=
  match git.revParse refspec with
  | some o => if o.success then Text.trim o.stdout else ""
  | none => ""

def revListArgs (localSha : String) (oldSha : Option String) : List String :=
  ["--objects", localSha] ++
    match oldSha with
    | some old => ["--not", old]
    | none => []

def lineSha (line : String) : Option String :=
  let sha := (Text.splitWhitespace line).head?.getD ""
  if sha = "" then none else some sha

def collectNewShas (git : Git) (localSha : String) (oldSha : Option String) : List String :=
  match git.revList (revListArgs localSha oldSha) with
  | some o => if o.success then (Text.lines o.stdout).filterMap lineSha else []
  | none => []

def packObjectsStdin (newSha : String) (oldSha : Option String) : List String :=
  newSha ::
    match oldSha with
    | some old => ["--not", old]
    | none => []

/-- None when it panics. A failure is reported on stderr only. -/
def buildPackfile (git : Git) (newSha : String) (oldSha : Option String) : Option Bytes :=
  (git.packObjects (packObjectsStdin newSha oldSha)).map Output.stdout

/-! ## Ops -/

structure PushOp where
  force : Bool
  srcRef : String
  dstRef : String
deriving DecidableEq, Repr

/-- A push spec, "push [+]<src>:<dst>". -/
def parseSpec (spec : String) : Option PushOp :=
  let spec := (Text.stripPrefix "push " spec).getD spec
  let (force, spec) :=
    match Text.stripPrefix "+" spec with
    | some rest => (true, rest)
    | none => (false, spec)
  (Text.splitOnce ':' spec).map fun (srcRef, dstRef) => { force, srcRef, dstRef }

inductive Plan
  | report (line : String)
  | send (packData : Bytes) (refUpdates : List RefUpdate)
  | panic
deriving DecidableEq, Repr

def planOp (git : Git) (remoteRefMap : String → Option String) (op : PushOp) : Plan :=
  if op.srcRef = "" then .report ("error " ++ op.dstRef ++ " delete not supported yet")
  else
    let localSha := resolveLocalRef git op.srcRef
    if localSha = "" then .report ("error " ++ op.dstRef ++ " cannot resolve ref")
    else
      let oldSha := remoteRefMap op.dstRef
      let newShas := collectNewShas git localSha oldSha
      let refUpdates := [{ name := op.dstRef, oldSha, newSha := localSha }]
      -- a failed `rev-list` is not told apart from one that lists nothing
      if newShas = [] then .send [] refUpdates
      else
        match buildPackfile git localSha oldSha with
        | some packData => .send packData refUpdates
        | none => .panic

/-- What becomes of a transaction: executed with success, executed with a failure, or an error of
the RPC. -/
inductive SendOutcome
  | success
  | failure (debug : String)
  | error (display : String)
deriving DecidableEq, Repr

def SendOutcome.line (dstRef : String) : SendOutcome → String
  | .success => "ok " ++ dstRef
  | .failure debug => "error " ++ dstRef ++ " " ++ debug
  | .error display => "error " ++ dstRef ++ " " ++ display

structure Pushed where
  sent : List (Nat × Bytes × List RefUpdate)
  results : Option (List String)
deriving DecidableEq, Repr

/-- The loop over the ops, from position `i` on. -/
def pushOps (git : Nat → Git) (send : Nat → SendOutcome) (remoteRefMap : String → Option String) :
    Nat → List PushOp → Pushed
  | _, [] => { sent := [], results := some [] }
  | i, op :: ops =>
    match planOp (git i) remoteRefMap op with
    | .report line =>
      let rest := pushOps git send remoteRefMap (i + 1) ops
      { sent := rest.sent, results := rest.results.map (line :: ·) }
    | .send packData refUpdates =>
      let rest := pushOps git send remoteRefMap (i + 1) ops
      { sent := (i, packData, refUpdates) :: rest.sent
        results := rest.results.map ((send i).line op.dstRef :: ·) }
    | .panic => { sent := [], results := none }

def toRefMap (remoteRefs : List (String × String)) : String → Option String :=
  remoteRefs.foldl (fun (map : String → Option String) (name, sha) =>
    Function.update map name (some sha)) fun _ => none

def doPush (git : Nat → Git) (send : Nat → SendOutcome) (pushSpecs : List String)
    (remoteRefs : List (String × String)) : Pushed :=
  pushOps git send (toRefMap remoteRefs) 0 (pushSpecs.filterMap parseSpec)

/-! ## What the loop does with each op -/

variable {git : Nat → Git} {send : Nat → SendOutcome} {remoteRefMap : String → Option String}

def Plan.line (plan : Plan) (dstRef : String) (send : SendOutcome) : String :=
  match plan with
  | .report line => line
  | .send _ _ => send.line dstRef
  | .panic => ""

def Plan.sent (plan : Plan) (i : Nat) : List (Nat × Bytes × List RefUpdate) :=
  match plan with
  | .send packData refUpdates => [(i, packData, refUpdates)]
  | _ => []

theorem Plan.mem_sent {plan : Plan} {i j : Nat} {packData : Bytes} {refUpdates : List RefUpdate} :
    (j, packData, refUpdates) ∈ plan.sent i ↔ j = i ∧ plan = .send packData refUpdates := by
  cases plan <;> simp [Plan.sent, eq_comm]

theorem pushOps_cons {i : Nat} {op : PushOp} {ops : List PushOp}
    (h : planOp (git i) remoteRefMap op ≠ .panic) :
    pushOps git send remoteRefMap i (op :: ops) =
      let plan := planOp (git i) remoteRefMap op
      let rest := pushOps git send remoteRefMap (i + 1) ops
      { sent := plan.sent i ++ rest.sent
        results := rest.results.map (plan.line op.dstRef (send i) :: ·) } := by
  rw [pushOps]
  cases hplan : planOp (git i) remoteRefMap op with
  | report line => rfl
  | send packData refUpdates => rfl
  | panic => exact absurd hplan h

theorem pushOps_cons_panic {i : Nat} {op : PushOp} {ops : List PushOp}
    (h : planOp (git i) remoteRefMap op = .panic) :
    pushOps git send remoteRefMap i (op :: ops) = { sent := [], results := none } := by
  rw [pushOps, h]

theorem le_of_mem_sent {i : Nat} {ops : List PushOp} {t : Nat × Bytes × List RefUpdate}
    (h : t ∈ (pushOps git send remoteRefMap i ops).sent) : i ≤ t.1 := by
  induction ops generalizing i with
  | nil => exact absurd h List.not_mem_nil
  | cons op ops ih =>
    by_cases hplan : planOp (git i) remoteRefMap op = .panic
    · rw [pushOps_cons_panic hplan] at h
      exact absurd h List.not_mem_nil
    · rw [pushOps_cons hplan] at h
      rcases List.mem_append.mp h with h | h
      · exact (Plan.mem_sent.mp h).1.ge
      · exact (Nat.le_succ i).trans (ih h)

theorem pushOps_spec {i : Nat} {ops : List PushOp} {lines : List String}
    (h : (pushOps git send remoteRefMap i ops).results = some lines) {k : Nat} {op : PushOp}
    (hk : ops[k]? = some op) :
    let plan := planOp (git (i + k)) remoteRefMap op
    plan ≠ .panic ∧ lines[k]? = some (plan.line op.dstRef (send (i + k))) ∧
      ∀ packData refUpdates,
        (i + k, packData, refUpdates) ∈ (pushOps git send remoteRefMap i ops).sent ↔
          plan = .send packData refUpdates := by
  induction ops generalizing i k lines with
  | nil => simp at hk
  | cons op' ops ih =>
    by_cases hplan : planOp (git i) remoteRefMap op' = .panic
    · rw [pushOps_cons_panic hplan] at h
      cases h
    · rw [pushOps_cons hplan] at h ⊢
      obtain ⟨rest, hrest, rfl⟩ := Option.map_eq_some_iff.mp h
      cases k with
      | zero =>
        cases hk
        refine ⟨hplan, rfl, fun packData refUpdates => ?_⟩
        rw [List.mem_append, Plan.mem_sent, Nat.add_zero]
        constructor
        · rintro (⟨-, heq⟩ | hmem)
          · exact heq
          · exact absurd (le_of_mem_sent hmem) (Nat.not_succ_le_self i)
        · exact fun heq => .inl ⟨rfl, heq⟩
      | succ k =>
        have hpos : i + (k + 1) = i + 1 + k := by omega
        rw [hpos]
        obtain ⟨hne, hline, hsent⟩ := ih hrest hk
        refine ⟨hne, hline, fun packData refUpdates => ?_⟩
        rw [List.mem_append, Plan.mem_sent, hsent]
        have hi : i + 1 + k ≠ i := by omega
        exact ⟨fun h => h.resolve_left fun heq => hi heq.1, .inr⟩

theorem exists_results {i : Nat} {ops : List PushOp}
    (h : ∀ (k : Nat) op, ops[k]? = some op → planOp (git (i + k)) remoteRefMap op ≠ .panic) :
    ∃ lines, (pushOps git send remoteRefMap i ops).results = some lines := by
  induction ops generalizing i with
  | nil => exact ⟨[], rfl⟩
  | cons op ops ih =>
    have hrest : ∀ (k : Nat) op, ops[k]? = some op →
        planOp (git (i + 1 + k)) remoteRefMap op ≠ .panic := by
      intro k op hk
      have hpos : i + 1 + k = i + (k + 1) := by omega
      rw [hpos]
      exact h (k + 1) op hk
    obtain ⟨lines, hlines⟩ := ih hrest
    have hop : planOp (git i) remoteRefMap op ≠ .panic := h 0 op rfl
    rw [pushOps_cons hop]
    exact ⟨_, congrArg (Option.map _) hlines⟩

end NearGit.RemoteNear
