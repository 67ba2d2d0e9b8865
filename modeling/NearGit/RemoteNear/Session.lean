import NearGit.RemoteNear.Push

/-! The remote helper: git writes commands to git-remote-near and reads the answers off its
stdout. A fetch or a push is a batch of lines that a blank one ends. -/

namespace NearGit.RemoteNear
open Lib NearGit.Contract

/-! ## The loop of the helper -/

/-- What the helper meets while it handles a command. A view call has no result where it fails;
`takesPack` tells whether the process for a pack can be run and takes it. -/
structure Surroundings where
  credentials : Bool
  refs : Option (List (String × String))
  packs : Option (List Bytes)
  takesPack : ℕ → Bool
  git : ℕ → Git
  send : ℕ → SendOutcome

structure Reply where
  lines : Option (List String)
  indexed : List Bytes := []
  sent : List (ℕ × Bytes × List RefUpdate) := []

def listRefs (refs : List (String × String)) : List (String × String) :=
  refs.map fun (name, sha) => (sha, name)

def headLines (refs : List (String × String)) : List String :=
  if refs.any fun (_, n) => n = "refs/heads/main" then ["@refs/heads/main HEAD"]
  else if refs.any fun (_, n) => n = "refs/heads/master" then ["@refs/heads/master HEAD"]
  else []

def list (env : Surroundings) : Reply :=
  let lines := env.refs.map fun result =>
    let refs := listRefs result
    refs.map (fun (sha, name) => sha ++ " " ++ name) ++ headLines refs ++ [""]
  { lines }

def wantedSha (line : String) : Option String :=
  let sha := (Text.splitWhitespace line)[1]?.getD ""
  if sha = "" then none else some sha

def fetchWants (line : String) (batch : List String) : List String :=
  (line :: batch.filter fun nextLine => (Text.stripPrefix "fetch " nextLine).isSome).filterMap
    wantedSha

/-- `do_fetch` up to the processes of index-pack: they get all packs whatever is wanted, up to one
that cannot be handed over. -/
def fetch (_wants : List String) (env : Surroundings) : Reply :=
  match env.packs with
  | none => { lines := none }
  | some packs =>
    let taken := ((List.range packs.length).takeWhile env.takesPack).length
    { lines := if taken = packs.length then some [""] else none
      indexed := packs.take taken }

def push (pushSpecs : List String) (env : Surroundings) : Reply :=
  match env.refs with
  | none => { lines := none }
  | some remoteRefs =>
    let pushed := doPush env.git env.send pushSpecs remoteRefs
    { lines := pushed.results.map fun results => results ++ [""]
      sent := pushed.sent }

/-- The trimmed lines up to a blank one, and what follows it. -/
def readBatch : List String → List String × List String
  | [] => ([], [])
  | nextLine :: lines =>
    if Text.trim nextLine = "" then ([], lines)
    else
      let (batch, lines) := readBatch lines
      (Text.trim nextLine :: batch, lines)

/-- What a trimmed line leads to, whether the credentials are in the cache then, and the lines
that are left. -/
def turn (env : Surroundings) (cached : Bool) (line : String) (lines : List String) :
    Reply × Bool × List String :=
  if line = "capabilities" then ({ lines := some ["fetch", "push", ""] }, cached, lines)
  else if line = "list" ∨ line = "list for-push" then (list env, cached, lines)
  else if (Text.stripPrefix "fetch " line).isSome then
    let (batch, lines) := readBatch lines
    (fetch (fetchWants line batch) env, cached, lines)
  else if (Text.stripPrefix "push " line).isSome then
    if cached || env.credentials then
      let (batch, lines) := readBatch lines
      (push (line :: batch) env, true, lines)
    else ({ lines := none }, false, lines)
  else if (Text.stripPrefix "option " line).isSome then
    ({ lines := some ["unsupported"] }, cached, lines)
  -- an unknown command is reported on stderr
  else ({ lines := some [] }, cached, lines)

theorem length_readBatch_le (lines : List String) :
    (readBatch lines).2.length ≤ lines.length := by
  induction lines with
  | nil => exact le_rfl
  | cons nextLine lines ih =>
    unfold readBatch
    split_ifs
    · exact Nat.le_succ _
    · exact ih.trans (Nat.le_succ _)

theorem length_turn_le (env : Surroundings) (cached : Bool) (line : String) (lines : List String) :
    (turn env cached line lines).2.2.length ≤ lines.length := by
  unfold turn
  split_ifs
  all_goals first | exact le_rfl | exact length_readBatch_le lines

/-- The loop of `run`, where `env i` is met by the command that comes in position `i`. -/
def run (env : ℕ → Surroundings) (i : ℕ) (cached : Bool) : List String → List Reply
  | [] => []
  | line :: lines =>
    if Text.trim line = "" then run env i cached lines
    else
      let next := turn (env i) cached (Text.trim line) lines
      if next.1.lines.isNone then [next.1]
      else next.1 :: run env (i + 1) next.2.1 next.2.2
termination_by lines => lines.length
decreasing_by
  · exact Nat.lt_succ_self _
  · exact Nat.lt_succ_of_le (length_turn_le ..)

def session (env : ℕ → Surroundings) (stdin : String) : List Reply :=
  run env 0 false (Text.lines stdin)

def stdout (replies : List Reply) : String :=
  Text.printed (replies.flatMap fun reply => reply.lines.getD [])

/-! ## One command -/

section Turn
variable (env : Surroundings) (cached : Bool) {line : String}

def IsEntry (line : String) : Prop := Text.trim line = line ∧ line ≠ ""

instance (line : String) : Decidable (IsEntry line) := inferInstanceAs (Decidable (_ ∧ _))

theorem readBatch_append {batch : List String} (h : ∀ line ∈ batch, IsEntry line)
    (lines : List String) : readBatch (batch ++ "" :: lines) = (batch, lines) := by
  induction batch with
  | nil => rfl
  | cons line batch ih =>
    obtain ⟨⟨htrim, hne⟩, hbatch⟩ := List.forall_mem_cons.mp h
    rw [List.cons_append, readBatch, htrim, if_neg hne, ih hbatch]

theorem turn_fetch (h : "fetch ".toList <+: line.toList) {batch : List String}
    (hbatch : ∀ line ∈ batch, IsEntry line) (lines : List String) :
    turn env cached line (batch ++ "" :: lines) =
      (fetch (fetchWants line batch) env, cached, lines) := by
  have hcapabilities : line ≠ "capabilities" := Text.ne_of_prefix h (by decide)
  have hlist : ¬ (line = "list" ∨ line = "list for-push") :=
    not_or.mpr ⟨Text.ne_of_prefix h (by decide), Text.ne_of_prefix h (by decide)⟩
  have hfetch : (Text.stripPrefix "fetch " line).isSome = true := Text.isSome_stripPrefix.mpr h
  rw [turn, if_neg hcapabilities, if_neg hlist, if_pos hfetch, readBatch_append hbatch]

theorem turn_push (h : "push ".toList <+: line.toList) (hcredentials : env.credentials = true)
    {batch : List String} (hbatch : ∀ line ∈ batch, IsEntry line) (lines : List String) :
    turn env cached line (batch ++ "" :: lines) = (push (line :: batch) env, true, lines) := by
  have hcapabilities : line ≠ "capabilities" := Text.ne_of_prefix h (by decide)
  have hlist : ¬ (line = "list" ∨ line = "list for-push") :=
    not_or.mpr ⟨Text.ne_of_prefix h (by decide), Text.ne_of_prefix h (by decide)⟩
  have hfetch : ¬ (Text.stripPrefix "fetch " line).isSome = true := by
    rw [Text.isSome_stripPrefix]
    exact Text.not_prefix_of_prefix h (by decide) (by decide)
  have hpush : (Text.stripPrefix "push " line).isSome = true := Text.isSome_stripPrefix.mpr h
  have hsigner : (cached || env.credentials) = true := by rw [hcredentials, Bool.or_true]
  rw [turn, if_neg hcapabilities, if_neg hlist, if_neg hfetch, if_pos hpush, if_pos hsigner,
    readBatch_append hbatch]

theorem turn_option (h : "option ".toList <+: line.toList) (lines : List String) :
    turn env cached line lines = ({ lines := some ["unsupported"] }, cached, lines) := by
  have hcapabilities : line ≠ "capabilities" := Text.ne_of_prefix h (by decide)
  have hlist : ¬ (line = "list" ∨ line = "list for-push") :=
    not_or.mpr ⟨Text.ne_of_prefix h (by decide), Text.ne_of_prefix h (by decide)⟩
  have hfetch : ¬ (Text.stripPrefix "fetch " line).isSome = true := by
    rw [Text.isSome_stripPrefix]
    exact Text.not_prefix_of_prefix h (by decide) (by decide)
  have hpush : ¬ (Text.stripPrefix "push " line).isSome = true := by
    rw [Text.isSome_stripPrefix]
    exact Text.not_prefix_of_prefix h (by decide) (by decide)
  have hoption : (Text.stripPrefix "option " line).isSome = true := Text.isSome_stripPrefix.mpr h
  rw [turn, if_neg hcapabilities, if_neg hlist, if_neg hfetch, if_neg hpush, if_pos hoption]

theorem run_cons {env : ℕ → Surroundings} {i : ℕ} {cached cached' : Bool} {line : String}
    {lines lines' : List String} {reply : Reply} (hline : IsEntry line)
    (hturn : turn (env i) cached line lines = (reply, cached', lines'))
    (hreply : reply.lines ≠ none) :
    run env i cached (line :: lines) = reply :: run env (i + 1) cached' lines' := by
  have hsome : ¬ reply.lines.isNone = true := by rwa [Option.isNone_iff_eq_none]
  rw [run, hline.1, if_neg hline.2, hturn]
  exact if_neg hsome

end Turn

end NearGit.RemoteNear
