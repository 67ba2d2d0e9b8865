import NearGit.RemoteNear.Session

/-! The conversation of git with git-remote-near: git writes commands, and reads the answers off
the stdout of the helper, which says nothing about where an answer begins. -/

namespace NearGit.RemoteNear
open Lib NearGit.Contract

/-! ## The side of git -/

structure FetchLine where
  sha : String
  name : String
  isWord_sha : Text.IsWord sha
  isWord_name : Text.IsWord name

def FetchLine.line (fetch : FetchLine) : String := "fetch " ++ fetch.sha ++ " " ++ fetch.name

/-- A push spec as git writes it; without a source it is a deletion. -/
structure PushSpec where
  op : PushOp
  isWord_dst : Text.IsWord op.dstRef
  src_notWhitespace : ∀ c ∈ op.srcRef.toList, Text.isWhitespace c = false
  src_notColon : ':' ∉ op.srcRef.toList
  src_head : op.srcRef.toList.head? ≠ some '+'

def PushSpec.line (spec : PushSpec) : String :=
  "push " ++ (if spec.op.force then "+" else "") ++ spec.op.srcRef ++ ":" ++ spec.op.dstRef

inductive Command
  | capabilities
  | list (forPush : Bool)
  | option (name value : String) (isWord_name : Text.IsWord name) (isWord_value : Text.IsWord value)
  | fetch (first : FetchLine) (others : List FetchLine)
  | push (first : PushSpec) (others : List PushSpec)

def Command.lines : Command → List String
  | capabilities => ["capabilities"]
  | list forPush => [if forPush then "list for-push" else "list"]
  | option name value _ _ => ["option " ++ name ++ " " ++ value]
  | fetch first others => (first :: others).map FetchLine.line ++ [""]
  | push first others => (first :: others).map PushSpec.line ++ [""]

def script (commands : List Command) : String :=
  Text.printed (commands.flatMap Command.lines ++ [""])

inductive Answer
  | capabilities (names : List String)
  | refs (refs : List (String × String)) (head : Option String)
  | unsupported
  | fetched
  | pushed (statuses : List (String × Bool))
deriving DecidableEq, Repr

def upToBlank : List String → Option (List String × List String)
  | [] => none
  | line :: lines =>
    if line = "" then some ([], lines)
    else (upToBlank lines).map fun (block, lines) => (line :: block, lines)

/-- A line of a list: a ref with its SHA, or what a symbolic ref points to. -/
def readRef (line : String) : Option (String × String ⊕ String) := do
  let (value, name) ← Text.splitOnce ' ' line
  match Text.stripPrefix "@" value with
  | some target => return .inr target
  | none => return .inl (name, value)

def readStatus (line : String) : Option (String × Bool) := do
  let (verdict, rest) ← Text.splitOnce ' ' line
  let dst := ((Text.splitOnce ' ' rest).map Prod.fst).getD rest
  if verdict = "ok" then return (dst, true)
  else if verdict = "error" then return (dst, false)
  else none

/-- What git takes for the answer to a command, and the lines that it leaves. -/
def hear : Command → List String → Option (Answer × List String)
  | .capabilities, lines => do
    let (block, lines) ← upToBlank lines
    return (.capabilities block, lines)
  | .list _, lines => do
    let (block, lines) ← upToBlank lines
    let items ← block.mapM readRef
    return (.refs (items.filterMap Sum.getLeft?) (items.filterMap Sum.getRight?).head?, lines)
  | .option .., lines => do
    let line ← lines.head?
    if line = "unsupported" then return (.unsupported, lines.tail) else none
  | .fetch .., lines => do
    let (block, lines) ← upToBlank lines
    if block = [] then return (.fetched, lines) else none
  | .push .., lines => do
    let (block, lines) ← upToBlank lines
    let statuses ← block.mapM readStatus
    return (.pushed statuses, lines)

def hearAll : List Command → List String → Option (List Answer)
  | [], lines => if lines = [] then some [] else none
  | command :: commands, lines => do
    let (answer, lines) ← hear command lines
    let answers ← hearAll commands lines
    return answer :: answers

/-! ## The right answers -/

def headOf (refs : List (String × String)) : Option String :=
  ["refs/heads/main", "refs/heads/master"].find? fun name => name ∈ refs.map Prod.fst

def accepted (env : Surroundings) (remoteRefs : List (String × String)) (k : ℕ) (op : PushOp) :
    Bool :=
  match planOp (env.git k) (toRefMap remoteRefs) op with
  | .send _ _ => env.send k = .success
  | _ => false

def Command.answer (env : Surroundings) : Command → Answer
  | capabilities => .capabilities ["fetch", "push"]
  | list _ => .refs (env.refs.getD []) (headOf (env.refs.getD []))
  | option .. => .unsupported
  | fetch .. => .fetched
  | push first others => .pushed ((first :: others).mapIdx fun k spec =>
      (spec.op.dstRef, accepted env (env.refs.getD []) k spec.op))

def Command.indexed (env : Surroundings) : Command → List Bytes
  | fetch .. => env.packs.getD []
  | _ => []

def Command.sent (env : Surroundings) : Command → List (ℕ × Bytes × List RefUpdate)
  | push first others =>
    (pushOps env.git env.send (toRefMap (env.refs.getD [])) 0
      ((first :: others).map PushSpec.op)).sent
  | _ => []

def Listable (ref : String × String) : Prop :=
  Text.IsLine ref.1 ∧ Text.IsLine ref.2 ∧ ' ' ∉ ref.2.toList ∧ ref.2.toList.head? ≠ some '@'

def SendOutcome.IsLine : SendOutcome → Prop
  | .success => True
  | .failure text | .error text => Text.IsLine text

/-- The calls and the processes that a command needs do not fail. -/
def Serves (env : Surroundings) : Command → Prop
  | .capabilities | .option .. => True
  | .list _ => ∃ refs, env.refs = some refs ∧ ∀ ref ∈ refs, Listable ref
  | .fetch .. => ∃ packs, env.packs = some packs ∧ ∀ i < packs.length, env.takesPack i = true
  | .push first others => env.credentials = true ∧ ∃ refs, env.refs = some refs ∧
      ∀ (k : ℕ) spec, (first :: others)[k]? = some spec →
        planOp (env.git k) (toRefMap refs) spec.op ≠ .panic ∧ (env.send k).IsLine

/-! ## The lines that git writes -/

theorem isLine_empty : Text.IsLine "" := by decide

/-- A line of a command arrives as it is written, and tells which command it is. -/
structure IsCommand (command line : String) : Prop where
  isEntry : IsEntry line
  isLine : Text.IsLine line
  isPrefix : command.toList <+: line.toList

theorem isCommand_append {command middle word : String}
    (hhead : command.toList.head?.all fun c => !Text.isWhitespace c) (hne : command.toList ≠ [])
    (hcommand : Text.IsLine command) (hmiddle : Text.IsLine middle) (hword : Text.IsWord word) :
    IsCommand command (command ++ middle ++ word) := by
  have hpre : (command ++ middle).toList ≠ [] := by
    rw [String.toList_append]
    exact List.append_ne_nil_of_left_ne_nil hne _
  refine ⟨⟨Text.trim_append_word ?_ hpre hword, ?_⟩, ?_, ?_⟩
  · rwa [String.toList_append, List.head?_append_of_ne_nil _ hne]
  · intro hempty
    rw [← String.toList_inj, String.toList_append] at hempty
    exact hpre (List.append_eq_nil_iff.mp hempty).1
  · exact (hcommand.append hmiddle).append hword.isLine
  · rw [String.toList_append, String.toList_append, List.append_assoc]
    exact List.prefix_append ..

theorem FetchLine.isCommand (entry : FetchLine) : IsCommand "fetch " entry.line := by
  have hspace : Text.IsLine " " := by decide
  have hline : entry.line = "fetch " ++ (entry.sha ++ " ") ++ entry.name := by
    simp only [line, String.append_assoc]
  rw [hline]
  exact isCommand_append rfl (by decide) (by decide) (entry.isWord_sha.isLine.append hspace)
    entry.isWord_name

theorem isLine_of_notWhitespace {s : String} (h : ∀ c ∈ s.toList, Text.isWhitespace c = false) :
    Text.IsLine s := by
  by_cases hne : s.toList = []
  · rw [Text.IsLine, hne]
    decide
  · exact Text.IsWord.isLine ⟨hne, h⟩

theorem PushSpec.isCommand (spec : PushSpec) : IsCommand "push " spec.line := by
  have hforce : Text.IsLine (if spec.op.force then "+" else "") := by
    split_ifs
    · decide
    · decide
  have hcolon : Text.IsLine ":" := by decide
  have hsrc := isLine_of_notWhitespace spec.src_notWhitespace
  have hline : spec.line =
      "push " ++ ((if spec.op.force then "+" else "") ++ spec.op.srcRef ++ ":") ++
        spec.op.dstRef := by
    simp only [line, String.append_assoc]
  rw [hline]
  exact isCommand_append rfl (by decide) (by decide) ((hforce.append hsrc).append hcolon)
    spec.isWord_dst

theorem PushSpec.parseSpec_line (spec : PushSpec) : parseSpec spec.line = some spec.op := by
  have hsplit : Text.splitOnce ':' (spec.op.srcRef ++ ":" ++ spec.op.dstRef) =
      some (spec.op.srcRef, spec.op.dstRef) := Text.splitOnce_join rfl spec.src_notColon _
  have hpush : Text.stripPrefix "push " spec.line =
      some ((if spec.op.force then "+" else "") ++ (spec.op.srcRef ++ ":" ++ spec.op.dstRef)) := by
    rw [line, String.append_assoc, String.append_assoc, String.append_assoc,
      Text.stripPrefix_self_append, String.append_assoc]
  unfold parseSpec
  rw [hpush, Option.getD_some]
  cases hforce : spec.op.force with
  | true =>
    simp only [if_true, Text.stripPrefix_self_append, hsplit, Option.map_some]
    rw [← hforce]
  | false =>
    -- no `+` at the head of the source, nor of the colon behind an empty one
    have hplain : Text.stripPrefix "+" (spec.op.srcRef ++ ":" ++ spec.op.dstRef) = none := by
      rw [← Option.not_isSome_iff_eq_none, Text.isSome_stripPrefix]
      rintro ⟨l, hl⟩
      rw [String.toList_append, String.toList_append] at hl
      rcases hsrc : spec.op.srcRef.toList with _ | ⟨c, src⟩
      · rw [hsrc] at hl
        exact absurd (List.cons.inj hl).1 (by decide)
      · rw [hsrc] at hl
        have hplus : '+' = c := (List.cons.inj hl).1
        apply spec.src_head
        rw [hsrc, List.head?_cons, hplus]
    simp only [Bool.false_eq_true, if_false, String.empty_append, hplain, hsplit, Option.map_some]
    rw [← hforce]

theorem Command.isLine (command : Command) : ∀ line ∈ command.lines, Text.IsLine line := by
  unfold lines
  cases command with
  | capabilities => exact List.forall_mem_singleton.mpr (by decide)
  | list forPush =>
    rw [List.forall_mem_singleton]
    split_ifs
    · decide
    · decide
  | option name value hname hvalue =>
    have hoption : Text.IsLine "option " := by decide
    have hspace : Text.IsLine " " := by decide
    rw [List.forall_mem_singleton]
    exact ((hoption.append hname.isLine).append hspace).append hvalue.isLine
  | fetch first others =>
    rw [List.forall_mem_append, List.forall_mem_map, List.forall_mem_singleton]
    exact ⟨fun entry _ => entry.isCommand.isLine, by decide⟩
  | push first others =>
    rw [List.forall_mem_append, List.forall_mem_map, List.forall_mem_singleton]
    exact ⟨fun spec _ => spec.isCommand.isLine, by decide⟩

/-! ## The lines that git reads -/

theorem upToBlank_append {block : List String} (h : ∀ line ∈ block, line ≠ "")
    (lines : List String) : upToBlank (block ++ "" :: lines) = some (block, lines) := by
  induction block with
  | nil => rfl
  | cons line block ih =>
    obtain ⟨hne, hblock⟩ := List.forall_mem_cons.mp h
    rw [List.cons_append, upToBlank, if_neg hne, ih hblock]
    rfl

theorem readRef_line {ref : String × String} (h : Listable ref) :
    readRef (ref.2 ++ " " ++ ref.1) = some (.inl ref) := by
  have hsha : Text.stripPrefix "@" ref.2 = none := by
    rw [← Option.not_isSome_iff_eq_none, Text.isSome_stripPrefix]
    rintro ⟨l, hl⟩
    apply h.2.2.2
    rw [← hl]
    rfl
  rw [readRef, Text.splitOnce_join rfl h.2.2.1]
  simp only [Option.bind_eq_bind, Option.bind_some, hsha]
  rfl

theorem isLine_ref {ref : String × String} (h : Listable ref) :
    Text.IsLine (ref.2 ++ " " ++ ref.1) ∧ ref.2 ++ " " ++ ref.1 ≠ "" := by
  have hspace : Text.IsLine " " := by decide
  refine ⟨(h.2.1.append hspace).append h.1, fun hempty => ?_⟩
  rw [← String.toList_inj, String.toList_append, String.toList_append] at hempty
  simp at hempty

theorem headLines_eq (refs : List (String × String)) :
    headLines (listRefs refs) = ((headOf refs).map fun target => "@" ++ target ++ " HEAD").toList := by
  have hany (name : String) : ((listRefs refs).any fun (_, n) => n = name) =
      decide (name ∈ refs.map Prod.fst) := by
    rw [Bool.eq_iff_iff, listRefs, List.any_map, List.any_eq_true, decide_eq_true_iff, List.mem_map]
    simp
  unfold headLines headOf
  rw [hany, hany]
  by_cases hmain : "refs/heads/main" ∈ refs.map Prod.fst
  · simp [hmain]
  · by_cases hmaster : "refs/heads/master" ∈ refs.map Prod.fst
    · simp [hmain, hmaster]
    · simp [hmain, hmaster]

theorem headOf_eq_some {refs : List (String × String)} {target : String}
    (h : headOf refs = some target) : target = "refs/heads/main" ∨ target = "refs/heads/master" := by
  have hmem := List.mem_of_find?_eq_some h
  simpa using hmem

theorem mapM_map_eq_some {α β γ : Type} {f : β → Option γ} {g : α → β} {f' : α → γ} {l : List α}
    (h : ∀ a ∈ l, f (g a) = some (f' a)) : (l.map g).mapM f = some (l.map f') := by
  induction l with
  | nil => rfl
  | cons a l ih =>
    obtain ⟨ha, hl⟩ := List.forall_mem_cons.mp h
    rw [List.map_cons, List.mapM_cons, ha, ih hl]
    rfl

theorem hear_list {refs : List (String × String)} (h : ∀ ref ∈ refs, Listable ref) :
    ∃ block, (∀ line ∈ block, Text.IsLine line ∧ line ≠ "") ∧
      (listRefs refs).map (fun (sha, name) => sha ++ " " ++ name) ++ headLines (listRefs refs) =
        block ∧
      block.mapM readRef = some (refs.map .inl ++ (headOf refs).toList.map .inr) := by
  refine ⟨_, ?_, rfl, ?_⟩
  · rw [List.forall_mem_append, headLines_eq, listRefs, List.map_map, List.forall_mem_map]
    refine ⟨fun ref hmem => isLine_ref (h ref hmem), fun line hmem => ?_⟩
    obtain ⟨target, htarget, rfl⟩ := Option.map_eq_some_iff.mp (Option.mem_toList.mp hmem)
    rcases headOf_eq_some htarget with rfl | rfl
    · decide
    · decide
  · have hhead : ((headOf refs).map fun target => "@" ++ target ++ " HEAD").toList.mapM readRef =
        some ((headOf refs).toList.map .inr) := by
      cases htarget : headOf refs with
      | none => rfl
      | some target =>
        rcases headOf_eq_some htarget with rfl | rfl
        · rfl
        · rfl
    have hrefs : (refs.map fun ref => ref.2 ++ " " ++ ref.1).mapM readRef =
        some (refs.map .inl) := mapM_map_eq_some fun ref hmem => readRef_line (h ref hmem)
    rw [headLines_eq, listRefs, List.map_map, List.mapM_append]
    simp only [Function.comp_def, hrefs, hhead]
    rfl

theorem readStatus_ok {dst : String} (h : Text.IsWord dst) :
    readStatus ("ok " ++ dst) = some (dst, true) := by
  have hverdict : Text.splitOnce ' ' ("ok" ++ " " ++ dst) = some ("ok", dst) :=
    Text.splitOnce_join rfl (by decide) dst
  have hdst : Text.splitOnce ' ' dst = none := Text.splitOnce_eq_none (h.notMem (by decide))
  have hline : "ok " ++ dst = "ok" ++ " " ++ dst := rfl
  rw [readStatus, hline, hverdict]
  simp only [Option.bind_eq_bind, Option.bind_some, hdst]
  rfl

theorem readStatus_error {dst : String} (h : Text.IsWord dst) (reason : String) :
    readStatus ("error " ++ dst ++ " " ++ reason) = some (dst, false) := by
  have hverdict : Text.splitOnce ' ' ("error" ++ " " ++ (dst ++ " " ++ reason)) =
      some ("error", dst ++ " " ++ reason) := Text.splitOnce_join rfl (by decide) _
  have hdst : Text.splitOnce ' ' (dst ++ " " ++ reason) = some (dst, reason) :=
    Text.splitOnce_join rfl (h.notMem (by decide)) reason
  have hline : "error " ++ dst ++ " " ++ reason = "error" ++ " " ++ (dst ++ " " ++ reason) := by
    have herror : "error " = "error" ++ " " := rfl
    rw [herror]
    simp only [String.append_assoc]
  rw [readStatus, hline, hverdict]
  simp only [Option.bind_eq_bind, Option.bind_some, hdst]
  rfl

theorem planOp_report {git : Git} {remoteRefMap : String → Option String} {op : PushOp}
    {line : String} (h : planOp git remoteRefMap op = .report line) :
    ∃ reason, Text.IsLine reason ∧ line = "error " ++ op.dstRef ++ " " ++ reason := by
  unfold planOp at h
  split_ifs at h
  · obtain rfl := Plan.report.inj h
    have hreason : " delete not supported yet" = " " ++ "delete not supported yet" := rfl
    refine ⟨"delete not supported yet", by decide, ?_⟩
    simp only [hreason, String.append_assoc]
  · simp only at h
    split_ifs at h
    · obtain rfl := Plan.report.inj h
      have hreason : " cannot resolve ref" = " " ++ "cannot resolve ref" := rfl
      refine ⟨"cannot resolve ref", by decide, ?_⟩
      simp only [hreason, String.append_assoc]
    · split at h
      · cases h
      · cases h

theorem readStatus_line {env : Surroundings} {remoteRefs : List (String × String)} {k : ℕ}
    {op : PushOp} (hdst : Text.IsWord op.dstRef)
    (hplan : planOp (env.git k) (toRefMap remoteRefs) op ≠ .panic) (hsend : (env.send k).IsLine) :
    let line := (planOp (env.git k) (toRefMap remoteRefs) op).line op.dstRef (env.send k)
    Text.IsLine line ∧ readStatus line = some (op.dstRef, accepted env remoteRefs k op) := by
  have hok : Text.IsLine "ok " := by decide
  have herror : Text.IsLine "error " := by decide
  have hspace : Text.IsLine " " := by decide
  have hreason {reason : String} (h : Text.IsLine reason) :
      Text.IsLine ("error " ++ op.dstRef ++ " " ++ reason) :=
    ((herror.append hdst.isLine).append hspace).append h
  unfold accepted
  rcases hop : planOp (env.git k) (toRefMap remoteRefs) op with line | ⟨packData, refUpdates⟩ | _
  · obtain ⟨reason, hline, rfl⟩ := planOp_report hop
    exact ⟨hreason hline, readStatus_error hdst reason⟩
  · unfold SendOutcome.IsLine at hsend
    rcases houtcome : env.send k with _ | text | text
    · exact ⟨hok.append hdst.isLine, readStatus_ok hdst⟩
    · rw [houtcome] at hsend
      exact ⟨hreason hsend, readStatus_error hdst text⟩
    · rw [houtcome] at hsend
      exact ⟨hreason hsend, readStatus_error hdst text⟩
  · exact absurd hop hplan

theorem pushOps_statuses {env : Surroundings} {remoteRefs : List (String × String)} {i : ℕ}
    {specs : List PushSpec}
    (h : ∀ (k : ℕ) spec, specs[k]? = some spec →
      planOp (env.git (i + k)) (toRefMap remoteRefs) spec.op ≠ .panic ∧ (env.send (i + k)).IsLine) :
    ∃ results,
      (pushOps env.git env.send (toRefMap remoteRefs) i (specs.map PushSpec.op)).results =
        some results ∧
      (∀ line ∈ results, Text.IsLine line ∧ line ≠ "") ∧
      results.mapM readStatus = some (specs.mapIdx fun k spec =>
        (spec.op.dstRef, accepted env remoteRefs (i + k) spec.op)) := by
  induction specs generalizing i with
  | nil => exact ⟨[], rfl, fun _ => (List.not_mem_nil · |>.elim), rfl⟩
  | cons spec specs ih =>
    obtain ⟨hplan, hsend⟩ := h 0 spec rfl
    rw [Nat.add_zero] at hplan hsend
    have hnext (k : ℕ) : i + 1 + k = i + (k + 1) := by omega
    have hrest : ∀ (k : ℕ) spec, specs[k]? = some spec →
        planOp (env.git (i + 1 + k)) (toRefMap remoteRefs) spec.op ≠ .panic ∧
          (env.send (i + 1 + k)).IsLine := by
      intro k spec' hk
      rw [hnext]
      exact h (k + 1) spec' hk
    obtain ⟨results, hresults, hlines, hread⟩ := ih hrest
    obtain ⟨hline, hstatus⟩ := readStatus_line spec.isWord_dst hplan hsend
    rw [List.map_cons, pushOps_cons hplan]
    refine ⟨_, congrArg (Option.map _) hresults, List.forall_mem_cons.mpr ⟨⟨hline, ?_⟩, hlines⟩, ?_⟩
    · rintro hempty
      rw [hempty] at hstatus
      cases hstatus
    · rw [List.mapM_cons, hread, List.mapIdx_cons]
      simp only [Nat.add_zero, hstatus, hnext]
      rfl

/-! ## Command after command -/

def Command.reply (env : Surroundings) : Command → Reply
  | capabilities => { lines := some ["fetch", "push", ""] }
  | list _ => RemoteNear.list env
  | option .. => { lines := some ["unsupported"] }
  | fetch first others => RemoteNear.fetch ((first :: others).map FetchLine.sha) env
  | push first others => RemoteNear.push ((first :: others).map PushSpec.line) env

/-- The reply to a command: git takes its lines for the right answer, and no line more. -/
structure Answers (env : Surroundings) (command : Command) (block : List String) : Prop where
  lines : (command.reply env).lines = some block
  isLine : ∀ line ∈ block, Text.IsLine line
  hear : ∀ rest, hear command (block ++ rest) = some (command.answer env, rest)
  indexed : (command.reply env).indexed = command.indexed env
  sent : (command.reply env).sent = command.sent env

section Answers
variable {env : Surroundings}

theorem exists_answers_list {forPush : Bool} (h : Serves env (.list forPush)) :
    ∃ block, Answers env (.list forPush) block := by
  obtain ⟨refs, hrefs, hlistable⟩ := h
  obtain ⟨block, hlines, hblock, hread⟩ := hear_list hlistable
  refine ⟨block ++ [""], ?_, ?_, fun rest => ?_, rfl, rfl⟩
  · simp only [Command.reply, RemoteNear.list, hrefs, Option.map_some, hblock]
  · rw [List.forall_mem_append, List.forall_mem_singleton]
    exact ⟨fun line hmem => (hlines line hmem).1, isLine_empty⟩
  · have hupTo := upToBlank_append (fun line hmem => (hlines line hmem).2) rest
    rw [List.append_assoc, List.singleton_append]
    simp only [hear, hupTo, hread, Option.bind_eq_bind, Option.bind_some, Command.answer, hrefs,
      Option.getD_some, List.filterMap_append, List.filterMap_map, Function.comp_def]
    cases headOf refs with
    | none => simp
    | some target => simp

theorem exists_answers_fetch {first : FetchLine} {others : List FetchLine}
    (h : Serves env (.fetch first others)) : ∃ block, Answers env (.fetch first others) block := by
  obtain ⟨packs, hpacks, htakes⟩ := h
  have hall : (List.range packs.length).takeWhile env.takesPack = List.range packs.length := by
    rw [List.takeWhile_eq_self_iff]
    exact fun i hi => htakes i (List.mem_range.mp hi)
  have hreply : (Command.fetch first others).reply env =
      { lines := some [""], indexed := packs } := by
    simp only [Command.reply, RemoteNear.fetch, hpacks, hall, List.length_range, if_true,
      List.take_length]
  refine ⟨[""], ?_, List.forall_mem_singleton.mpr isLine_empty, fun rest => rfl, ?_, ?_⟩
  · rw [hreply]
  · rw [hreply, Command.indexed, hpacks, Option.getD_some]
  · rw [hreply]
    rfl

theorem exists_answers_push {first : PushSpec} {others : List PushSpec}
    (h : Serves env (.push first others)) : ∃ block, Answers env (.push first others) block := by
  obtain ⟨-, refs, hrefs, hops⟩ := h
  have hparse : ((first :: others).map PushSpec.line).filterMap parseSpec =
      (first :: others).map PushSpec.op := by
    rw [List.filterMap_map, ← List.filterMap_eq_map]
    apply List.filterMap_congr
    intro spec _
    rw [Function.comp_apply, PushSpec.parseSpec_line, Function.comp_apply]
  have hserves : ∀ (k : ℕ) spec, (first :: others)[k]? = some spec →
      planOp (env.git (0 + k)) (toRefMap refs) spec.op ≠ .panic ∧ (env.send (0 + k)).IsLine := by
    intro k spec hk
    rw [Nat.zero_add]
    exact hops k spec hk
  obtain ⟨results, hresults, hlines, hread⟩ := pushOps_statuses hserves
  simp only [Nat.zero_add] at hread
  refine ⟨results ++ [""], ?_, ?_, fun rest => ?_, ?_, ?_⟩
  · simp only [Command.reply, RemoteNear.push, hrefs, doPush, hparse, hresults, Option.map_some]
  · rw [List.forall_mem_append, List.forall_mem_singleton]
    exact ⟨fun line hmem => (hlines line hmem).1, isLine_empty⟩
  · have hupTo := upToBlank_append (fun line hmem => (hlines line hmem).2) rest
    rw [List.append_assoc, List.singleton_append]
    simp only [hear, hupTo, hread, Option.bind_eq_bind, Option.bind_some, Command.answer, hrefs,
      Option.getD_some]
    rfl
  · simp only [Command.reply, RemoteNear.push, hrefs]
    rfl
  · simp only [Command.reply, RemoteNear.push, hrefs, doPush, hparse, Command.sent,
      Option.getD_some]

theorem exists_answers {command : Command} (h : Serves env command) :
    ∃ block, Answers env command block := by
  cases command with
  | capabilities =>
    refine ⟨["fetch", "push", ""], rfl, ?_, fun rest => rfl, rfl, rfl⟩
    decide
  | list forPush => exact exists_answers_list h
  | option name value hname hvalue =>
    refine ⟨["unsupported"], rfl, ?_, fun rest => rfl, rfl, rfl⟩
    decide
  | fetch first others => exact exists_answers_fetch h
  | push first others => exact exists_answers_push h

end Answers

section Run
variable {env : ℕ → Surroundings}

theorem run_command {i : ℕ} {command : Command} (h : Serves (env i) command) (cached : Bool)
    (rest : List String) : ∃ cached', run env i cached (command.lines ++ rest) =
      command.reply (env i) :: run env (i + 1) cached' rest := by
  obtain ⟨block, hanswers⟩ := exists_answers h
  have hreply : (command.reply (env i)).lines ≠ none := by
    rw [hanswers.lines]
    exact Option.some_ne_none _
  cases command with
  | capabilities => exact ⟨cached, run_cons (by decide) rfl hreply⟩
  | list forPush =>
    refine ⟨cached, run_cons ?_ ?_ hreply⟩
    · cases forPush
      · exact (by decide : IsEntry "list")
      · exact (by decide : IsEntry "list for-push")
    · cases forPush
      · rfl
      · rfl
  | option name value hname hvalue =>
    have hcommand : IsCommand "option " ("option " ++ (name ++ " ") ++ value) :=
      isCommand_append rfl (by decide) (by decide) (hname.isLine.append (by decide)) hvalue
    have hline : "option " ++ name ++ " " ++ value = "option " ++ (name ++ " ") ++ value := by
      simp only [String.append_assoc]
    rw [Command.lines, hline]
    exact ⟨cached, run_cons hcommand.isEntry (turn_option (env i) cached hcommand.isPrefix rest) hreply⟩
  | fetch first others =>
    have hbatch : ∀ line ∈ others.map FetchLine.line, IsEntry line :=
      List.forall_mem_map.mpr fun entry _ => entry.isCommand.isEntry
    have hturn := turn_fetch (env i) cached first.isCommand.isPrefix hbatch rest
    rw [Command.lines, List.map_cons, List.cons_append, List.cons_append, List.append_assoc]
    exact ⟨cached, run_cons first.isCommand.isEntry hturn hreply⟩
  | push first others =>
    have hbatch : ∀ line ∈ others.map PushSpec.line, IsEntry line :=
      List.forall_mem_map.mpr fun spec _ => spec.isCommand.isEntry
    have hturn := turn_push (env i) cached first.isCommand.isPrefix h.1 hbatch rest
    rw [Command.lines, List.map_cons, List.cons_append, List.cons_append, List.append_assoc]
    exact ⟨true, run_cons first.isCommand.isEntry hturn hreply⟩

theorem run_commands {i : ℕ} {commands : List Command}
    (h : ∀ (k : ℕ) command, commands[k]? = some command → Serves (env (i + k)) command)
    (cached : Bool) :
    let replies := run env i cached (commands.flatMap Command.lines ++ [""])
    let lines := replies.flatMap fun reply => reply.lines.getD []
    (∀ line ∈ lines, Text.IsLine line) ∧
      hearAll commands lines =
        some (commands.mapIdx fun k command => command.answer (env (i + k))) ∧
      replies.map Reply.indexed =
        commands.mapIdx (fun k command => command.indexed (env (i + k))) ∧
      replies.map Reply.sent = commands.mapIdx fun k command => command.sent (env (i + k)) := by
  induction commands generalizing i cached with
  | nil =>
    have hnone : run env i cached [""] = [] := by
      have hblank : Text.trim "" = "" := rfl
      rw [run, hblank, if_pos rfl, run]
    simp only [List.flatMap_nil, List.nil_append, hnone]
    exact ⟨List.forall_mem_nil _, rfl, rfl, rfl⟩
  | cons command commands ih =>
    have hnext (k : ℕ) : i + 1 + k = i + (k + 1) := by omega
    have hfirst : Serves (env i) command := h 0 command rfl
    have hrest : ∀ (k : ℕ) command, commands[k]? = some command →
        Serves (env (i + 1 + k)) command := by
      intro k command' hk
      rw [hnext]
      exact h (k + 1) command' hk
    obtain ⟨cached', hrun⟩ := run_command hfirst cached (commands.flatMap Command.lines ++ [""])
    obtain ⟨block, hanswers⟩ := exists_answers hfirst
    obtain ⟨hlines, hhear, hindexed, hsent⟩ := ih hrest cached'
    rw [List.flatMap_cons, List.append_assoc, hrun]
    simp only [List.flatMap_cons, hanswers.lines, Option.getD_some, List.map_cons,
      List.mapIdx_cons, Nat.add_zero]
    refine ⟨List.forall_mem_append.mpr ⟨hanswers.isLine, hlines⟩, ?_, ?_, ?_⟩
    · rw [hearAll, hanswers.hear]
      simp only [Option.bind_eq_bind, Option.bind_some, hhear, hnext]
      rfl
    · rw [hanswers.indexed, hindexed]
      simp only [hnext]
    · rw [hanswers.sent, hsent]
      simp only [hnext]

theorem session_script (env : ℕ → Surroundings) (commands : List Command) :
    session env (script commands) = run env 0 false (commands.flatMap Command.lines ++ [""]) := by
  have hscript : Text.lines (script commands) = commands.flatMap Command.lines ++ [""] := by
    apply Text.lines_printed
    rw [List.forall_mem_append, List.forall_mem_singleton]
    refine ⟨fun line hmem => ?_, isLine_empty⟩
    obtain ⟨command, -, hline⟩ := List.mem_flatMap.mp hmem
    exact command.isLine line hline
  rw [session, hscript]

end Run

/-! ## Two branches pushed, one transaction lost -/

end NearGit.RemoteNear
