import NearGit.RemoteNear.Push

/-! What becomes of a push when a git subprocess fails. A failed `rev-list` looks like one that
found nothing new, and the output of a failed `pack-objects` is taken for a pack. -/

namespace NearGit.RemoteNear
open Lib NearGit.Contract

def Succeeds {α : Type} (run : Option (Output α)) : Prop := ∃ o, run = some o ∧ o.success = true

def Prints (run : Option (Output String)) : Prop := ∃ o, run = some o ∧ ¬ Text.Blank o.stdout

/-- For a ref that is resolved, `rev-list` succeeds, and so does `pack-objects` when `rev-list`
printed something. -/
def HistorySucceeds (git : Git) (remoteRefMap : String → Option String) (op : PushOp) : Prop :=
  ∀ o, git.revParse op.srcRef = some o → o.success = true → ¬ Text.Blank o.stdout →
    let localSha := Text.trim o.stdout
    let oldSha := remoteRefMap op.dstRef
    Succeeds (git.revList (revListArgs localSha oldSha)) ∧
      (Prints (git.revList (revListArgs localSha oldSha)) →
        Succeeds (git.packObjects (packObjectsStdin localSha oldSha)))

def GitSucceeds (git : Git) (remoteRefMap : String → Option String) (op : PushOp) : Prop :=
  op.srcRef = "" ∨
    Succeeds (git.revParse op.srcRef) ∧ HistorySucceeds git remoteRefMap op

def FailsSafe (git : Nat → Git) (send : Nat → SendOutcome) (pushSpecs : List String)
    (remoteRefs : List (String × String)) : Prop :=
  ∀ (i : Nat) (op : PushOp), (pushSpecs.filterMap parseSpec)[i]? = some op →
    ¬ GitSucceeds (git i) (toRefMap remoteRefs) op →
      (∀ packData refUpdates,
        (i, packData, refUpdates) ∉ (doPush git send pushSpecs remoteRefs).sent) ∧
      ∃ lines reason, (doPush git send pushSpecs remoteRefs).results = some lines ∧
        lines[i]? = some ("error " ++ op.dstRef ++ " " ++ reason)

/-! ## The commands and the plan -/

section Plan
variable {git : Git} {remoteRefMap : String → Option String} {op : PushOp}

theorem resolveLocalRef_eq_empty {refspec : String} : resolveLocalRef git refspec = "" ↔
    ∀ o, git.revParse refspec = some o → o.success = true → Text.Blank o.stdout := by
  unfold resolveLocalRef
  split
  · rename_i o ho
    split_ifs with hsuccess
    · simp [ho, hsuccess, Text.trim_eq_empty]
    · simp [ho, hsuccess]
  · rename_i hnone
    simp [hnone]

theorem HistorySucceeds.resolved (h : HistorySucceeds git remoteRefMap op)
    (hsha : resolveLocalRef git op.srcRef ≠ "") :
    let localSha := resolveLocalRef git op.srcRef
    let oldSha := remoteRefMap op.dstRef
    Succeeds (git.revList (revListArgs localSha oldSha)) ∧
      (Prints (git.revList (revListArgs localSha oldSha)) →
        Succeeds (git.packObjects (packObjectsStdin localSha oldSha))) := by
  have hresolve := hsha
  rw [ne_eq, resolveLocalRef_eq_empty] at hresolve
  push Not at hresolve
  obtain ⟨o, ho, hsuccess, hprints⟩ := hresolve
  have heq : resolveLocalRef git op.srcRef = Text.trim o.stdout := by
    simp [resolveLocalRef, ho, hsuccess]
  rw [heq]
  exact h o ho hsuccess hprints

theorem lineSha_eq_none {line : String} : lineSha line = none ↔ Text.Blank line := by
  rw [← Text.splitWhitespace_eq_nil]
  unfold lineSha
  rcases hwords : Text.splitWhitespace line with _ | ⟨word, words⟩
  · simp
  · have hne : word ≠ "" := by
      apply Text.ne_empty_of_mem_splitWhitespace (s := line)
      rw [hwords]
      exact List.mem_cons_self ..
    simp [hne]

theorem collectNewShas_eq_nil {localSha : String} {oldSha : Option String} :
    collectNewShas git localSha oldSha = [] ↔
      ¬ (Succeeds (git.revList (revListArgs localSha oldSha)) ∧
        Prints (git.revList (revListArgs localSha oldSha))) := by
  unfold collectNewShas Succeeds Prints
  split
  · rename_i o ho
    split_ifs with hsuccess
    · have hlines : (Text.lines o.stdout).filterMap lineSha = [] ↔ Text.Blank o.stdout := by
        rw [List.filterMap_eq_nil_iff, ← Text.forall_lines_blank]
        exact forall₂_congr fun line _ => lineSha_eq_none
      simp [hlines, ho, hsuccess]
    · simp [ho, hsuccess]
  · rename_i hnone
    simp [hnone]

theorem planOp_of_not_historySucceeds (h : ¬ HistorySucceeds git remoteRefMap op)
    (hsrc : op.srcRef ≠ "") :
    planOp git remoteRefMap op = .panic ∨
      ∃ packData refUpdates, planOp git remoteRefMap op = .send packData refUpdates := by
  have hsha : resolveLocalRef git op.srcRef ≠ "" := by
    rw [ne_eq, resolveLocalRef_eq_empty]
    intro hblank
    exact h fun o ho hsuccess hprints => absurd (hblank o ho hsuccess) hprints
  unfold planOp
  simp only [hsrc, hsha, if_false]
  split_ifs
  · exact .inr ⟨_, _, rfl⟩
  · split
    · exact .inr ⟨_, _, rfl⟩
    · exact .inl rfl

theorem planOp_ne_panic (h : HistorySucceeds git remoteRefMap op) :
    planOp git remoteRefMap op ≠ .panic := by
  unfold planOp
  split_ifs with hsrc
  · simp
  · simp only
    split_ifs with hsha hnew
    · simp
    · simp
    · obtain ⟨-, hpack⟩ := h.resolved hsha
      rw [collectNewShas_eq_nil, not_not] at hnew
      obtain ⟨o, ho, -⟩ := hpack hnew.2
      simp [buildPackfile, ho]

theorem planOp_of_not_gitSucceeds (h : ¬ GitSucceeds git remoteRefMap op)
    (hhistory : HistorySucceeds git remoteRefMap op) :
    planOp git remoteRefMap op = .report ("error " ++ op.dstRef ++ " cannot resolve ref") := by
  unfold GitSucceeds at h
  push Not at h
  obtain ⟨hsrc, hparse⟩ := h
  have hsha : resolveLocalRef git op.srcRef = "" := by
    rw [resolveLocalRef_eq_empty]
    intro o ho hsuccess
    exact absurd hhistory (hparse ⟨o, ho, hsuccess⟩)
  unfold planOp
  simp only [hsrc, hsha, if_false, if_true]

end Plan

/-! ## The batch -/

/-- A batch is safe against failures exactly when the only command that fails is `rev-parse`. -/
theorem failsSafe_iff (git : Nat → Git) (send : Nat → SendOutcome) (pushSpecs : List String)
    (remoteRefs : List (String × String)) :
    FailsSafe git send pushSpecs remoteRefs ↔
      ∀ (i : Nat) (op : PushOp), (pushSpecs.filterMap parseSpec)[i]? = some op → op.srcRef ≠ "" →
        HistorySucceeds (git i) (toRefMap remoteRefs) op := by
  constructor
  · intro h i op hop hsrc
    by_contra hhistory
    have hfails : ¬ GitSucceeds (git i) (toRefMap remoteRefs) op := by
      rintro (hempty | ⟨-, hsucceeds⟩)
      · exact hsrc hempty
      · exact hhistory hsucceeds
    obtain ⟨hsent, lines, reason, hlines, -⟩ := h i op hop hfails
    obtain ⟨hpanic, -, hmem⟩ := pushOps_spec hlines hop
    rw [Nat.zero_add] at hpanic hmem
    -- without the history the op panics or is sent all the same
    rcases planOp_of_not_historySucceeds hhistory hsrc with hplan | ⟨packData, refUpdates, hplan⟩
    · exact hpanic hplan
    · exact hsent packData refUpdates ((hmem packData refUpdates).mpr hplan)
  · intro h i op hop hfails
    -- so the failing command is `rev-parse`, and that is reported
    have hhistory : HistorySucceeds (git i) (toRefMap remoteRefs) op :=
      h i op hop fun hsrc => hfails (.inl hsrc)
    have hpanic : ∀ (k : Nat) op, (pushSpecs.filterMap parseSpec)[k]? = some op →
        planOp (git (0 + k)) (toRefMap remoteRefs) op ≠ .panic := by
      intro k op hk
      rw [Nat.zero_add]
      by_cases hsrc : op.srcRef = ""
      · simp [planOp, hsrc]
      · exact planOp_ne_panic (h k op hk hsrc)
    obtain ⟨lines, hlines⟩ : ∃ lines, (doPush git send pushSpecs remoteRefs).results =
        some lines := exists_results hpanic
    obtain ⟨-, hline, hmem⟩ := pushOps_spec hlines hop
    rw [Nat.zero_add, planOp_of_not_gitSucceeds hfails hhistory] at hline hmem
    refine ⟨fun packData refUpdates hsent => ?_, lines, "cannot resolve ref", hlines, ?_⟩
    · have hplan := (hmem packData refUpdates).mp hsent
      cases hplan
    · have htext : " " ++ "cannot resolve ref" = " cannot resolve ref" := by decide
      simp only [hline, Plan.line, String.append_assoc, htext]

/-! ## Two failures -/

def remoteMain : List (String × String) :=
  [("refs/heads/main", "3b18e512dba79e4c8300dd08aeb37f8e728b8dad")]

def localMain : String := "ce013625030ba8dba906f756967f9e9ca394464a"

/-- The remote SHA is not in the local repository, so `rev-list` fails. -/
def unfetched : Git where
  revParse _ := some { success := true, stdout := localMain ++ "\n" }
  revList _ := some { success := false, stdout := "" }
  packObjects _ := some { success := false, stdout := [] }

def brokenPack : Git where
  revParse _ := some { success := true, stdout := localMain ++ "\n" }
  revList _ := some { success := true, stdout := localMain ++ "\n" }
  packObjects _ := some { success := false, stdout := [0x50, 0x41, 0x43, 0x4B] }

def forceMain : PushOp where
  force := true
  srcRef := "refs/heads/main"
  dstRef := "refs/heads/main"

def mainUpdate : RefUpdate where
  name := "refs/heads/main"
  oldSha := some "3b18e512dba79e4c8300dd08aeb37f8e728b8dad"
  newSha := localMain

theorem parseSpec_forceMain :
    ["push +refs/heads/main:refs/heads/main"].filterMap parseSpec = [forceMain] := by
  decide +kernel

theorem not_blank_localMain : ¬ Text.Blank (localMain ++ "\n") := by decide +kernel

theorem not_gitSucceeds_unfetched : ¬ GitSucceeds unfetched (toRefMap remoteMain) forceMain := by
  rintro (hsrc | ⟨-, hhistory⟩)
  · exact absurd hsrc (by decide)
  · obtain ⟨⟨o, ho, hsuccess⟩, -⟩ := hhistory _ rfl rfl not_blank_localMain
    cases ho
    cases hsuccess

theorem not_gitSucceeds_brokenPack : ¬ GitSucceeds brokenPack (toRefMap remoteMain) forceMain := by
  rintro (hsrc | ⟨-, hhistory⟩)
  · exact absurd hsrc (by decide)
  · obtain ⟨-, hpack⟩ := hhistory _ rfl rfl not_blank_localMain
    obtain ⟨o, ho, hsuccess⟩ := hpack ⟨_, rfl, not_blank_localMain⟩
    cases ho
    cases hsuccess

/-- A forced push over commits that were never fetched moves the ref without a pack, and a
failed `pack-objects` has what it wrote pushed; both are reported as ok. -/
theorem push_despite_failure :
    (doPush (fun _ => unfetched) (fun _ => .success) ["push +refs/heads/main:refs/heads/main"]
        remoteMain =
      { sent := [(0, [], [mainUpdate])], results := some ["ok refs/heads/main"] } ∧
      ¬ FailsSafe (fun _ => unfetched) (fun _ => .success)
        ["push +refs/heads/main:refs/heads/main"] remoteMain) ∧
    doPush (fun _ => brokenPack) (fun _ => .success) ["push +refs/heads/main:refs/heads/main"]
        remoteMain =
      { sent := [(0, [0x50, 0x41, 0x43, 0x4B], [mainUpdate])]
        results := some ["ok refs/heads/main"] } ∧
      ¬ FailsSafe (fun _ => brokenPack) (fun _ => .success)
        ["push +refs/heads/main:refs/heads/main"] remoteMain := by
  have hop : (["push +refs/heads/main:refs/heads/main"].filterMap parseSpec)[0]? =
      some forceMain := by
    rw [parseSpec_forceMain]
    rfl
  have hunfetched : doPush (fun _ => unfetched) (fun _ => .success)
      ["push +refs/heads/main:refs/heads/main"] remoteMain =
        { sent := [(0, [], [mainUpdate])], results := some ["ok refs/heads/main"] } := by
    decide +kernel
  have hbroken : doPush (fun _ => brokenPack) (fun _ => .success)
      ["push +refs/heads/main:refs/heads/main"] remoteMain =
        { sent := [(0, [0x50, 0x41, 0x43, 0x4B], [mainUpdate])]
          results := some ["ok refs/heads/main"] } := by
    decide +kernel
  refine ⟨⟨hunfetched, fun h => ?_⟩, hbroken, fun h => ?_⟩
  · apply (h 0 forceMain hop not_gitSucceeds_unfetched).1 [] [mainUpdate]
    rw [hunfetched]
    exact List.mem_singleton_self _
  · apply (h 0 forceMain hop not_gitSucceeds_brokenPack).1 [0x50, 0x41, 0x43, 0x4B] [mainUpdate]
    rw [hbroken]
    exact List.mem_singleton_self _

end NearGit.RemoteNear
