import NearGit.Contract.Acceptance
import NearGit.Contract.History
import NearGit.ServiceWorker.Request

/-! Whether the service worker sees its own push: what `waitForRefsToCatchUp` makes of views that
lag behind the contract. -/

namespace NearGit.ServiceWorker
open Lib NearGit.Contract

def awaited (u : RefUpdate) : Option String := if u.newSha = zeroSha then none else some u.newSha

/-- The state that a poll is answered from: the one that the push has met, or one since. -/
inductive View
  | before
  | since (later : List Tx)

def View.state (s s' : GitStorage) : View → GitStorage
  | .before => s
  | .since later => Guarded.run GitStorage.exec s' later

def View.Undisturbed (us : List RefUpdate) : View → Prop
  | .before => True
  | .since later => ∀ tx ∈ later, tx.call ≠ .clearStorage ∧
    ∀ v ∈ tx.call.refUpdates, ∀ u ∈ us, v.name ≠ u.name

section Views
variable {s s' : GitStorage} {repo : Repo} {us : List RefUpdate}

theorem find?_getRefs (hs : s.Represents repo) (name : String) :
    (s.getRefs.reverse.find? fun e => e.1 = name).map Prod.snd = repo.refs name := by
  rcases hfind : s.getRefs.reverse.find? fun e => decide (e.1 = name) with _ | e
  · rw [hfind]
    rcases hsha : repo.refs name with _ | sha
    · rfl
    · have hmem : (name, sha) ∈ s.getRefs.reverse :=
        List.mem_reverse.mpr ((hs.mem_getRefs name sha).mpr hsha)
      exact absurd (decide_eq_true rfl) (List.find?_eq_none.mp hfind _ hmem)
  · have hfound := List.find?_some hfind
    have hname : e.1 = name := of_decide_eq_true hfound
    have hmem : e ∈ s.getRefs := List.mem_reverse.mp (List.mem_of_find?_eq_some hfind)
    rw [hfind, ← hname]
    exact ((hs.mem_getRefs e.1 e.2).mp hmem).symm

theorem caughtUp_iff (hs : s.Represents repo) :
    caughtUp us s.getRefs = true ↔ ∀ u ∈ us,
      repo.refs u.name = awaited u ∧ (u.newSha = zeroSha → u.name ∉ inheritedNames) := by
  unfold caughtUp
  rw [List.all_eq_true]
  refine forall₂_congr fun u _ => ?_
  rw [← find?_getRefs hs u.name]
  unfold awaited
  dsimp only
  split_ifs with hzero
  · simp [hzero]
  · simp [hzero]

theorem waitForRefsToCatchUp_eq_caughtUp {polls : List (Option (List (String × String)))} :
    waitForRefsToCatchUp us polls = .caughtUp ↔
      ∃ refs, some refs ∈ polls ∧ caughtUp us refs = true := by
  induction polls with
  | nil => exact iff_of_false nofun fun ⟨_, hmem, _⟩ => absurd hmem List.not_mem_nil
  | cons poll polls ih =>
    rcases poll with _ | refs
    · rw [waitForRefsToCatchUp, ih]
      simp
    · rw [waitForRefsToCatchUp]
      split_ifs with hcaught
      · exact iff_of_true rfl ⟨refs, List.mem_cons_self, hcaught⟩
      · rw [ih]
        refine exists_congr fun refs' => and_congr_left fun hcaught' => ?_
        rw [List.mem_cons, or_iff_right]
        rintro ⟨⟩
        exact hcaught hcaught'

theorem run_lookup {later : List Tx} {name : String}
    (h : ∀ tx ∈ later, tx.call ≠ .clearStorage ∧ ∀ v ∈ tx.call.refUpdates, v.name ≠ name) :
    (Guarded.run GitStorage.exec s later).refs.get name = s.refs.get name := by
  induction later generalizing s with
  | nil => rfl
  | cons tx later ih =>
    obtain ⟨⟨hclear, hnames⟩, hlater⟩ := List.forall_mem_cons.mp h
    rw [Guarded.run_cons, ih hlater]
    rcases hexec : s.exec tx with e | s₁
    · rw [Guarded.step_of_error hexec]
    rw [Guarded.step_of_ok hexec]
    obtain ⟨predecessor, call⟩ := tx
    cases call with
    | push packData us =>
      have hpush : s.push predecessor packData us = .ok s₁ := hexec
      rcases push_changed hpush name with hsame | ⟨u, hu, hname, -⟩
      · exact hsame
      · exact absurd hname (hnames u hu)
    | clearStorage => exact absurd rfl hclear
    | getRefs | getPackCount | getPacks | getOwner =>
      cases hexec
      rfl

/-- The wait after a push that the contract has accepted, one that moves something, ends with the
refs caught up exactly if some poll sees the push and nothing is deleted: the contract keeps a
deleted ref, so that such a push always waits for the deadline. -/
theorem wait_catches_up_iff (owner : String) (txs : List Tx) {us : List RefUpdate}
    (hnodup : (us.map RefUpdate.name).Nodup) {caller : String} {packData : Bytes} {s' : GitStorage}
    (hpush : (stateAfter owner txs).push caller packData us = .ok s')
    (hmoves : ∃ u ∈ us, u.oldSha ≠ awaited u) {polls : List (Option View)}
    (hpolls : ∀ view, some view ∈ polls → view.Undisturbed us) :
    let answers := polls.map (Option.map fun v => (v.state (stateAfter owner txs) s').getRefs)
    waitForRefsToCatchUp us answers = .caughtUp ↔
      (∃ later, some (.since later) ∈ polls) ∧ ∀ u ∈ us, u.newSha ≠ zeroSha := by
  intro answers
  obtain ⟨repo, htracks⟩ := exists_tracks owner txs
  have hs := htracks.represents
  have hexec : (stateAfter owner txs).exec { predecessor := caller, call := .push packData us } =
    .ok s' := hpush
  obtain ⟨⟨repo', -, hs'⟩, -⟩ := exec_represents hs hexec
  obtain ⟨hwritten, -⟩ := push_refs hs hnodup hpush
  have hbefore : caughtUp us (stateAfter owner txs).getRefs ≠ true := by
    rw [Ne, caughtUp_iff hs]
    intro hall
    obtain ⟨u, hu, hne⟩ := hmoves
    exact hne ((((push_isOk_iff hs hnodup).mp ⟨s', hpush⟩).2.2 u hu).symm.trans (hall u hu).1)
  have hsince (later : List Tx) (hview : View.Undisturbed us (.since later)) :
      caughtUp us (Guarded.run GitStorage.exec s' later).getRefs = true ↔
        ∀ u ∈ us, u.newSha ≠ zeroSha := by
    obtain ⟨repo'', hs'', -⟩ := run_represents hs' later
    rw [caughtUp_iff hs'']
    refine forall₂_congr fun u hu => ?_
    have hlookup : (Guarded.run GitStorage.exec s' later).refs.get u.name = _ :=
      run_lookup fun tx htx => ⟨(hview tx htx).1, fun v hv => (hview tx htx).2 v hv u hu⟩
    rw [← hs''.refs, hlookup, hwritten u hu]
    unfold awaited
    split_ifs with hzero
    · simp [hzero]
    · simp [hzero]
  rw [waitForRefsToCatchUp_eq_caughtUp]
  constructor
  · rintro ⟨refs, hmem, hcaught⟩
    obtain ⟨poll, hpoll, hrefs⟩ := List.mem_map.mp hmem
    obtain ⟨view, rfl, rfl⟩ := Option.map_eq_some_iff.mp hrefs
    cases view with
    | before => exact absurd hcaught hbefore
    | since later => exact ⟨⟨later, hpoll⟩, (hsince later (hpolls _ hpoll)).mp hcaught⟩
  · rintro ⟨⟨later, hpoll⟩, hnone⟩
    exact ⟨_, List.mem_map_of_mem hpoll, (hsince later (hpolls _ hpoll)).mpr hnone⟩

end Views

def newMain : RefUpdate where
  name := "refs/heads/main"
  oldSha := none
  newSha := "3b18e512dba79e4c8300dd08aeb37f8e728b8dad"

/-- The first poll fails, the second one lags behind. -/
theorem wait_catches_up_third : ∃ s', (stateAfter "owner" []).push "owner" [] [newMain] = .ok s' ∧
    waitForRefsToCatchUp [newMain] ([none, some View.before, some (.since [])].map
      (Option.map fun v => (v.state (stateAfter "owner" []) s').getRefs)) = .caughtUp := by
  obtain ⟨s', hpush⟩ : ∃ s', (stateAfter "owner" []).push "owner" [] [newMain] = .ok s' := ⟨_, rfl⟩
  have hnonzero : newMain.newSha ≠ zeroSha := by decide +kernel
  have hmoves : newMain.oldSha ≠ awaited newMain := by
    rw [awaited, if_neg hnonzero]
    decide
  refine ⟨s', hpush, ?_⟩
  refine (wait_catches_up_iff "owner" [] (by decide) hpush
    ⟨newMain, List.mem_cons_self, hmoves⟩ ?_).mpr ⟨⟨[], by simp⟩, ?_⟩
  · intro view hview
    simp only [List.mem_cons, Option.some.injEq, List.not_mem_nil, or_false] at hview
    rcases hview with hnone | rfl | rfl
    · cases hnone
    · trivial
    · exact fun tx htx => absurd htx List.not_mem_nil
  · exact List.forall_mem_singleton.mpr hnonzero

end NearGit.ServiceWorker
