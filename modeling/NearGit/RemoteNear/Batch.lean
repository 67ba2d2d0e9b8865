import NearGit.Contract.Acceptance
import NearGit.Contract.History
import NearGit.RemoteNear.Conversation
import NearGit.RemoteNear.RefClosure

/-! A batch of git-remote-near and the contract. The old SHAs of all its ops come from one reading
of the refs, and transactions of others come before each of its own. -/

namespace NearGit.RemoteNear
open Lib NearGit.Contract

/-! ## The batch and the contract -/

/-- What becomes of the transaction of an op: it is executed and the outcome comes back, as `debug`
where it failed; or an error comes back, and it may have been executed all the same. -/
inductive Transport
  | answered (debug : String)
  | lost (executed : Bool) (display : String)

def serve (s : GitStorage) (account : String) (transport : Transport) :
    Plan → GitStorage × SendOutcome
  | .send packData refUpdates =>
    let pushed := (s.push account packData refUpdates).toOption
    match transport with
    | .answered debug => (pushed.getD s, if pushed.isSome then .success else .failure debug)
    | .lost executed display => (if executed then pushed.getD s else s, .error display)
  -- nothing is sent
  | _ => (s, .error "")

/-- A call of `do_push`: the contract whose refs it reads, and for each op what others do before
its transaction and what becomes of that. -/
structure PushRun where
  account : String
  pushSpecs : List String
  start : GitStorage
  git : ℕ → Git
  others : ℕ → List Tx
  transport : ℕ → Transport

namespace PushRun
variable (b : PushRun)

def ops : List PushOp := b.pushSpecs.filterMap parseSpec

def plan (k : ℕ) : Plan :=
  match b.ops[k]? with
  | some op => planOp (b.git k) (toRefMap b.start.getRefs) op
  | none => .report ""

def before : ℕ → GitStorage
  | 0 => Guarded.run GitStorage.exec b.start (b.others 0)
  | k + 1 =>
    let after := (serve (before k) b.account (b.transport k) (b.plan k)).1
    Guarded.run GitStorage.exec after (b.others (k + 1))

def after (k : ℕ) : GitStorage := (serve (b.before k) b.account (b.transport k) (b.plan k)).1

def send (k : ℕ) : SendOutcome := (serve (b.before k) b.account (b.transport k) (b.plan k)).2

def pushed : Pushed := doPush b.git b.send b.pushSpecs b.start.getRefs

end PushRun

/-! ## One op -/

theorem toRefMap_getRefs (s : GitStorage) (name : String) :
    toRefMap s.getRefs name = s.refs.get name := by
  have hfold (entries : List (String × String)) (map : String → Option String)
      (hnodup : (entries.map Prod.fst).Nodup) :
      entries.foldl (fun (map : String → Option String) ref =>
        Function.update map ref.1 (some ref.2)) map name = (entries.lookup name).or (map name) := by
    induction entries generalizing map with
    | nil => rfl
    | cons e entries ih =>
      obtain ⟨hnotin, hentries⟩ := List.nodup_cons.mp hnodup
      rw [List.foldl_cons]
      apply (ih (Function.update map e.1 (some e.2)) hentries).trans
      rcases eq_or_ne name e.1 with rfl | hne
      · have hnone : entries.lookup e.1 = none := by
          rw [List.lookup_eq_none_iff]
          intro p hp
          have hne : e.1 ≠ p.1 := fun heq => hnotin (List.mem_map.mpr ⟨p, hp, heq.symm⟩)
          exact bne_iff_ne.mpr hne
        rw [hnone, List.lookup_cons, beq_self_eq_true, Function.update_self, Option.none_or,
          Option.some_or]
      · rw [List.lookup_cons, beq_false_of_ne hne, Function.update_of_ne hne]
  have hmap := hfold s.refs.entries (fun _ => none) s.refs.nodup
  rw [Option.or_none] at hmap
  exact hmap

theorem planOp_send {git : Git} {remoteRefMap : String → Option String} {op : PushOp}
    {packData : Bytes} {refUpdates : List RefUpdate}
    (h : planOp git remoteRefMap op = .send packData refUpdates) :
    refUpdates = [{ name := op.dstRef, oldSha := remoteRefMap op.dstRef
                    newSha := resolveLocalRef git op.srcRef }] := by
  unfold planOp at h
  split_ifs at h
  simp only at h
  split_ifs at h
  · exact (Plan.send.inj h).2.symm
  · split at h
    · exact (Plan.send.inj h).2.symm
    · cases h

theorem error_ne_ok (dst reason dst' : String) :
    "error " ++ dst ++ " " ++ reason ≠ "ok " ++ dst' := by
  intro heq
  rw [← String.toList_inj] at heq
  simp only [String.toList_append] at heq
  exact absurd (List.cons.inj heq).1 (by decide)

theorem SendOutcome.line_eq_ok {outcome : SendOutcome} {dst : String} :
    outcome.line dst = "ok " ++ dst ↔ outcome = .success := by
  cases outcome with
  | success => exact iff_of_true rfl rfl
  | failure debug => exact iff_of_false (error_ne_ok dst debug dst) SendOutcome.noConfusion
  | error display => exact iff_of_false (error_ne_ok dst display dst) SendOutcome.noConfusion

section Serve
variable {s s' : GitStorage} {account : String} {packData : Bytes} {refUpdates : List RefUpdate}

theorem serve_accepted (hpush : s.push account packData refUpdates = .ok s') (debug : String) :
    serve s account (.answered debug) (.send packData refUpdates) = (s', .success) := by
  simp only [serve, hpush]
  rfl

theorem serve_refused {e : ContractPanic} (hpush : s.push account packData refUpdates = .error e)
    (transport : Transport) : (serve s account transport (.send packData refUpdates)).1 = s ∧
      (serve s account transport (.send packData refUpdates)).2 ≠ .success := by
  simp only [serve, hpush]
  rcases transport with debug | ⟨executed, display⟩
  · exact ⟨rfl, SendOutcome.noConfusion⟩
  · cases executed
    · exact ⟨rfl, SendOutcome.noConfusion⟩
    · exact ⟨rfl, SendOutcome.noConfusion⟩

theorem serve_lost (executed : Bool) (display : String) :
    (serve s account (.lost executed display) (.send packData refUpdates)).1 =
        (if executed then (s.push account packData refUpdates).toOption.getD s else s) ∧
      (serve s account (.lost executed display) (.send packData refUpdates)).2 ≠ .success :=
  ⟨rfl, SendOutcome.noConfusion⟩

theorem serve_eq_success {transport : Transport} :
    (serve s account transport (.send packData refUpdates)).2 = .success ↔
      (∃ debug, transport = .answered debug) ∧
        s.push account packData refUpdates =
          .ok (serve s account transport (.send packData refUpdates)).1 := by
  rcases hpush : s.push account packData refUpdates with e | s'
  · refine iff_of_false (serve_refused hpush transport).2 ?_
    rintro ⟨-, hok⟩
    cases hok
  · rcases transport with debug | ⟨executed, display⟩
    · rw [serve_accepted hpush]
      exact iff_of_true rfl ⟨⟨debug, rfl⟩, rfl⟩
    · refine iff_of_false (serve_lost executed display).2 ?_
      rintro ⟨⟨debug, hanswered⟩, -⟩
      cases hanswered

theorem serve_of_ne_success {debug : String} {plan : Plan}
    (h : (serve s account (.answered debug) plan).2 ≠ .success) :
    (serve s account (.answered debug) plan).1 = s := by
  rcases plan with _ | ⟨packData, refUpdates⟩ | _
  · rfl
  · rcases hpush : s.push account packData refUpdates with e | s'
    · exact (serve_refused hpush _).1
    · rw [serve_accepted hpush] at h
      exact absurd rfl h
  · rfl

theorem serve_cases (s : GitStorage) (account : String) (transport : Transport) (plan : Plan) :
    (serve s account transport plan).1 = s ∨
      ∃ packData refUpdates, plan = .send packData refUpdates ∧
        s.push account packData refUpdates = .ok (serve s account transport plan).1 := by
  rcases plan with _ | ⟨packData, refUpdates⟩ | _
  · exact .inl rfl
  · rcases hpush : s.push account packData refUpdates with e | s'
    · exact .inl (serve_refused hpush transport).1
    · rcases transport with debug | ⟨executed, display⟩
      · right
        refine ⟨packData, refUpdates, rfl, ?_⟩
        rw [serve_accepted hpush, hpush]
      · rw [(serve_lost executed display).1, hpush]
        cases executed
        · exact .inl rfl
        · exact .inr ⟨packData, refUpdates, rfl, hpush⟩
  · exact .inl rfl

end Serve

theorem serve_represents {s : GitStorage} {repo : Repo} (hs : s.Represents repo) (account : String)
    (transport : Transport) (plan : Plan) : ∃ repo',
      (serve s account transport plan).1.Represents repo' ∧
        (serve s account transport plan).1.owner = s.owner := by
  rcases serve_cases s account transport plan with hsame | ⟨packData, refUpdates, -, hpush⟩
  · rw [hsame]
    exact ⟨repo, hs, rfl⟩
  · have hexec : s.exec { predecessor := account, call := .push packData refUpdates } =
        .ok (serve s account transport plan).1 := hpush
    obtain ⟨⟨repo', -, hs'⟩, howner, -⟩ := exec_represents hs hexec
    exact ⟨repo', hs', howner⟩

namespace PushRun
variable {b : PushRun}

theorem plan_of_getElem? {k : ℕ} {op : PushOp} (hk : b.ops[k]? = some op) :
    b.plan k = planOp (b.git k) (toRefMap b.start.getRefs) op := by
  rw [plan, hk]

theorem before_represents {repo : Repo} (hstart : b.start.Represents repo) (k : ℕ) :
    ∃ repo', (b.before k).Represents repo' ∧ (b.before k).owner = b.start.owner := by
  induction k with
  | zero => exact run_represents hstart (b.others 0)
  | succ k ih =>
    obtain ⟨repo₁, hbefore, howner⟩ := ih
    obtain ⟨repo₂, hafter, howner'⟩ :=
      serve_represents hbefore b.account (b.transport k) (b.plan k)
    obtain ⟨repo', hs, howner''⟩ := run_represents hafter (b.others (k + 1))
    exact ⟨repo', hs, howner''.trans (howner'.trans howner)⟩

theorem exists_lines (hgit : ∀ (k : ℕ) op, b.ops[k]? = some op → b.plan k ≠ .panic) :
    ∃ lines, b.pushed.results = some lines ∧ ∀ (k : ℕ) op, b.ops[k]? = some op →
      lines[k]? = some ((b.plan k).line op.dstRef (b.send k)) ∧
      ∀ packData refUpdates, (k, packData, refUpdates) ∈ b.pushed.sent ↔
        b.plan k = .send packData refUpdates := by
  have hplans : ∀ (k : ℕ) op, b.ops[k]? = some op →
      planOp (b.git (0 + k)) (toRefMap b.start.getRefs) op ≠ .panic := by
    intro k op hk
    rw [Nat.zero_add, ← plan_of_getElem? hk]
    exact hgit k op hk
  have hresults : ∃ lines, b.pushed.results = some lines := exists_results hplans
  obtain ⟨lines, hlines⟩ := hresults
  refine ⟨lines, hlines, fun k op hk => ?_⟩
  obtain ⟨-, hline, hsent⟩ := pushOps_spec hlines hk
  rw [Nat.zero_add, ← plan_of_getElem? hk] at hline hsent
  exact ⟨hline, hsent⟩

theorem line_eq_ok {k : ℕ} {op : PushOp} (hk : b.ops[k]? = some op) :
    (b.plan k).line op.dstRef (b.send k) = "ok " ++ op.dstRef ↔
      ∃ packData refUpdates, b.plan k = .send packData refUpdates ∧ b.send k = .success := by
  rcases hplan : b.plan k with line | ⟨packData, refUpdates⟩ | _
  · rw [plan_of_getElem? hk] at hplan
    obtain ⟨reason, -, rfl⟩ := planOp_report hplan
    refine iff_of_false (error_ne_ok op.dstRef reason op.dstRef) ?_
    rintro ⟨packData, refUpdates, hsend, -⟩
    cases hsend
  · rw [Plan.line, SendOutcome.line_eq_ok]
    constructor
    · exact fun hsuccess => ⟨packData, refUpdates, rfl, hsuccess⟩
    · rintro ⟨_, _, -, hsuccess⟩
      exact hsuccess
  · refine iff_of_false (fun heq => ?_) ?_
    · rw [← String.toList_inj, String.toList_append] at heq
      exact absurd heq.symm (List.cons_ne_nil _ _)
    · rintro ⟨packData, refUpdates, hsend, -⟩
      cases hsend

theorem nodup_names (u : RefUpdate) : ([u].map RefUpdate.name).Nodup := List.nodup_singleton _

theorem push_isOk_iff {repo : Repo} (hstart : b.start.Represents repo) {k : ℕ} {op : PushOp}
    (hk : b.ops[k]? = some op) {packData : Bytes} {refUpdates : List RefUpdate}
    (hplan : b.plan k = .send packData refUpdates) :
    (∃ s', (b.before k).push b.account packData refUpdates = .ok s') ↔
      b.account = b.start.owner ∧ (packData = [] ∨ (b.before k).packCount + 1 < 2 ^ 32) ∧
        (b.before k).refs.get op.dstRef = b.start.refs.get op.dstRef := by
  obtain ⟨repo', hbefore, howner⟩ := before_represents hstart k
  obtain rfl := planOp_send (plan_of_getElem? hk ▸ hplan)
  rw [Contract.push_isOk_iff hbefore (nodup_names _), List.forall_mem_singleton, toRefMap_getRefs,
    ← hbefore.refs, howner]

theorem push_refs {repo : Repo} (hstart : b.start.Represents repo) {k : ℕ} {op : PushOp}
    (hk : b.ops[k]? = some op) {packData : Bytes} {refUpdates : List RefUpdate}
    (hplan : b.plan k = .send packData refUpdates) {s' : GitStorage}
    (hpush : (b.before k).push b.account packData refUpdates = .ok s') :
    s'.refs.get op.dstRef = some (resolveLocalRef (b.git k) op.srcRef) ∧
      ∀ name ≠ op.dstRef, s'.refs.get name = (b.before k).refs.get name := by
  obtain ⟨repo', hbefore, -⟩ := before_represents hstart k
  obtain rfl := planOp_send (plan_of_getElem? hk ▸ hplan)
  obtain ⟨hset, hkept⟩ := Contract.push_refs hbefore (nodup_names _) hpush
  refine ⟨hset _ (List.mem_singleton_self _), fun name hne => hkept name ?_⟩
  exact List.forall_mem_singleton.mpr hne.symm

/-! ## What the lines say -/

/-- A batch tells `ok` of an op exactly if it has sent a transaction for it, the contract has
answered that, the account is the owner, there is room for the pack, and the ref is where it was
when the batch began. Then the ref is at the local SHA, with all other refs in place; and an
answer that is not `ok` means that nothing has changed. -/
theorem ok_iff_applied (owner : String) (txs : List Tx) (b : PushRun)
    (hstart : b.start = stateAfter owner txs)
    (hgit : ∀ (k : ℕ) op, b.ops[k]? = some op → b.plan k ≠ .panic) :
    ∃ lines, b.pushed.results = some lines ∧ ∀ (k : ℕ) op, b.ops[k]? = some op →
      (lines[k]? = some ("ok " ++ op.dstRef) ↔
        (∃ packData refUpdates, (k, packData, refUpdates) ∈ b.pushed.sent ∧
          (packData = [] ∨ (b.before k).packCount + 1 < 2 ^ 32)) ∧
        (∃ debug, b.transport k = .answered debug) ∧ b.account = owner ∧
        (b.before k).refs.get op.dstRef = b.start.refs.get op.dstRef) ∧
      (lines[k]? = some ("ok " ++ op.dstRef) →
        (b.after k).refs.get op.dstRef = some (resolveLocalRef (b.git k) op.srcRef) ∧
        ∀ name ≠ op.dstRef, (b.after k).refs.get name = (b.before k).refs.get name) ∧
      ∀ debug, b.transport k = .answered debug → lines[k]? ≠ some ("ok " ++ op.dstRef) →
        b.after k = b.before k := by
  obtain ⟨repo, htracks⟩ := exists_tracks owner txs
  have hrepo : b.start.Represents repo := hstart ▸ htracks.represents
  have howner : b.start.owner = owner := hstart ▸ htracks.owner_eq
  obtain ⟨lines, hlines, hops⟩ := exists_lines hgit
  refine ⟨lines, hlines, fun k op hk => ?_⟩
  obtain ⟨hline, hsent⟩ := hops k op hk
  rw [hline, Option.some.injEq, line_eq_ok hk]
  refine ⟨?_, ?_, ?_⟩
  · constructor
    · rintro ⟨packData, refUpdates, hplan, hsuccess⟩
      rw [send, hplan, serve_eq_success] at hsuccess
      obtain ⟨hanswered, hpush⟩ := hsuccess
      obtain ⟨haccount, hroom, hunmoved⟩ := (push_isOk_iff hrepo hk hplan).mp ⟨_, hpush⟩
      exact ⟨⟨packData, refUpdates, (hsent _ _).mpr hplan, hroom⟩, hanswered,
        haccount.trans howner, hunmoved⟩
    · rintro ⟨⟨packData, refUpdates, hmem, hroom⟩, ⟨debug, hanswered⟩, haccount, hunmoved⟩
      have hplan := (hsent packData refUpdates).mp hmem
      obtain ⟨s', hpush⟩ := (push_isOk_iff hrepo hk hplan).mpr
        ⟨haccount.trans howner.symm, hroom, hunmoved⟩
      refine ⟨packData, refUpdates, hplan, ?_⟩
      rw [send, hplan, hanswered, serve_accepted hpush]
  · rintro ⟨packData, refUpdates, hplan, hsuccess⟩
    rw [send, hplan, serve_eq_success] at hsuccess
    rw [after, hplan]
    exact push_refs hrepo hk hplan hsuccess.2
  · intro debug hanswered hnot
    have hnot := fun h => hnot (congrArg some ((line_eq_ok hk).mpr h))
    rw [after, hanswered]
    apply serve_of_ne_success
    intro hsuccess
    rcases hplan : b.plan k with line | ⟨packData, refUpdates⟩ | _
    · rw [hplan] at hsuccess
      cases hsuccess
    · refine hnot ⟨packData, refUpdates, hplan, ?_⟩
      rw [send, hanswered]
      exact hsuccess
    · exact hgit k op hk hplan

/-! ## A batch that nobody interferes with -/

def sentBefore (b : PushRun) (k : ℕ) : List (ℕ × Bytes × List RefUpdate) :=
  (List.range k).flatMap fun i => (b.plan i).sent i

theorem sentBefore_succ (k : ℕ) : b.sentBefore (k + 1) = b.sentBefore k ++ (b.plan k).sent k := by
  rw [sentBefore, List.range_succ, List.flatMap_append, List.flatMap_singleton, ← sentBefore]

theorem pushOps_sent {git : ℕ → Git} {send : ℕ → SendOutcome}
    {remoteRefMap : String → Option String} {ops : List PushOp} {i : ℕ}
    (h : ∀ (k : ℕ) op, ops[k]? = some op → planOp (git (i + k)) remoteRefMap op ≠ .panic) :
    (pushOps git send remoteRefMap i ops).sent = (List.range ops.length).flatMap fun k =>
      (ops[k]?.elim [] fun op => (planOp (git (i + k)) remoteRefMap op).sent (i + k)) := by
  induction ops generalizing i with
  | nil => rfl
  | cons op ops ih =>
    have hnext (k : ℕ) : i + 1 + k = i + (k + 1) := by omega
    have hfirst := h 0 op rfl
    have hrest : ∀ (k : ℕ) op, ops[k]? = some op →
        planOp (git (i + 1 + k)) remoteRefMap op ≠ .panic := by
      intro k op' hk
      rw [hnext]
      exact h (k + 1) op' hk
    rw [Nat.add_zero] at hfirst
    rw [pushOps_cons hfirst, List.length_cons, List.range_succ_eq_map, List.flatMap_cons,
      List.flatMap_map]
    simp only [ih hrest, hnext, List.getElem?_cons_zero, List.getElem?_cons_succ, Option.elim_some,
      Nat.add_zero, Nat.succ_eq_add_one]

theorem sent_eq (hgit : ∀ (k : ℕ) op, b.ops[k]? = some op → b.plan k ≠ .panic) :
    b.pushed.sent = b.sentBefore b.ops.length := by
  have hplans : ∀ (k : ℕ) op, b.ops[k]? = some op →
      planOp (b.git (0 + k)) (toRefMap b.start.getRefs) op ≠ .panic := by
    intro k op hk
    rw [Nat.zero_add, ← plan_of_getElem? hk]
    exact hgit k op hk
  apply (pushOps_sent hplans).trans
  apply List.flatMap_congr
  intro k hk
  have hop : b.ops[k]? = some _ := List.getElem?_eq_getElem (List.mem_range.mp hk)
  rw [hop, Option.elim_some, Nat.zero_add, plan_of_getElem? hop]

def Sends (b : PushRun) (k : ℕ) (op : PushOp) : Prop :=
  b.ops[k]? = some op ∧ ∃ packData refUpdates, b.plan k = .send packData refUpdates

structure Done (b : PushRun) (repo repo' : Repo) (k : ℕ) : Prop where
  log : repo'.log = repo.log ++ ((b.sentBefore k).map fun t => t.2.1).filter (· ≠ [])
  set : ∀ i < k, ∀ op, b.Sends i op →
    repo'.refs op.dstRef = some (resolveLocalRef (b.git i) op.srcRef)
  kept : ∀ name, (∀ i < k, ∀ op, b.Sends i op → op.dstRef ≠ name) →
    repo'.refs name = repo.refs name

theorem Done.zero (repo : Repo) : b.Done repo repo 0 where
  log := (List.append_nil _).symm
  set i hi := absurd hi (Nat.not_lt_zero i)
  kept _ _ := rfl

theorem length_sentBefore_le (k : ℕ) : (b.sentBefore k).length ≤ k := by
  induction k with
  | zero => exact le_rfl
  | succ k ih =>
    have hone : ((b.plan k).sent k).length ≤ 1 := by
      unfold Plan.sent
      split
      · exact le_rfl
      · exact Nat.zero_le _
    rw [sentBefore_succ, List.length_append]
    exact Nat.add_le_add ih hone

theorem Done.length_log_le {repo repo' : Repo} {k : ℕ} (h : b.Done repo repo' k) :
    repo'.log.length ≤ repo.log.length + k := by
  rw [h.log, List.length_append]
  apply Nat.add_le_add_left
  apply (List.length_filter_le ..).trans
  rw [List.length_map]
  exact length_sentBefore_le k

theorem dstRef_ne (hnodup : (b.ops.map PushOp.dstRef).Nodup) {i k : ℕ} {op op' : PushOp} (hlt : i < k)
    (hi : b.ops[i]? = some op) (hk : b.ops[k]? = some op') : op.dstRef ≠ op'.dstRef := by
  intro heq
  have hi' : (b.ops.map PushOp.dstRef)[i]? = some op'.dstRef := by
    rw [List.getElem?_map, hi, Option.map_some, heq]
  have hk' : (b.ops.map PushOp.dstRef)[k]? = some op'.dstRef := by
    rw [List.getElem?_map, hk, Option.map_some]
  have hlen := (List.getElem?_eq_some_iff.mp hi').1
  exact hlt.ne ((List.getElem?_inj hlen hnodup).mp (hi'.trans hk'.symm))

theorem Done.skip {repo repo' : Repo} {k : ℕ} (h : b.Done repo repo' k)
    (hsent : (b.plan k).sent k = []) (hnone : ∀ op, ¬ b.Sends k op) :
    b.Done repo repo' (k + 1) := by
  refine ⟨?_, ?_, ?_⟩
  · rw [sentBefore_succ, hsent, List.append_nil]
    exact h.log
  · intro i hi op hsends
    rcases Nat.lt_succ_iff_lt_or_eq.mp hi with hlt | rfl
    · exact h.set i hlt op hsends
    · exact absurd hsends (hnone op)
  · exact fun name hname => h.kept name fun i hi => hname i (hi.trans (Nat.lt_succ_self k))

theorem Done.push {repo repo' repo'' : Repo} {k : ℕ} (h : b.Done repo repo' k) {op : PushOp}
    (hk : b.ops[k]? = some op) (hnodup : (b.ops.map PushOp.dstRef).Nodup) {packData : Bytes}
    {refUpdates : List RefUpdate} (hplan : b.plan k = .send packData refUpdates)
    (hlog : repo''.log = repo'.log ++ if packData = [] then [] else [packData])
    (hset : repo''.refs op.dstRef = some (resolveLocalRef (b.git k) op.srcRef))
    (hkept : ∀ name ≠ op.dstRef, repo''.refs name = repo'.refs name) :
    b.Done repo repo'' (k + 1) := by
  refine ⟨?_, ?_, ?_⟩
  · rw [hlog, h.log, sentBefore_succ, hplan, Plan.sent, List.map_append, List.filter_append,
      List.append_assoc, List.map_singleton, List.filter_singleton]
    simp
  · intro i hi op' hsends
    rcases Nat.lt_succ_iff_lt_or_eq.mp hi with hlt | rfl
    · rw [hkept _ (dstRef_ne hnodup hlt hsends.1 hk)]
      exact h.set i hlt op' hsends
    · obtain rfl := Option.some.inj (hsends.1.symm.trans hk)
      exact hset
  · intro name hname
    have hne : op.dstRef ≠ name :=
      hname k (Nat.lt_succ_self k) op ⟨hk, packData, refUpdates, hplan⟩
    rw [hkept name hne.symm]
    exact h.kept name fun i hi => hname i (hi.trans (Nat.lt_succ_self k))

/-- No other transactions come between, no answer is lost, the ops are for different refs, and
there is room for a pack of each. -/
structure Alone (b : PushRun) : Prop where
  others : ∀ k, b.others k = []
  answered : ∀ k, ∃ debug, b.transport k = .answered debug
  account : b.account = b.start.owner
  nodup : (b.ops.map PushOp.dstRef).Nodup
  room : b.start.packCount + b.ops.length < 2 ^ 32

theorem Alone.before_succ (h : b.Alone) (k : ℕ) : b.before (k + 1) = b.after k := by
  rw [before, h.others, Guarded.run_nil]
  rfl

theorem Alone.step {repo repo' : Repo} (h : b.Alone) (hstart : b.start.Represents repo) {k : ℕ}
    {op : PushOp} (hk : b.ops[k]? = some op) (hne : b.plan k ≠ .panic)
    (hbefore : (b.before k).Represents repo') (hdone : b.Done repo repo' k) :
    (∃ repo'', (b.before (k + 1)).Represents repo'' ∧ b.Done repo repo'' (k + 1)) ∧
      (b.Sends k op → b.send k = .success) := by
  rw [h.before_succ]
  rcases hplan : b.plan k with line | ⟨packData, refUpdates⟩ | _
  · have hnone : ∀ op, ¬ b.Sends k op := by
      rintro op ⟨-, packData, refUpdates, hsend⟩
      rw [hplan] at hsend
      cases hsend
    have hsame : b.after k = b.before k := by
      rw [after, hplan]
      rfl
    have hsent : (b.plan k).sent k = [] := by
      rw [hplan]
      rfl
    exact ⟨⟨repo', hsame ▸ hbefore, hdone.skip hsent hnone⟩,
      fun hsends => absurd hsends (hnone op)⟩
  · obtain ⟨debug, hanswered⟩ := h.answered k
    have hlt : k < b.ops.length := (List.getElem?_eq_some_iff.mp hk).1
    have hroom : (b.before k).packCount + 1 < 2 ^ 32 := by
      have hlog := hdone.length_log_le
      have hroom := h.room
      rw [hstart.packCount] at hroom
      rw [hbefore.packCount]
      omega
    have hunmoved : (b.before k).refs.get op.dstRef = b.start.refs.get op.dstRef := by
      rw [hbefore.refs, hstart.refs]
      exact hdone.kept _ fun i hi op' hsends => dstRef_ne h.nodup hi hsends.1 hk
    obtain ⟨s', hpush⟩ := (push_isOk_iff hstart hk hplan).mpr ⟨h.account, .inr hroom, hunmoved⟩
    have hserve := serve_accepted hpush debug
    have hafter : b.after k = s' := by rw [after, hplan, hanswered, hserve]
    have hexec : (b.before k).exec
        { predecessor := b.account, call := .push packData refUpdates } = .ok s' := hpush
    obtain ⟨⟨repo'', hstep, hs'⟩, -⟩ := exec_represents hbefore hexec
    obtain ⟨refs, -, rfl⟩ := Repo.exec_push.mp hstep
    obtain ⟨hset, hkept⟩ := push_refs hstart hk hplan hpush
    refine ⟨⟨_, hafter ▸ hs', hdone.push hk h.nodup hplan rfl ?_ fun name hname => ?_⟩, fun _ => ?_⟩
    · rw [← hs'.refs]
      exact hset
    · rw [← hs'.refs, ← hbefore.refs]
      exact hkept name hname
    · rw [send, hplan, hanswered, hserve]
  · exact absurd hplan hne

theorem Alone.done {repo : Repo} (h : b.Alone) (hstart : b.start.Represents repo)
    (hgit : ∀ (k : ℕ) op, b.ops[k]? = some op → b.plan k ≠ .panic) {k : ℕ} (hk : k ≤ b.ops.length) :
    ∃ repo', (b.before k).Represents repo' ∧ b.Done repo repo' k := by
  induction k with
  | zero =>
    refine ⟨repo, ?_, Done.zero repo⟩
    rw [before, h.others, Guarded.run_nil]
    exact hstart
  | succ k ih =>
    obtain ⟨repo', hbefore, hdone⟩ := ih (Nat.le_of_succ_le hk)
    have hop : b.ops[k]? = some _ := List.getElem?_eq_getElem hk
    exact (h.step hstart hop (hgit k _ hop) hbefore hdone).1

/-- A batch of the owner for different refs that nobody interferes with: every op that has a
transaction is told to be `ok`, and has its ref at the local SHA in the end, all other refs are
where they were, and the packs of the transactions follow those that were there, in order. -/
theorem batch_alone (owner : String) (txs : List Tx) (b : PushRun)
    (hstart : b.start = stateAfter owner txs)
    (hgit : ∀ (k : ℕ) op, b.ops[k]? = some op → b.plan k ≠ .panic) (halone : b.Alone) :
    let final := b.before b.ops.length
    (∃ lines, b.pushed.results = some lines ∧ ∀ (k : ℕ) op, b.ops[k]? = some op →
      (lines[k]? = some ("ok " ++ op.dstRef) ↔
        ∃ packData refUpdates, (k, packData, refUpdates) ∈ b.pushed.sent)) ∧
    (∀ k op, b.Sends k op →
      final.refs.get op.dstRef = some (resolveLocalRef (b.git k) op.srcRef)) ∧
    (∀ name, (∀ k op, b.Sends k op → op.dstRef ≠ name) →
      final.refs.get name = b.start.refs.get name) ∧
    final.getPacks 0 = b.start.getPacks 0 ++ (b.pushed.sent.map fun t => t.2.1).filter (· ≠ []) := by
  intro final
  obtain ⟨repo, htracks⟩ := exists_tracks owner txs
  have hrepo : b.start.Represents repo := hstart ▸ htracks.represents
  obtain ⟨repo', hfinal, hdone⟩ := halone.done hrepo hgit le_rfl
  refine ⟨?_, ?_, ?_, ?_⟩
  · obtain ⟨lines, hlines, hops⟩ := exists_lines hgit
    refine ⟨lines, hlines, fun k op hk => ?_⟩
    obtain ⟨hline, hsent⟩ := hops k op hk
    rw [hline, Option.some.injEq, line_eq_ok hk]
    simp only [hsent]
    constructor
    · rintro ⟨packData, refUpdates, hplan, -⟩
      exact ⟨packData, refUpdates, hplan⟩
    · rintro ⟨packData, refUpdates, hplan⟩
      have hlt : k < b.ops.length := (List.getElem?_eq_some_iff.mp hk).1
      obtain ⟨repo₁, hbefore, hdone₁⟩ := halone.done hrepo hgit hlt.le
      have hsuccess := (halone.step hrepo hk (hgit k op hk) hbefore hdone₁).2
      exact ⟨packData, refUpdates, hplan, hsuccess ⟨hk, packData, refUpdates, hplan⟩⟩
  · intro k op hsends
    have hlt : k < b.ops.length := (List.getElem?_eq_some_iff.mp hsends.1).1
    rw [hfinal.refs]
    exact hdone.set k hlt op hsends
  · intro name hname
    rw [hfinal.refs, hrepo.refs]
    exact hdone.kept name fun k _ => hname k
  · rw [hfinal.getPacks, hrepo.getPacks, List.drop_zero, List.drop_zero, sent_eq hgit]
    exact hdone.log

end PushRun

/-! ## Two ops for one tag, and a tag with a deletion -/

def twiceRun : PushRun where
  account := "alice"
  pushSpecs := ["push 0a:refs/tags/v", "push 0b:refs/tags/v"]
  start := stateAfter "alice" []
  git _ :=
    { revParse := fun refspec => some { success := true, stdout := refspec ++ "\n" }
      revList := fun _ => some { success := true, stdout := "" }
      packObjects := fun _ => none }
  others _ := []
  transport _ := .answered "CAS failure"

theorem plan_ne_panic_twiceRun (k : ℕ) (op : PushOp) (hk : twiceRun.ops[k]? = some op) :
    twiceRun.plan k ≠ .panic := by
  have hplans : ∀ op ∈ twiceRun.ops,
      planOp (twiceRun.git 0) (toRefMap twiceRun.start.getRefs) op ≠ .panic := by decide +kernel
  rw [PushRun.plan_of_getElem? hk]
  exact hplans op (List.mem_of_getElem? hk)

/-- The first op moves the tag, so that the second one finds it elsewhere. -/
theorem ok_iff_applied_twice : ∃ lines, twiceRun.pushed.results = some lines ∧
    lines[0]? = some "ok refs/tags/v" ∧ lines[1]? ≠ some "ok refs/tags/v" ∧
    twiceRun.after 1 = twiceRun.before 1 := by
  obtain ⟨lines, hlines, hops⟩ :=
    PushRun.ok_iff_applied "alice" [] twiceRun rfl plan_ne_panic_twiceRun
  have hfirst := hops 0 { force := false, srcRef := "0a", dstRef := "refs/tags/v" } rfl
  have hsecond := hops 1 { force := false, srcRef := "0b", dstRef := "refs/tags/v" } rfl
  have hsent : (0, [], [{ name := "refs/tags/v", oldSha := none, newSha := "0a" }]) ∈
      twiceRun.pushed.sent := by decide +kernel
  have hmoved : (twiceRun.before 1).refs.get "refs/tags/v" ≠
      twiceRun.start.refs.get "refs/tags/v" := by decide +kernel
  have hnot : lines[1]? ≠ some "ok refs/tags/v" := fun hok => hmoved (hsecond.1.mp hok).2.2.2
  refine ⟨lines, hlines, ?_, hnot, hsecond.2.2 "CAS failure" rfl hnot⟩
  exact hfirst.1.mpr ⟨⟨[], _, hsent, .inl rfl⟩, ⟨"CAS failure", rfl⟩, rfl, rfl⟩

def tagRun : PushRun where
  account := "alice"
  pushSpecs := ["push refs/tags/blob:refs/tags/blob", "push :refs/heads/old"]
  start := stateAfter "alice" []
  git _ := sampleGit
  others _ := []
  transport _ := .answered ""

theorem batch_alone_tag :
    (∃ lines, tagRun.pushed.results = some lines ∧ lines[0]? = some "ok refs/tags/blob" ∧
      lines[1]? ≠ some "ok refs/heads/old") ∧
    (tagRun.before 2).refs.get "refs/tags/blob" = some sampleSha ∧
    (tagRun.before 2).getPacks 0 = [samplePush] := by
  have hops : tagRun.ops = [tagOp, { force := false, srcRef := "", dstRef := "refs/heads/old" }] := by
    decide +kernel
  have hgit : ∀ (k : ℕ) op, tagRun.ops[k]? = some op → tagRun.plan k ≠ .panic := by
    intro k op hk
    have hplans : ∀ op ∈ tagRun.ops,
        planOp sampleGit (toRefMap tagRun.start.getRefs) op ≠ .panic := by decide +kernel
    rw [PushRun.plan_of_getElem? hk]
    exact hplans op (List.mem_of_getElem? hk)
  have halone : tagRun.Alone := by
    refine ⟨fun _ => rfl, fun _ => ⟨"", rfl⟩, rfl, ?_, ?_⟩
    · rw [hops]
      decide +kernel
    · rw [hops]
      decide +kernel
  have hsent : tagRun.pushed.sent = [(0, samplePush, [tagUpdate])] := by decide +kernel
  obtain ⟨⟨lines, hlines, hok⟩, hset, -, hpacks⟩ :=
    PushRun.batch_alone "alice" [] tagRun rfl hgit halone
  have hfirst : tagRun.ops[0]? = some tagOp := by rw [hops]; rfl
  have hsecond : tagRun.ops[1]? =
      some { force := false, srcRef := "", dstRef := "refs/heads/old" } := by rw [hops]; rfl
  have hlength : tagRun.ops.length = 2 := by rw [hops]; rfl
  have hresolve : resolveLocalRef sampleGit "refs/tags/blob" = sampleSha := by decide +kernel
  have hplan : tagRun.plan 0 = .send samplePush [tagUpdate] := by decide +kernel
  rw [hlength] at hset hpacks
  rw [hsent] at hok hpacks
  refine ⟨⟨lines, hlines, (hok 0 tagOp hfirst).mpr ⟨samplePush, [tagUpdate], ?_⟩, fun h => ?_⟩, ?_, ?_⟩
  · exact List.mem_singleton_self _
  · obtain ⟨packData, refUpdates, hmem⟩ := (hok 1 _ hsecond).mp h
    exact absurd (congrArg Prod.fst (List.mem_singleton.mp hmem)) Nat.one_ne_zero
  · exact (hset 0 tagOp ⟨hfirst, samplePush, [tagUpdate], hplan⟩).trans (congrArg some hresolve)
  · rw [hpacks]
    decide +kernel

end NearGit.RemoteNear
