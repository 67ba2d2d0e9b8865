import NearGit.Factory.Ownership
import NearGit.Lib.NearCalls

/-! A repository of the factory on the chain, from `new` until it is deleted. -/

namespace NearGit.Factory
open Lib Lib.Near NearGit.Contract

variable {net : Network}

/-! ## The calls of a repository -/

/-- The transaction that a call is, where it is one of those that a history is made of. -/
def txOf : Context × FunctionCall → Option Tx
  | (ctx, .repo call) => some { predecessor := ctx.predecessor, call }
  | _ => none

def transactions (log : List (Context × FunctionCall)) : List Tx := log.filterMap txOf

structure IsHistory (owner : String) (log : List (Context × FunctionCall)) (k : Deployed) :
    Prop where
  contract : k = .gitStorage (some (stateAfter owner (transactions log)))
  accepted : acceptedTxs owner (transactions log) = transactions log
  callers : ∀ c ∈ log, ∀ m : OwnerMethod, m.Call c.2 → c.1.predecessor = owner

/-- What a repository sends: the fee, and itself the order to go, once its owner has asked for it. -/
def SentBy (net : Network) (repo owner : String) (log : List (Context × FunctionCall))
    (rc : Receipt FunctionCall Code) : Prop :=
  (rc.receiver = net.feeRecipient ∧ rc.actions = [.transfer serviceFee]) ∨
    (rc.receiver = repo ∧ rc.actions = [.deleteAccount owner] ∧
      ∃ ctx, (ctx, .selfDelete) ∈ log ∧ ctx.predecessor = owner)

section Calls
variable {owner repo : String} {log : List (Context × FunctionCall)} {k k' : Deployed}
  {ctx : Context} {call : FunctionCall} {promises : List RepoPromise}

theorem transactions_concat (c : Context × FunctionCall) :
    transactions (log ++ [c]) = transactions log ++ (txOf c).toList := by
  rw [transactions, List.filterMap_append]
  cases h : txOf c <;> simp [transactions, h]

theorem stateAfter_concat {txs : List Tx} {tx : Tx} {s : GitStorage}
    (h : (stateAfter owner txs).exec tx = .ok s) : stateAfter owner (txs ++ [tx]) = s := by
  rw [stateAfter, Guarded.run_append, Guarded.run_cons, Guarded.run_nil]
  exact Guarded.step_of_ok h

theorem acceptedTxs_concat {txs : List Tx} {tx : Tx} {s : GitStorage}
    (h : (stateAfter owner txs).exec tx = .ok s) :
    acceptedTxs owner (txs ++ [tx]) = acceptedTxs owner txs ++ [tx] := by
  rw [acceptedTxs_append, Guarded.accepted, h]
  rfl

theorem IsHistory.runs (h : IsHistory owner log k) (hruns : Runs net k ctx call k' promises) :
    IsHistory owner (log ++ [(ctx, call)]) k' ∧
      (promises = [] ∨ call = .selfDelete ∧ ctx.predecessor = owner ∧
        promises = [{ receiver := ctx.current, actions := [.deleteAccount owner] }]) := by
  obtain ⟨r, htracks⟩ := exists_tracks owner (transactions log)
  have hcallers (hcall : ∀ m : OwnerMethod, m.Call call → ctx.predecessor = owner) :
      ∀ c ∈ log ++ [(ctx, call)], ∀ m : OwnerMethod, m.Call c.2 → c.1.predecessor = owner :=
    List.forall_mem_append.mpr ⟨h.callers, List.forall_mem_singleton.mpr hcall⟩
  obtain ⟨rfl, haccepted, -⟩ := h
  cases hruns with
  | storage hcall =>
    have hcaller (m : OwnerMethod) (hm : m.Call call) : ctx.predecessor = owner :=
      (hm.caller_eq htracks.represents hcall).trans htracks.owner_eq
    rcases storageCall_cases hcall with ⟨c, rfl, hexec, rfl⟩ | ⟨rfl, hpred, rfl, rfl⟩
    · refine ⟨⟨?_, ?_, hcallers hcaller⟩, .inl rfl⟩
      · rw [transactions_concat, txOf, Option.toList_some, stateAfter_concat hexec]
      · rw [transactions_concat, txOf, Option.toList_some, acceptedTxs_concat hexec, haccepted]
    · have hsame : transactions (log ++ [(ctx, .selfDelete)]) = transactions log := by
        rw [transactions_concat]
        exact List.append_nil _
      rw [htracks.owner_eq] at hpred ⊢
      refine ⟨⟨?_, ?_, hcallers hcaller⟩, .inr ⟨rfl, hpred, rfl⟩⟩
      · rw [hsame]
      · rw [hsame, haccepted]

theorem answers_history (net : Network) (repo owner : String) :
    Answers (runtime net) repo (IsHistory owner) fun _ _ => True where
  inv h hruns := (h.runs hruns).1
  sent _ _ _ _ _ := trivial
  mono _ _ := trivial
  refund _ _ _ _ := trivial

theorem answers_sentBy (net : Network) (owner : String) (hsystem : "system" ≠ repo) :
    Answers (runtime net) repo (IsHistory owner) (SentBy net repo owner) where
  inv h hruns := (h.runs hruns).1
  sent := by
    intro log k ctx call k' promises h hcurrent hruns p hp
    rcases (h.runs hruns).2 with rfl | ⟨rfl, hpred, rfl⟩
    · cases hp
    · rw [List.mem_singleton.mp hp]
      exact .inr ⟨hcurrent, rfl, ctx, List.mem_append_right _ (List.mem_singleton_self _), hpred⟩
  mono := by
    rintro log rc c (hfee | ⟨hreceiver, hactions, ctx, hmem, hpred⟩)
    · exact .inl hfee
    · exact .inr ⟨hreceiver, hactions, ctx, List.mem_append_left _ hmem, hpred⟩
  refund _ _ _ heq := absurd heq hsystem

end Calls

/-! ## From `new` on -/

section Run
variable {factory repoName s : String} {deposit : ℕ} {codeHash : Bytes}
  {atNew created w w' : RepoWorld} {log : List (Context × FunctionCall)}

theorem subAccount_ne_system (factory repoName : String) :
    "system" ≠ GitFactory.subAccount factory repoName := by
  intro heq
  have hdot : '.' ∈ (GitFactory.subAccount factory repoName).toList := by
    simp [GitFactory.subAccount, toString]
  rw [← heq] at hdot
  revert hdot
  decide

theorem recorded_of_creation {J : List (Context × FunctionCall) → Receipt FunctionCall Code → Prop}
    (hexec : Executes (runtime net) atNew (creation s factory repoName deposit codeHash) created)
    (hnew : (storageOn created (GitFactory.subAccount factory repoName)).isSome)
    (hbefore : ∀ rc ∈ atNew.pending, rc.predecessor = GitFactory.subAccount factory repoName →
      J [] rc)
    (hfee : ∀ rc : Receipt FunctionCall Code, rc.receiver = net.feeRecipient →
      rc.actions = [.transfer serviceFee] → J [] rc) :
    Recorded (GitFactory.subAccount factory repoName) (IsHistory s) J [] created := by
  obtain ⟨st, hst⟩ := Option.isSome_iff_exists.mp hnew
  obtain ⟨acc, hacc, hcontract⟩ := storageOn_eq_some.mp hst
  obtain @⟨before, after, x, hpending, hruns⟩ := hexec
  have hat := Function.update_self (GitFactory.subAccount factory repoName) x.account atNew.accounts
  obtain ⟨-, -, acc', hacc', -, hcases⟩ := creation_runs_cases hruns
  obtain rfl : acc = acc' := Option.some.inj ((hacc.symm.trans hat).trans hacc')
  rcases hcases with ⟨-, -, -, hstorage, -, hout⟩ | ⟨-, hforeign⟩
  · constructor
    · intro acc'' k hacc'' hk
      obtain rfl : acc = acc'' := Option.some.inj (hacc.symm.trans hacc'')
      obtain rfl := Option.some.inj (hk.symm.trans hstorage)
      exact ⟨rfl, rfl, nofun⟩
    · intro rc hrc hpred
      rcases List.mem_append.mp hrc with hrest | hsent
      · exact hbefore rc (mem_of_mem_rest hpending hrest) hpred
      · have hsent : rc ∈ _ := hout ▸ hsent
        rw [List.mem_singleton.mp hsent]
        exact hfee _ rfl rfl
  · rw [hforeign] at hcontract
    cases hcontract

theorem storageOn_of_recorded {repo : String}
    {J : List (Context × FunctionCall) → Receipt FunctionCall Code → Prop}
    (hsealed : Sealed repo (IsRepoOf s) w) (h : Recorded repo (IsHistory s) J log w) :
    storageOn w repo = some (stateAfter s (transactions log)) ∧
      IsHistory s log (.gitStorage (some (stateAfter s (transactions log)))) := by
  obtain ⟨acc, hacc, -, k, hk, -⟩ := hsealed.account
  have hhistory := h.contract hacc hk
  obtain rfl := hhistory.contract
  exact ⟨storageOn_eq_some.mpr ⟨acc, hacc, hk⟩, hhistory⟩

/-- On the chain, whatever the accounts do and in whatever order the receipts are executed, a
repository is in the state that a history leads to, that of the calls executed on it: each of them
has been accepted, and those that only the owner may make come from the signer of its creation. -/
theorem repo_refines_history
    (hexec : Executes (runtime net) atNew (creation s factory repoName deposit codeHash) created)
    (hnew : (storageOn created (GitFactory.subAccount factory repoName)).isSome)
    (hclean : ∀ rc ∈ atNew.pending, rc.PlainOn (GitFactory.subAccount factory repoName)) :
    (∀ w, LivesOn (runtime net) (GitFactory.subAccount factory repoName) created w →
      ∃ log, Serves (runtime net) (GitFactory.subAccount factory repoName) created log w) ∧
    ∀ log w, Serves (runtime net) (GitFactory.subAccount factory repoName) created log w →
      storageOn w (GitFactory.subAccount factory repoName) =
        some (stateAfter s (transactions log)) ∧
      acceptedTxs s (transactions log) = transactions log ∧
      (stateAfter s (transactions log)).getPacks 0 = packLog (sinceClear (transactions log)) ∧
      (∀ name sha, (name, sha) ∈ (stateAfter s (transactions log)).getRefs ↔
        foldRefs (refLog (sinceClear (transactions log))) name = some sha) ∧
      ∀ c ∈ log, ∀ m : OwnerMethod, m.Call c.2 → c.1.predecessor = s := by
  refine ⟨fun w hlives => exists_serves hlives, fun log w hserves => ?_⟩
  have hsealed := sealed_of_creation hexec hnew hclean
  have hrecorded := recorded_of_creation (J := fun _ _ => True) hexec hnew
    (fun _ _ _ => trivial) (fun _ _ _ => trivial)
  obtain ⟨hsealed', hrecorded'⟩ := hrecorded.serves (keeps_isRepoOf _ s)
    (answers_history net _ s) hsealed hserves
  rw [List.nil_append] at hrecorded'
  obtain ⟨hstorage, hhistory⟩ := storageOn_of_recorded hsealed' hrecorded'
  obtain ⟨r, htracks⟩ := exists_tracks s (transactions log)
  rw [hhistory.accepted] at htracks
  refine ⟨hstorage, hhistory.accepted, ?_, fun name sha => ?_, hhistory.callers⟩
  · rw [htracks.represents.getPacks, htracks.log, List.drop_zero]
  · rw [htracks.represents.mem_getRefs, htracks.refs_eq]

/-! ## The end of a repository -/

theorem exists_call {repo sender : String} {sacc acc : Account Deployed} {st st' : GitStorage}
    {call : FunctionCall} {promises : List RepoPromise} (hsender : w.accounts sender = some sacc)
    (hkey : sacc.hasKey = true) (hne : sender ≠ repo) (hacc : w.accounts repo = some acc)
    (hcontract : acc.contract = some (.gitStorage (some st)))
    (hcall : storageCall net (some st)
      { signer := sender, predecessor := sender, current := repo, deposit := 0 } call =
        .ok (st', promises)) (hcost : promisesCost promises = 0) :
    ∃ w₁ acc₁ sacc₁, LivesOn (runtime net) repo w w₁ ∧ w₁.accounts repo = some acc₁ ∧
      acc₁.contract = some (.gitStorage (some st')) ∧
      (w₁.accounts sender = some sacc₁ ∧ sacc₁.hasKey = true) ∧
      w₁.pending = w.pending ++ promises.map (Promise.issue sender repo) := by
  let rc : Receipt FunctionCall Code :=
    { signer := sender, predecessor := sender, receiver := repo, actions := [.functionCall call 0] }
  have hacc' : (w.debit sender sacc rc).accounts repo = some acc :=
    (Function.update_of_ne (Ne.symm hne) ..).trans hacc
  have hsent : LivesOn (runtime net) repo w (w.debit sender sacc rc) := by
    refine .single ⟨.transact hsender hkey (Nat.zero_le _), ?_⟩
    rw [hacc']
    rfl
  have hpending : (w.debit sender sacc rc).pending = w.pending ++ rc :: [] := rfl
  have hexec := Executes.intro (R := runtime net) hpending
    (.cons (.functionCall hacc' hcontract (.storage hcall) (hcost.trans_le (Nat.zero_le _))) .nil)
  have hat (x : Execution FunctionCall Code Deployed) :
      ((w.debit sender sacc rc).settle rc (w.pending ++ []) x).accounts repo = x.account :=
    World.settle_receiver rfl _
  refine ⟨_, _, _, hsent.tail ⟨.execute hexec, ?_⟩, hat _, rfl, ⟨?_, hkey⟩, ?_⟩
  · rw [hat]
    rfl
  · exact (Function.update_of_ne hne ..).trans (Function.update_self ..)
  · exact congrArg (· ++ _) (List.append_nil _)

theorem exists_deletion {repo : String} {sacc : Account Deployed} (hempty : net.smallState (.new s))
    (hsealed : Sealed repo (IsRepoOf s) w) (hsender : w.accounts s = some sacc)
    (hkey : sacc.hasKey = true) :
    ∃ w₁ w₂, LivesOn (runtime net) repo w w₁ ∧ Step (runtime net) w₁ w₂ ∧
      w₂.accounts repo = none := by
  obtain ⟨acc, hacc, hlocked, k, hk, st, r, rfl, hrep, rfl⟩ := hsealed.account
  have hne : st.owner ≠ repo := by
    rintro rfl
    obtain rfl : sacc = acc := Option.some.inj (hsender.symm.trans hacc)
    exact absurd (hkey.symm.trans hlocked) nofun
  let ctx : Context :=
    { signer := st.owner, predecessor := st.owner, current := repo, deposit := 0 }
  have hexec : st.clearStorage st.owner = _ := GitStorage.clearStorage_eq_ok.mpr ⟨rfl, rfl⟩
  have hclear : storageCall net (some st) ctx (.repo .clearStorage) = .ok (_, []) :=
    storageCall_repo hexec rfl
  rw [clearStorage_eq_new hrep hexec] at hclear
  obtain ⟨w₁, acc₁, sacc₁, hlives₁, hacc₁, hk₁, ⟨hsender₁, hkey₁⟩, -⟩ :=
    exists_call hsender hkey hne hacc hk hclear rfl
  have hdelete : storageCall net (some (.new st.owner)) ctx .selfDelete = .ok (_, _) :=
    storageCall_selfDelete rfl rfl
  obtain ⟨w₂, acc₂, -, hlives₂, hacc₂, hk₂, -, hpending₂⟩ :=
    exists_call hsender₁ hkey₁ hne hacc₁ hk₁ hdelete rfl
  have hsmall : (runtime net).mayDelete acc₂.contract := hk₂ ▸ hempty
  have hgoes := Executes.intro (R := runtime net) hpending₂
    (.cons (.deleteAccount hacc₂ rfl hsmall) .nil)
  exact ⟨w₂, _, hlives₁.trans hlives₂, .execute hgoes, Function.update_self ..⟩

/-- A repository goes only after a `self_delete` of its owner and with little in store, its balance
is then on its way to the owner, and no other account has changed; and if an empty repository is
small enough, an owner with a key can always have it deleted. `hfirst`: no account that had the name
before has anything in flight. -/
theorem repo_goes_by_owner
    (hexec : Executes (runtime net) atNew (creation s factory repoName deposit codeHash) created)
    (hnew : (storageOn created (GitFactory.subAccount factory repoName)).isSome)
    (hfirst : ∀ rc ∈ atNew.pending, rc.predecessor ≠ GitFactory.subAccount factory repoName)
    (hserves : Serves (runtime net) (GitFactory.subAccount factory repoName) created log w) :
    (∀ w', Step (runtime net) w w' →
      w'.accounts (GitFactory.subAccount factory repoName) = none →
      (∃ ctx, (ctx, FunctionCall.selfDelete) ∈ log ∧ ctx.predecessor = s) ∧
      net.smallState (stateAfter s (transactions log)) ∧
      (∃ acc, w.accounts (GitFactory.subAccount factory repoName) = some acc ∧
        refund s acc.balance ∈ w'.pending) ∧
      ∀ b, b ≠ GitFactory.subAccount factory repoName → w'.accounts b = w.accounts b) ∧
    (net.smallState (.new s) → ∀ sacc, w.accounts s = some sacc → sacc.hasKey = true →
      ∃ w₁ w₂, LivesOn (runtime net) (GitFactory.subAccount factory repoName) w w₁ ∧
        Step (runtime net) w₁ w₂ ∧
        w₂.accounts (GitFactory.subAccount factory repoName) = none) := by
  have hclean : ∀ rc ∈ atNew.pending, rc.PlainOn (GitFactory.subAccount factory repoName) :=
    fun rc hrc hpred => absurd hpred (hfirst rc hrc)
  have hkeeps : Keeps (runtime net) (GitFactory.subAccount factory repoName) (IsRepoOf s) :=
    keeps_isRepoOf _ s
  have hrecorded := recorded_of_creation
    (J := SentBy net (GitFactory.subAccount factory repoName) s) hexec hnew
    (fun rc hrc hpred => absurd hpred (hfirst rc hrc))
    (fun rc hreceiver hactions => .inl ⟨hreceiver, hactions⟩)
  obtain ⟨hsealed, hrecorded⟩ := hrecorded.serves hkeeps
    (answers_sentBy net s (subAccount_ne_system factory repoName))
    (sealed_of_creation hexec hnew hclean) hserves
  refine ⟨fun w' hstep hgone => ?_, fun hempty sacc hsender hkey =>
    exists_deletion hempty hsealed hsender hkey⟩
  obtain ⟨acc, hacc, hcontract⟩ := storageOn_eq_some.mp (storageOn_of_recorded hsealed hrecorded).1
  rw [List.nil_append] at hcontract
  have hthere : (w.accounts (GitFactory.subAccount factory repoName)).isSome := by
    rw [hacc]
    rfl
  obtain ⟨rc, hreceiver, hexec'⟩ := exists_executes_of_gone hstep hthere hgone
  have hpred := hsealed.predecessor_of_gone hkeeps hexec' hreceiver hgone
  obtain @⟨before, after, x, hpending, hruns⟩ := hexec'
  have hmem : rc ∈ w.pending := by simp [hpending]
  have hx : x.account = none := (World.settle_receiver hreceiver _).symm.trans hgone
  have hstart : (w.start rc).account = some acc := (congrArg w.accounts hreceiver).trans hacc
  rcases hrecorded.pending rc hmem hpred with ⟨-, hactions⟩ | ⟨-, hactions, ctx, hlog, hctx⟩
  · -- the fee does not touch the account
    rw [hactions] at hruns
    obtain _ | ⟨hfee, hruns⟩ := hruns
    cases hruns
    cases hfee with
    | transfer => cases hx
  · rw [hactions] at hruns
    obtain _ | ⟨hdelete, hruns⟩ := hruns
    cases hruns
    cases hdelete with
    | @deleteAccount acc' _ hacc' _ hsmall =>
      obtain rfl : acc = acc' := Option.some.inj (hstart.symm.trans hacc')
      rw [hcontract] at hsmall
      refine ⟨⟨ctx, hlog, hctx⟩, hsmall, ⟨acc, hacc, ?_⟩, fun b hb => ?_⟩
      · exact List.mem_append_right _ (List.mem_append_right _ (List.mem_singleton_self _))
      · exact Function.update_of_ne (hreceiver ▸ hb) ..

end Run

/-! ## The repository of a user -/

def sampleCreation : Receipt FunctionCall Code :=
  creation "alice.testnet" "gitfactory.testnet" "repo" (2 * oneNear)
    sampleFactory.globalContractHash

def sampleIssued : RepoWorld := { sampleWorld with pending := [sampleCreation] }

theorem sampleIssued_created : ∃ created,
    Executes (runtime sampleNetwork) sampleIssued sampleCreation created ∧
      (storageOn created (GitFactory.subAccount "gitfactory.testnet" "repo")).isSome ∧
      created.accounts "alice.testnet" = some (sampleAccount true none) := by
  have hname : GitFactory.subAccount "gitfactory.testnet" "repo" = "repo.gitfactory.testnet" := by
    decide
  have hglobal : sampleIssued.globalContracts sampleFactory.globalContractHash =
      some .gitStorage := by
    simp [sampleIssued, sampleWorld]
  have hfresh : sampleIssued.accounts (GitFactory.subAccount "gitfactory.testnet" "repo") = none := by
    rw [hname]
    rfl
  have hmay : sampleNetwork.mayCreate "gitfactory.testnet"
      (GitFactory.subAccount "gitfactory.testnet" "repo") := ⟨"repo", by decide, rfl⟩
  obtain ⟨x, hx⟩ : ∃ x, RunsActions (runtime sampleNetwork) sampleIssued.globalContracts
      sampleCreation (sampleIssued.start sampleCreation) sampleCreation.actions x :=
    runs_creation (by decide) hfresh hmay hglobal (by decide)
  refine ⟨_, .intro (show sampleIssued.pending = [] ++ sampleCreation :: [] from rfl) hx, ?_, ?_⟩
  · obtain ⟨-, -, acc, hacc, -, ⟨-, -, -, hst, -⟩ | ⟨hforeign, -⟩⟩ := creation_runs_cases hx
    · have hat : (sampleIssued.settle sampleCreation ([] ++ []) x).accounts
          (GitFactory.subAccount "gitfactory.testnet" "repo") = some acc :=
        (World.settle_receiver rfl _).trans hacc
      exact congrArg Option.isSome (storageOn_eq_some.mpr ⟨acc, hat, hst⟩)
    · rw [hglobal] at hforeign
      cases hforeign
  · have hne : "alice.testnet" ≠ sampleCreation.receiver := by decide
    exact Function.update_of_ne hne x.account sampleIssued.accounts

theorem sampleIssued_clean : ∀ rc ∈ sampleIssued.pending,
    rc.predecessor ≠ GitFactory.subAccount "gitfactory.testnet" "repo" := by
  intro rc hrc
  rw [List.mem_singleton.mp hrc]
  decide

def sampleTx : Tx where
  predecessor := "alice.testnet"
  call := .push [1] [{ name := "refs/heads/main", oldSha := none, newSha := "1" }]

theorem repo_refines_history_pushed : ∃ created log w,
    Executes (runtime sampleNetwork) sampleIssued sampleCreation created ∧
      Serves (runtime sampleNetwork) (GitFactory.subAccount "gitfactory.testnet" "repo") created
        log w ∧
      storageOn w (GitFactory.subAccount "gitfactory.testnet" "repo") =
        some (stateAfter "alice.testnet" (transactions log)) ∧
      (stateAfter "alice.testnet" (transactions log)).getPacks 0 = [[1]] := by
  obtain ⟨created, hexec, hnew, halice⟩ := sampleIssued_created
  obtain ⟨hlog, hstate⟩ := repo_refines_history hexec hnew
    fun rc hrc hpred => absurd hpred (sampleIssued_clean rc hrc)
  obtain ⟨acc, hacc, hcontract⟩ := storageOn_eq_some.mp (hstate [] created .refl).1
  obtain ⟨st, hst⟩ : ∃ st, (GitStorage.new "alice.testnet").exec sampleTx = .ok st := ⟨_, rfl⟩
  have hafter : stateAfter "alice.testnet" [sampleTx] = st := stateAfter_push hst
  obtain ⟨w, acc', -, hlives, hacc', hcontract', -⟩ := exists_call halice rfl (by decide) hacc
    hcontract (storageCall_repo hst rfl) rfl
  obtain ⟨log, hserves⟩ := hlog w hlives
  obtain ⟨hstorage, -⟩ := hstate log w hserves
  refine ⟨created, log, w, hexec, hserves, hstorage, ?_⟩
  have hsame : some (stateAfter "alice.testnet" (transactions log)) = some st :=
    hstorage.symm.trans (storageOn_eq_some.mpr ⟨acc', hacc', hcontract'⟩)
  rw [Option.some.inj hsame, ← hafter]
  decide

theorem repo_goes_by_owner_alice : ∃ created log w w',
    Serves (runtime sampleNetwork) (GitFactory.subAccount "gitfactory.testnet" "repo") created
        log w ∧
      Step (runtime sampleNetwork) w w' ∧
      w'.accounts (GitFactory.subAccount "gitfactory.testnet" "repo") = none ∧
      ∃ ctx, (ctx, FunctionCall.selfDelete) ∈ log ∧ ctx.predecessor = "alice.testnet" := by
  obtain ⟨created, hexec, hnew, halice⟩ := sampleIssued_created
  obtain ⟨-, hdeletes⟩ := repo_goes_by_owner hexec hnew sampleIssued_clean .refl
  have hempty : sampleNetwork.smallState (.new "alice.testnet") := by
    show _ ≤ 9000
    decide
  obtain ⟨w, w', hlives, hstep, hgone⟩ := hdeletes hempty _ halice rfl
  obtain ⟨log, hserves⟩ := exists_serves hlives
  obtain ⟨hgoes, -⟩ := repo_goes_by_owner hexec hnew sampleIssued_clean hserves
  exact ⟨created, log, w, w', hserves, hstep, hgone, (hgoes w' hstep hgone).1⟩

end NearGit.Factory
