import NearGit.Contract.History
import NearGit.Factory.GitFactory

/-! Whom a repository that the factory has created belongs to. -/

namespace NearGit.Factory
open Lib Lib.Near NearGit.Contract

variable {net : Network}

abbrev RepoWorld := World FunctionCall Code Deployed

def storageOn (w : RepoWorld) (repo : String) : Option GitStorage :=
  match (w.accounts repo).bind Account.contract with
  | some (.gitStorage (some s)) => some s
  | _ => none

def PassesAssertOwner (w : RepoWorld) (repo caller : String) : Prop :=
  ∃ s, storageOn w repo = some s ∧ s.assertOwner caller = .ok ()

inductive OwnerMethod
  | push
  | clearStorage
  | selfDelete

inductive OwnerMethod.Call : OwnerMethod → FunctionCall → Prop
  | push {packData refUpdates} : Call .push (.repo (.push packData refUpdates))
  | clearStorage : Call .clearStorage (.repo .clearStorage)
  | selfDelete : Call .selfDelete .selfDelete

def TakesEffect (net : Network) (w : RepoWorld) (repo caller : String) (m : OwnerMethod) : Prop :=
  ∃ call, m.Call call ∧ ∃ signer deposit,
    let rc := { signer, predecessor := caller, receiver := repo,
                actions := [.functionCall call deposit] }
    ∃ x, RunsActions (runtime net) w.globalContracts rc (w.start rc) rc.actions x

/-- `p`, and no other account, can act as the owner. -/
structure BelongsTo (net : Network) (w : RepoWorld) (repo p : String) : Prop where
  passes : ∀ caller, PassesAssertOwner w repo caller ↔ caller = p
  takesEffect : ∀ m caller, TakesEffect net w repo caller m ↔ caller = p

/-- In `w` the factory executes a call of `create_repo` by `p`, in a transaction of `s`, and issues
the receipt that is to create the repository. -/
inductive CallsCreateRepo (net : Network) (factory repoName p s : String) :
    RepoWorld → Receipt FunctionCall Code → RepoWorld → Prop
  | intro {w rc before after first last x y z acc f deposit promise} :
      rc.signer = s → rc.predecessor = p → rc.receiver = factory →
      w.pending = before ++ rc :: after →
      rc.actions = first ++ .functionCall (.createRepo repoName) deposit :: last →
      RunsActions (runtime net) w.globalContracts rc (w.start rc) first x →
      x.account = some acc → acc.contract = some (.gitFactory (some f)) →
      f.createRepo net factory repoName deposit = .ok promise →
      RunsAction (runtime net) w.globalContracts rc x
        (.functionCall (.createRepo repoName) deposit) y →
      RunsActions (runtime net) w.globalContracts rc y last z →
      CallsCreateRepo net factory repoName p s w (promise.issue s factory)
        (w.settle rc (before ++ after) z)

/-- The state `w` of a run in which `p` has called `create_repo` in a transaction of `s`, `new` has
run on the repository, in `atNew`, and the repository has been there since. -/
structure RepoOfCall (net : Network) (init : Set RepoWorld) (factory repoName p s : String)
    (atNew w : RepoWorld) : Prop where
  run : ∃ called r issued created, (chain (runtime net) init).Reachable called ∧
    CallsCreateRepo net factory repoName p s called r issued ∧
    Relation.ReflTransGen (Step (runtime net)) issued atNew ∧
    Executes (runtime net) atNew r created ∧
    (storageOn created (GitFactory.subAccount factory repoName)).isSome ∧
    LivesOn (runtime net) (GitFactory.subAccount factory repoName) created w

/-! ## An initialised repository -/

section Storage
variable {s s' : GitStorage} {ctx : Context} {call : FunctionCall} {promises : List RepoPromise}

theorem notPayable_eq_ok : notPayable ctx = .ok () ↔ ctx.deposit = 0 := by
  rw [notPayable]
  split_ifs with h <;> simp [h]

theorem selfDelete_eq_ok {predecessor current : String} {promise : RepoPromise} :
    selfDelete s predecessor current = .ok promise ↔ predecessor = s.owner ∧
      promise = { receiver := current, actions := [.deleteAccount s.owner] } := by
  rw [selfDelete, except_check_eq_ok, GitStorage.assertOwner_eq_ok]
  simp [pure, Except.pure, eq_comm]

theorem storageCall_cases (h : storageCall net (some s) ctx call = .ok (s', promises)) :
    (∃ c, call = .repo c ∧ s.exec { predecessor := ctx.predecessor, call := c } = .ok s' ∧
      promises = []) ∨
    (call = .selfDelete ∧ ctx.predecessor = s.owner ∧ s' = s ∧
      promises = [{ receiver := ctx.current, actions := [.deleteAccount s.owner] }]) := by
  cases call with
  | repo c =>
    obtain ⟨-, h⟩ := except_check_eq_ok.mp h
    obtain ⟨t, ht, h⟩ := except_bind_eq_ok.mp h
    cases h
    exact .inl ⟨c, rfl, except_mapError_eq_ok.mp ht, rfl⟩
  | selfDelete =>
    obtain ⟨-, h⟩ := except_check_eq_ok.mp h
    obtain ⟨promise, hpromise, h⟩ := except_bind_eq_ok.mp h
    obtain ⟨hcaller, rfl⟩ := selfDelete_eq_ok.mp (except_mapError_eq_ok.mp hpromise)
    cases h
    exact .inr ⟨rfl, hcaller, rfl, rfl⟩
  | new | createRepo | setGlobalContractHash | getGlobalContractHash | web4Get | other => cases h

theorem storageCall_repo {c : Call}
    (hexec : s.exec { predecessor := ctx.predecessor, call := c } = .ok s')
    (hdeposit : ctx.deposit = 0) : storageCall net (some s) ctx (.repo c) = .ok (s', []) := by
  refine except_check_eq_ok.mpr ⟨?_, ?_⟩
  · cases c with
    | push | clearStorage => exact notPayable_eq_ok.mpr hdeposit
    | getRefs | getPackCount | getPacks | getOwner => rfl
  · exact except_bind_eq_ok.mpr ⟨s', except_mapError_eq_ok.mpr hexec, rfl⟩

theorem storageCall_selfDelete (hcaller : ctx.predecessor = s.owner) (hdeposit : ctx.deposit = 0) :
    storageCall net (some s) ctx .selfDelete =
      .ok (s, [{ receiver := ctx.current, actions := [.deleteAccount s.owner] }]) := by
  refine except_check_eq_ok.mpr ⟨notPayable_eq_ok.mpr hdeposit, ?_⟩
  have hpromise : selfDelete s ctx.predecessor ctx.current = .ok _ :=
    selfDelete_eq_ok.mpr ⟨hcaller, rfl⟩
  exact except_bind_eq_ok.mpr ⟨_, except_mapError_eq_ok.mpr hpromise, rfl⟩

def IsRepoOf (owner : String) (k : Deployed) : Prop :=
  ∃ s r, k = .gitStorage (some s) ∧ s.Represents r ∧ s.owner = owner

theorem keeps_isRepoOf (repo owner : String) :
    Keeps (runtime net) repo (IsRepoOf owner) := by
  constructor
  · rintro _ ctx call k' promises ⟨s, r, rfl, hrep, rfl⟩ hruns
    cases hruns with
    | storage h =>
      rcases storageCall_cases h with ⟨c, rfl, hexec, rfl⟩ | ⟨rfl, -, rfl, rfl⟩
      · obtain ⟨⟨r', -, hrep'⟩, howner, -⟩ := exec_represents hrep hexec
        exact ⟨_, r', rfl, hrep', howner⟩
      · exact ⟨_, r, rfl, hrep, rfl⟩
  · rintro _ ctx call k' promises ⟨s, r, rfl, -, rfl⟩ hruns p hp - action haction
    cases hruns with
    | storage h =>
      rcases storageCall_cases h with ⟨c, rfl, -, rfl⟩ | ⟨rfl, -, rfl, rfl⟩
      · cases hp
      · rw [List.mem_singleton.mp hp] at haction
        rw [List.mem_singleton.mp haction]
        trivial

end Storage

/-! ## The owner is the signer -/

section Owner
variable {w w' : RepoWorld} {repo owner : String}

theorem storageOn_eq_some {s : GitStorage} : storageOn w repo = some s ↔
    ∃ acc, w.accounts repo = some acc ∧ acc.contract = some (.gitStorage (some s)) := by
  rw [storageOn]
  constructor
  · intro h
    split at h
    · next hcontract =>
      cases h
      exact Option.bind_eq_some_iff.mp hcontract
    · cases h
  · rintro ⟨acc, hacc, hcontract⟩
    rw [hacc, Option.bind_some, hcontract]

theorem OwnerMethod.Call.caller_eq {m : OwnerMethod} {call : FunctionCall} (hm : m.Call call)
    {s s' : GitStorage} {r : Repo} (hrep : s.Represents r) {ctx : Context}
    {promises : List RepoPromise} (h : storageCall net (some s) ctx call = .ok (s', promises)) :
    ctx.predecessor = s.owner := by
  rcases storageCall_cases h with ⟨c, rfl, hexec, -⟩ | ⟨-, hcaller, -⟩
  · have hmutates : c.Mutates := by cases hm <;> trivial
    exact (exec_represents hrep hexec).2.2 hmutates
  · exact hcaller

theorem OwnerMethod.exists_call (net : Network) (m : OwnerMethod) (s : GitStorage) (ctx : Context)
    (hcaller : ctx.predecessor = s.owner) (hdeposit : ctx.deposit = 0) :
    ∃ call s' promises, m.Call call ∧ storageCall net (some s) ctx call = .ok (s', promises) ∧
      promisesCost promises = 0 := by
  cases m with
  | push =>
    have hexec : s.exec { predecessor := ctx.predecessor, call := .push [] [] } = .ok s :=
      GitStorage.push_eq_ok.mpr ⟨hcaller, s, GitStorage.storePack_eq_ok.mpr (.inl ⟨rfl, rfl⟩), rfl⟩
    exact ⟨_, s, [], .push, storageCall_repo hexec hdeposit, rfl⟩
  | clearStorage =>
    have hexec : s.exec { predecessor := ctx.predecessor, call := .clearStorage } = .ok _ :=
      GitStorage.clearStorage_eq_ok.mpr ⟨hcaller, rfl⟩
    exact ⟨_, _, [], .clearStorage, storageCall_repo hexec hdeposit, rfl⟩
  | selfDelete => exact ⟨_, s, _, .selfDelete, storageCall_selfDelete hcaller hdeposit, rfl⟩

theorem belongsTo_of_sealed (h : Sealed repo (IsRepoOf owner) w) : BelongsTo net w repo owner := by
  obtain ⟨acc, hacc, -, k, hk, s, r, rfl, hrep, rfl⟩ := h.account
  have hstorage : storageOn w repo = some s := storageOn_eq_some.mpr ⟨acc, hacc, hk⟩
  constructor
  · intro caller
    constructor
    · rintro ⟨s', hs', hpasses⟩
      obtain rfl : s = s' := Option.some.inj (hstorage.symm.trans hs')
      exact GitStorage.assertOwner_eq_ok.mp hpasses
    · exact fun hcaller => ⟨s, hstorage, GitStorage.assertOwner_eq_ok.mpr hcaller⟩
  · intro m caller
    constructor
    · rintro ⟨call, hm, signer, deposit, x, hruns⟩
      obtain _ | ⟨haction, -⟩ := hruns
      cases haction with
      | functionCall hacc' hk' hcall _ =>
        obtain rfl : acc = _ := Option.some.inj (hacc.symm.trans hacc')
        obtain rfl := Option.some.inj (hk.symm.trans hk')
        cases hcall with
        | storage hcall => exact hm.caller_eq hrep hcall
    · rintro rfl
      obtain ⟨call, s', promises, hm, hcall, hcost⟩ := m.exists_call net s
        { signer := s.owner, predecessor := s.owner, current := repo, deposit := 0 } rfl rfl
      refine ⟨call, hm, s.owner, 0, _, .cons (.functionCall hacc hk (.storage hcall) ?_) .nil⟩
      rw [hcost]
      exact Nat.zero_le _

theorem BelongsTo.unique {p q : String} (hp : BelongsTo net w repo p) (hq : BelongsTo net w repo q) :
    p = q := (hq.passes p).mp ((hp.passes p).mpr rfl)

theorem GitFactory.createRepo_eq_ok {f : GitFactory} {factory repoName : String} {deposit : ℕ}
    {promise : RepoPromise} :
    f.createRepo net factory repoName deposit = .ok promise ↔
      net.validAccountId (subAccount factory repoName) = true ∧ oneNear ≤ deposit ∧
        promise = { receiver := subAccount factory repoName
                    actions := [.createAccount, .transfer deposit,
                      .useGlobalContract f.globalContractHash, .functionCall (.new none) 0] } := by
  rw [createRepo]
  split_ifs with hvalid hdeposit
  · rw [Except.ok.injEq, eq_comm]
    exact ⟨fun h => ⟨hvalid, hdeposit, h⟩, fun h => h.2.2⟩
  · exact ⟨nofun, fun h => absurd h.2.1 hdeposit⟩
  · exact ⟨nofun, fun h => absurd h.1 hvalid⟩

def creation (s factory repoName : String) (deposit : ℕ) (codeHash : Bytes) :
    Receipt FunctionCall Code where
  signer := s
  predecessor := factory
  receiver := GitFactory.subAccount factory repoName
  actions := [.createAccount, .transfer deposit, .useGlobalContract codeHash,
    .functionCall (.new none) 0]

theorem CallsCreateRepo.eq_creation {factory repoName p s : String}
    {r : Receipt FunctionCall Code} (h : CallsCreateRepo net factory repoName p s w r w') :
    ∃ deposit codeHash, r = creation s factory repoName deposit codeHash := by
  cases h with
  | @intro rc _ _ _ _ _ _ _ _ f deposit promise _ _ _ _ _ _ _ _ hpromise =>
    refine ⟨deposit, f.globalContractHash, ?_⟩
    obtain ⟨-, -, rfl⟩ := GitFactory.createRepo_eq_ok.mp hpromise
    rfl

theorem storageCall_new {ctx : Context} {st : GitStorage} {promises : List RepoPromise}
    {args : Option String} : storageCall net none ctx (.new args) = .ok (st, promises) ↔
      ctx.deposit = 0 ∧ net.validAccountId net.feeRecipient = true ∧
        st = GitStorage.new ctx.signer ∧
        promises = [{ receiver := net.feeRecipient, actions := [.transfer serviceFee] }] := by
  rw [storageCall, except_check_eq_ok, notPayable_eq_ok]
  split_ifs with hfee
  · simp [hfee, eq_comm]
  · simp [hfee]

theorem promisesCost_fee (net : Network) : promisesCost
    [({ receiver := net.feeRecipient, actions := [.transfer serviceFee] } : RepoPromise)] =
      serviceFee := by
  simp [promisesCost, actionsCost, Action.cost]

/-- What the creation does to the account: there was none, and the code is that of the repository,
whose `new` has run for the signer of the whole chain of calls, or it is foreign. -/
theorem creation_runs_cases {globalContracts : Bytes → Option Code} {factory repoName s : String}
    {deposit : ℕ} {codeHash : Bytes} {x y : Execution FunctionCall Code Deployed}
    (h : RunsActions (runtime net) globalContracts (creation s factory repoName deposit codeHash) x
      (creation s factory repoName deposit codeHash).actions y) :
    x.account = none ∧ net.mayCreate x.actor (GitFactory.subAccount factory repoName) ∧
      ∃ acc, y.account = some acc ∧ acc.hasKey = false ∧
        ((globalContracts codeHash = some .gitStorage ∧
            net.validAccountId net.feeRecipient = true ∧ serviceFee ≤ deposit ∧
            acc.contract = some (.gitStorage (some (GitStorage.new s))) ∧
            acc.balance = deposit - serviceFee ∧
            y.out = x.out ++ [{ signer := s
                                predecessor := GitFactory.subAccount factory repoName
                                receiver := net.feeRecipient
                                actions := [.transfer serviceFee] }]) ∨
          (globalContracts codeHash = some .foreign ∧ acc.contract = some .foreign)) := by
  obtain _ | ⟨hcreate, h⟩ := h
  obtain _ | ⟨htransfer, h⟩ := h
  obtain _ | ⟨huse, h⟩ := h
  obtain _ | ⟨hcall, h⟩ := h
  cases h
  cases hcreate with
  | createAccount hfresh hallowed =>
    refine ⟨hfresh, hallowed, ?_⟩
    cases htransfer with
    | transfer hnew =>
      cases hnew
      cases huse with
      | useGlobalContract hnew _ hcode hdeploys =>
        cases hnew
        cases hcall with
        | functionCall hnew hk hruns hcost =>
          cases hnew
          cases hk
          refine ⟨_, rfl, rfl, ?_⟩
          cases hdeploys with
          | storage =>
            cases hruns with
            | storage hruns =>
              obtain ⟨-, hfee, rfl, rfl⟩ := storageCall_new.mp hruns
              rw [promisesCost_fee] at hcost
              have hle : serviceFee ≤ deposit := by simpa using hcost
              refine .inl ⟨hcode, hfee, hle, rfl, ?_, rfl⟩
              simp [promisesCost_fee]
          | factory =>
            cases hruns with
            | factory hruns => cases hruns
          | foreign =>
            cases hruns with
            | foreign => exact .inr ⟨hcode, rfl⟩

theorem creation_runs {globalContracts : Bytes → Option Code} {factory repoName s : String}
    {deposit : ℕ} {codeHash : Bytes} {x y : Execution FunctionCall Code Deployed}
    (h : RunsActions (runtime net) globalContracts (creation s factory repoName deposit codeHash) x
      (creation s factory repoName deposit codeHash).actions y)
    {acc : Account Deployed} (hacc : y.account = some acc) {st : GitStorage}
    (hst : acc.contract = some (.gitStorage (some st))) :
    acc.hasKey = false ∧ st = GitStorage.new s ∧
      ∀ rc' ∈ y.out, rc' ∈ x.out ∨ ∀ action ∈ rc'.actions, action.Plain := by
  obtain ⟨-, -, acc', hacc', hkey, hcases⟩ := creation_runs_cases h
  obtain rfl : acc = acc' := Option.some.inj (hacc.symm.trans hacc')
  rcases hcases with ⟨-, -, -, hcontract, -, hout⟩ | ⟨-, hcontract⟩
  · rw [hst] at hcontract
    cases hcontract
    refine ⟨hkey, rfl, fun rc' hrc' => ?_⟩
    rw [hout] at hrc'
    rcases List.mem_append.mp hrc' with hold | hfee
    · exact .inl hold
    · rw [List.mem_singleton.mp hfee]
      refine .inr fun action haction => ?_
      rw [List.mem_singleton.mp haction]
      trivial
  · rw [hst] at hcontract
    cases hcontract

theorem sealed_of_creation {factory repoName s : String} {deposit : ℕ} {codeHash : Bytes}
    (hw : Executes (runtime net) w (creation s factory repoName deposit codeHash) w')
    (hnew : (storageOn w' (GitFactory.subAccount factory repoName)).isSome)
    (hclean : ∀ rc ∈ w.pending, rc.PlainOn (GitFactory.subAccount factory repoName)) :
    Sealed (GitFactory.subAccount factory repoName) (IsRepoOf s) w' := by
  obtain ⟨st, hst⟩ := Option.isSome_iff_exists.mp hnew
  obtain ⟨acc, hacc, hcontract⟩ := storageOn_eq_some.mp hst
  obtain @⟨before, after, x, hpending, hruns⟩ := hw
  have hat := Function.update_self (GitFactory.subAccount factory repoName) x.account w.accounts
  obtain ⟨hkey, rfl, hout⟩ := creation_runs hruns (hat.symm.trans hacc) hcontract
  refine ⟨⟨acc, hacc, hkey, _, hcontract, _, .empty, rfl, represents_new s, rfl⟩, ?_⟩
  intro rc' hrc'
  rcases List.mem_append.mp hrc' with hrest | hrc'
  · exact hclean rc' (mem_of_mem_rest hpending hrest)
  · rcases hout rc' hrc' with hstart | hplain
    · cases hstart
    · exact fun _ _ => hplain

end Owner

theorem RepoOfCall.belongsTo_signer {init : Set RepoWorld} {factory repoName p s : String}
    {atNew w : RepoWorld} (h : RepoOfCall net init factory repoName p s atNew w)
    (hclean : ∀ rc ∈ atNew.pending, rc.PlainOn (GitFactory.subAccount factory repoName)) :
    BelongsTo net w (GitFactory.subAccount factory repoName) s := by
  obtain ⟨called, r, issued, created, -, hcall, -, hexec, hnew, hlives⟩ := h.run
  obtain ⟨deposit, codeHash, rfl⟩ := hcall.eq_creation
  have hsealed := sealed_of_creation hexec hnew hclean
  exact belongsTo_of_sealed (hsealed.livesOn (keeps_isRepoOf _ s) hlives)

/-- The repository belongs to the account that has called `create_repo` exactly where that account
is the signer of the transaction. `hclean`: no account that had the name before has changes of its
own code or keys in flight. -/
theorem repo_belongs_to_caller_iff {init : Set RepoWorld} {factory repoName p s : String}
    {atNew w : RepoWorld} (h : RepoOfCall net init factory repoName p s atNew w)
    (hclean : ∀ rc ∈ atNew.pending, rc.PlainOn (GitFactory.subAccount factory repoName)) :
    BelongsTo net w (GitFactory.subAccount factory repoName) p ↔ p = s := by
  have hsigner := h.belongsTo_signer hclean
  constructor
  · exact fun hcaller => hcaller.unique hsigner
  · rintro rfl
    exact hsigner

/-! ## A run in which a repository is created -/

section Creates
variable {w : RepoWorld} {factory repoName p s : String} {deposit : ℕ} {f : GitFactory}

def createRepoCall (s p factory repoName : String) (deposit : ℕ) : Receipt FunctionCall Code where
  signer := s
  predecessor := p
  receiver := factory
  actions := [.functionCall (.createRepo repoName) deposit]

theorem factoryCall_createRepo {ctx : Context} {promise : RepoPromise}
    (h : f.createRepo net ctx.current repoName ctx.deposit = .ok promise) :
    factoryCall net (some f) ctx (.createRepo repoName) = .ok (f, [promise]) :=
  except_bind_eq_ok.mpr ⟨promise, except_mapError_eq_ok.mpr h, rfl⟩

theorem creation_cost (receiver : String) (deposit : ℕ) (codeHash : Bytes) :
    promisesCost [({ receiver, actions := [.createAccount, .transfer deposit,
      .useGlobalContract codeHash, .functionCall (.new none) 0] } : RepoPromise)] = deposit := by
  simp [promisesCost, actionsCost, Action.cost]

theorem runs_createRepo {globalContracts : Bytes → Option Code}
    {x : Execution FunctionCall Code Deployed} {facc : Account Deployed}
    (hfactory : x.account = some facc)
    (hcontract : facc.contract = some (.gitFactory (some f)))
    (hvalid : net.validAccountId (GitFactory.subAccount factory repoName) = true)
    (hdeposit : oneNear ≤ deposit) :
    ∃ y, RunsAction (runtime net) globalContracts (createRepoCall s p factory repoName deposit) x
        (.functionCall (.createRepo repoName) deposit) y ∧
      y.out = x.out ++ [creation s factory repoName deposit f.globalContractHash] := by
  let ctx : Context := { signer := s, predecessor := p, current := factory, deposit }
  have hcall : factoryCall net (some f) ctx (.createRepo repoName) = .ok (f, [_]) :=
    factoryCall_createRepo (GitFactory.createRepo_eq_ok.mpr ⟨hvalid, hdeposit, rfl⟩)
  refine ⟨_, .functionCall hfactory hcontract (.factory hcall) ?_, rfl⟩
  exact (creation_cost _ _ _).trans_le (Nat.le_add_left ..)

theorem runs_creation {codeHash : Bytes} (henough : oneNear ≤ deposit)
    (hfresh : w.accounts (GitFactory.subAccount factory repoName) = none)
    (hmay : net.mayCreate factory (GitFactory.subAccount factory repoName))
    (hglobal : w.globalContracts codeHash = some .gitStorage)
    (hfee : net.validAccountId net.feeRecipient = true) :
    ∃ x, RunsActions (runtime net) w.globalContracts (creation s factory repoName deposit codeHash)
      (w.start (creation s factory repoName deposit codeHash))
      (creation s factory repoName deposit codeHash).actions x := by
  let ctx : Context :=
    { signer := s
      predecessor := factory
      current := GitFactory.subAccount factory repoName
      deposit := 0 }
  have hnew : storageCall net none ctx (.new none) = .ok (_, _) :=
    storageCall_new.mpr ⟨rfl, hfee, rfl, rfl⟩
  refine ⟨_, .cons (.createAccount hfresh hmay) (.cons (.transfer rfl) (.cons
    (.useGlobalContract rfl rfl hglobal .storage)
    (.cons (.functionCall rfl rfl (.storage hnew) ?_) .nil)))⟩
  calc promisesCost _ = serviceFee := promisesCost_fee net
    _ ≤ oneNear := by decide
    _ ≤ 0 + deposit + 0 := by omega

theorem exists_creation {before after : List (Receipt FunctionCall Code)} {facc : Account Deployed}
    (hpending : w.pending = before ++ createRepoCall s p factory repoName deposit :: after)
    (hfactory : w.accounts factory = some facc)
    (hcontract : facc.contract = some (.gitFactory (some f)))
    (hvalid : net.validAccountId (GitFactory.subAccount factory repoName) = true)
    (hdeposit : oneNear ≤ deposit)
    (hfresh : w.accounts (GitFactory.subAccount factory repoName) = none)
    (hmay : net.mayCreate factory (GitFactory.subAccount factory repoName))
    (hglobal : w.globalContracts f.globalContractHash = some .gitStorage)
    (hfee : net.validAccountId net.feeRecipient = true) :
    ∃ issued created, CallsCreateRepo net factory repoName p s w
        (creation s factory repoName deposit f.globalContractHash) issued ∧
      issued.pending = before ++ after ++
        [creation s factory repoName deposit f.globalContractHash] ∧
      Executes (runtime net) issued (creation s factory repoName deposit f.globalContractHash)
        created ∧
      (storageOn created (GitFactory.subAccount factory repoName)).isSome := by
  have hne : GitFactory.subAccount factory repoName ≠ factory := by
    rintro heq
    rw [heq, hfactory] at hfresh
    cases hfresh
  have hpromise : f.createRepo net factory repoName deposit = .ok _ :=
    GitFactory.createRepo_eq_ok.mpr ⟨hvalid, hdeposit, rfl⟩
  let call := createRepoCall s p factory repoName deposit
  obtain ⟨y, hy, hout⟩ : ∃ y, RunsAction (runtime net) w.globalContracts call (w.start call) _ y ∧
      y.out = [] ++ [creation s factory repoName deposit f.globalContractHash] :=
    runs_createRepo hfactory hcontract hvalid hdeposit
  let issued := w.settle call (before ++ after) y
  have hcalls : CallsCreateRepo net factory repoName p s w
      (creation s factory repoName deposit f.globalContractHash) issued :=
    .intro rfl rfl rfl hpending rfl .nil hfactory hcontract hpromise hy .nil
  have hissued : issued.pending = before ++ after ++
      creation s factory repoName deposit f.globalContractHash :: [] :=
    congrArg (before ++ after ++ ·) hout
  have hfresh' : issued.accounts (GitFactory.subAccount factory repoName) = none :=
    (Function.update_of_ne hne ..).trans hfresh
  obtain ⟨x, hx⟩ := runs_creation (s := s) hdeposit hfresh' hmay hglobal hfee
  refine ⟨issued, _, hcalls, hissued, .intro hissued hx, ?_⟩
  obtain ⟨-, -, acc, hacc, -, ⟨-, -, -, hst, -⟩ | ⟨hforeign, -⟩⟩ := creation_runs_cases hx
  · have hat := (Function.update_self (GitFactory.subAccount factory repoName) x.account
      issued.accounts).trans hacc
    rw [storageOn_eq_some.mpr ⟨acc, hat, hst⟩]
    rfl
  · have hcode : w.globalContracts f.globalContractHash = some .foreign := hforeign
    rw [hglobal] at hcode
    cases hcode

theorem exists_repoOfCall {init : Set RepoWorld} {facc : Account Deployed}
    (hreach : (chain (runtime net) init).Reachable w)
    (hpending : w.pending = [createRepoCall s p factory repoName deposit])
    (hfactory : w.accounts factory = some facc)
    (hcontract : facc.contract = some (.gitFactory (some f)))
    (hvalid : net.validAccountId (GitFactory.subAccount factory repoName) = true)
    (hdeposit : oneNear ≤ deposit)
    (hfresh : w.accounts (GitFactory.subAccount factory repoName) = none)
    (hmay : net.mayCreate factory (GitFactory.subAccount factory repoName))
    (hglobal : w.globalContracts f.globalContractHash = some .gitStorage)
    (hfee : net.validAccountId net.feeRecipient = true) :
    ∃ atNew created, RepoOfCall net init factory repoName p s atNew created ∧
      ∀ rc ∈ atNew.pending, rc.PlainOn (GitFactory.subAccount factory repoName) := by
  have hcreation := exists_creation (show w.pending = [] ++ _ :: [] from hpending) hfactory
    hcontract hvalid hdeposit hfresh hmay hglobal hfee
  obtain ⟨issued, created, hcall, hissued, hexec, hnew⟩ := hcreation
  refine ⟨issued, created, ⟨w, _, issued, created, hreach, hcall, .refl, hexec, hnew, .refl⟩, ?_⟩
  intro rc hrc hpred
  rw [hissued] at hrc
  rw [List.mem_singleton.mp hrc] at hpred
  rw [← show factory = GitFactory.subAccount factory repoName from hpred, hfactory] at hfresh
  cases hfresh

end Creates

/-! ## A repository that is created for somebody else -/

def sampleNetwork : Network where
  validAccountId id := 2 ≤ id.length && id.length ≤ 64 &&
    id.toList.all fun c => c.isLower || c.isDigit || c = '.'
  mayCreate parent child := ∃ name : String, '.' ∉ name.toList ∧ child = s!"{name}.{parent}"
  smallState s := (s.packs.entries.map fun e => e.2.length).sum +
    (s.refs.entries.map fun e => e.1.utf8ByteSize + e.2.utf8ByteSize).sum ≤ 9000
  feeRecipient := "gitfactory.testnet"

def sampleFactory : GitFactory where
  globalContractHash := List.replicate 32 0x11
  owner := "gitfactory.testnet"

def sampleAccount (hasKey : Bool) (contract : Option Deployed) : Account Deployed :=
  { balance := 10 * oneNear, hasKey, contract }

/-- A user with a key, a contract that acts for its members, and the factory. -/
def sampleWorld : RepoWorld where
  accounts id :=
    if id = "alice.testnet" then some (sampleAccount true none)
    else if id = "dao.testnet" then some (sampleAccount false (some .foreign))
    else if id = "gitfactory.testnet" then
      some (sampleAccount false (some (.gitFactory (some sampleFactory))))
    else none
  globalContracts codeHash :=
    if codeHash = sampleFactory.globalContractHash then some .gitStorage else none
  pending := []

theorem sampleWorld_run {w : RepoWorld} {p : String}
    (hreach : (chain (runtime sampleNetwork) {sampleWorld}).Reachable w)
    (hpending : w.pending =
      [createRepoCall "alice.testnet" p "gitfactory.testnet" "repo" (2 * oneNear)])
    (hfactory : w.accounts "gitfactory.testnet" = sampleWorld.accounts "gitfactory.testnet")
    (hfresh : w.accounts "repo.gitfactory.testnet" = none)
    (hglobal : w.globalContracts = sampleWorld.globalContracts) :
    ∃ atNew created, RepoOfCall sampleNetwork {sampleWorld} "gitfactory.testnet" "repo" p
        "alice.testnet" atNew created ∧
      ∀ rc ∈ atNew.pending, rc.PlainOn (GitFactory.subAccount "gitfactory.testnet" "repo") := by
  have hname : GitFactory.subAccount "gitfactory.testnet" "repo" = "repo.gitfactory.testnet" := by
    decide
  refine exists_repoOfCall hreach hpending (hfactory.trans rfl) rfl ?_ (by decide) ?_ ?_ ?_ ?_
  · decide
  · rw [hname, hfresh]
  · exact ⟨"repo", by decide, rfl⟩
  · rw [hglobal]
    simp [sampleWorld]
  · decide

/-- The user calls a contract, and that calls `create_repo`: the repository is the user's. -/
theorem repo_not_callers : ∃ atNew w,
    RepoOfCall sampleNetwork {sampleWorld} "gitfactory.testnet" "repo" "dao.testnet"
      "alice.testnet" atNew w ∧
    ¬ BelongsTo sampleNetwork w (GitFactory.subAccount "gitfactory.testnet" "repo")
      "dao.testnet" := by
  let toDao : Receipt FunctionCall Code :=
    { signer := "alice.testnet"
      predecessor := "alice.testnet"
      receiver := "dao.testnet"
      actions := [.functionCall (.other "act_proposal") 0] }
  let promise : RepoPromise :=
    { receiver := "gitfactory.testnet"
      actions := [.functionCall (.createRepo "repo") (2 * oneNear)] }
  have hsigned : (chain (runtime sampleNetwork) {sampleWorld}).Reachable
      (sampleWorld.debit "alice.testnet" (sampleAccount true none) toDao) :=
    .step (.init rfl) (.transact rfl rfl (Nat.zero_le _))
  have hforeign {ctx : Context} {call : FunctionCall} :
      Runs sampleNetwork .foreign ctx call .foreign [promise] := .foreign
  have hpending : (sampleWorld.debit "alice.testnet" (sampleAccount true none) toDao).pending =
    [] ++ toDao :: [] := rfl
  have hacted := hsigned.step
    (.execute (.intro hpending (.cons (.functionCall rfl rfl hforeign (by decide)) .nil)))
  obtain ⟨atNew, w, hrepo, hclean⟩ := sampleWorld_run hacted rfl rfl rfl rfl
  refine ⟨atNew, w, hrepo, fun hcaller => ?_⟩
  exact absurd (hcaller.unique (hrepo.belongsTo_signer hclean)) (by decide)

theorem repo_belongs_to_caller_iff_alice : ∃ atNew w,
    RepoOfCall sampleNetwork {sampleWorld} "gitfactory.testnet" "repo" "alice.testnet"
      "alice.testnet" atNew w ∧
    BelongsTo sampleNetwork w (GitFactory.subAccount "gitfactory.testnet" "repo")
      "alice.testnet" := by
  have hcalled : (chain (runtime sampleNetwork) {sampleWorld}).Reachable
      (sampleWorld.debit "alice.testnet" (sampleAccount true none)
        (createRepoCall "alice.testnet" "alice.testnet" "gitfactory.testnet" "repo"
          (2 * oneNear))) :=
    .step (.init rfl) (.transact rfl rfl (by decide))
  obtain ⟨atNew, w, hrepo, hclean⟩ := sampleWorld_run hcalled rfl rfl rfl rfl
  exact ⟨atNew, w, hrepo, (repo_belongs_to_caller_iff hrepo hclean).mpr rfl⟩

end NearGit.Factory
