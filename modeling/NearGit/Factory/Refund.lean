import NearGit.Factory.Ownership

/-! What a call of `create_repo` costs the caller. The repository is created by a receipt that the
factory sends, so that the deposit of a creation that fails goes back to the factory. -/

namespace NearGit.Factory
open Lib Lib.Near NearGit.Contract

variable {net : Network} {f : GitFactory} {factory repoName p s : String} {deposit : ℕ}
  {w w' : RepoWorld}

/-! ## Attempts -/

inductive Ending
  | created (w : RepoWorld)
  | refunded (gain : String → ℤ)

/-- The deposit has been taken from the caller when the call arrives. -/
def attached (p : String) (deposit : ℕ) (a : String) : ℤ := if a = p then -(deposit : ℤ) else 0

def gained (w w' : RepoWorld) (a : String) : ℤ := w'.balance a - w.balance a

/-- From the call, in `called`, over what it has brought about, in `settled`, to the end: a gain is
what the receipts of the attempt have changed. Anything else may happen in between. -/
inductive Attempt (net : Network) (f : GitFactory) (factory repoName p s : String) (deposit : ℕ) :
    (called settled : RepoWorld) → Ending → Prop
  | refused {called failed settled refunded} :
      Fails (runtime net) called (createRepoCall s p factory repoName deposit) failed →
      Relation.ReflTransGen (Step (runtime net)) failed settled →
      Executes (runtime net) settled (refund p deposit) refunded →
      Attempt net f factory repoName p s deposit called settled (.refunded fun a =>
        attached p deposit a + gained called failed a + gained settled refunded a)
  | created {called issued settled created} :
      Executes (runtime net) called (createRepoCall s p factory repoName deposit) issued →
      Relation.ReflTransGen (Step (runtime net)) issued settled →
      Executes (runtime net) settled (creation s factory repoName deposit f.globalContractHash)
        created →
      Attempt net f factory repoName p s deposit called settled (.created created)
  | bounced {called issued settled failed later refunded} :
      Executes (runtime net) called (createRepoCall s p factory repoName deposit) issued →
      Relation.ReflTransGen (Step (runtime net)) issued settled →
      Fails (runtime net) settled (creation s factory repoName deposit f.globalContractHash)
        failed →
      Relation.ReflTransGen (Step (runtime net)) failed later →
      Executes (runtime net) later (refund factory deposit) refunded →
      Attempt net f factory repoName p s deposit called settled (.refunded fun a =>
        attached p deposit a + gained called issued a + gained settled failed a +
          gained later refunded a)

theorem Attempt.run {called settled : RepoWorld} {e : Ending}
    (h : Attempt net f factory repoName p s deposit called settled e) :
    Relation.ReflTransGen (Step (runtime net)) called settled := by
  cases h with
  | refused hfails hsteps _ => exact hsteps.head hfails.step
  | created hcall hsteps _ => exact hsteps.head (.execute hcall)
  | bounced hcall hsteps _ _ _ => exact hsteps.head (.execute hcall)

def FactoryAt (w : RepoWorld) (factory : String) (f : GitFactory) : Prop :=
  ∃ acc, w.accounts factory = some acc ∧ acc.contract = some (.gitFactory (some f))

def HoldsDeposit (w : RepoWorld) (repo s : String) (deposit : ℕ) : Prop :=
  ∃ acc, w.accounts repo = some acc ∧
    acc.contract = some (.gitStorage (some (GitStorage.new s))) ∧
    acc.balance + serviceFee = deposit

def CostsNothing (factory repoName p s : String) (deposit : ℕ) : Ending → Prop
  | .created w => HoldsDeposit w (GitFactory.subAccount factory repoName) s deposit
  | .refunded gain => gain p = 0 ∧ gain factory = 0

/-! ## The call -/

structure Accepts (net : Network) (factory repoName : String) (deposit : ℕ) : Prop where
  valid : net.validAccountId (GitFactory.subAccount factory repoName) = true
  enough : oneNear ≤ deposit

theorem factoryCall_createRepo_cases {ctx : Context} {f' : GitFactory}
    {promises : List RepoPromise}
    (h : factoryCall net (some f) ctx (.createRepo repoName) = .ok (f', promises)) :
    f' = f ∧ ∃ promise, f.createRepo net ctx.current repoName ctx.deposit = .ok promise ∧
      promises = [promise] := by
  obtain ⟨promise, hpromise, h⟩ := except_bind_eq_ok.mp h
  cases h
  exact ⟨rfl, promise, except_mapError_eq_ok.mp hpromise, rfl⟩

theorem runs_createRepoCall_cases (hf : FactoryAt w factory f)
    {x : Execution FunctionCall Code Deployed}
    (h : RunsActions (runtime net) w.globalContracts (createRepoCall s p factory repoName deposit)
      (w.start (createRepoCall s p factory repoName deposit))
      (createRepoCall s p factory repoName deposit).actions x) :
    Accepts net factory repoName deposit ∧ ∃ acc, x.account = some acc ∧
      acc.balance = w.balance factory := by
  obtain ⟨facc, hfactory, hcontract⟩ := hf
  obtain _ | ⟨hcall, hend⟩ := h
  cases hend
  cases hcall with
  | functionCall hacc hk hruns _ =>
    obtain rfl : facc = _ := Option.some.inj (hfactory.symm.trans hacc)
    obtain rfl := Option.some.inj (hcontract.symm.trans hk)
    cases hruns with
    | factory hruns =>
      obtain ⟨rfl, promise, hpromise, rfl⟩ := factoryCall_createRepo_cases hruns
      obtain ⟨hvalid, henough, rfl⟩ := GitFactory.createRepo_eq_ok.mp hpromise
      refine ⟨⟨hvalid, henough⟩, _, rfl, ?_⟩
      rw [World.balance_eq hfactory, creation_cost, Nat.add_sub_cancel]

theorem Accepts.runs (h : Accepts net factory repoName deposit) (hf : FactoryAt w factory f) :
    ∃ x, RunsActions (runtime net) w.globalContracts
      (createRepoCall s p factory repoName deposit)
      (w.start (createRepoCall s p factory repoName deposit))
      (createRepoCall s p factory repoName deposit).actions x ∧
        x.out = [creation s factory repoName deposit f.globalContractHash] := by
  obtain ⟨facc, hfactory, hcontract⟩ := hf
  obtain ⟨x, hx, hout⟩ : ∃ x, RunsAction (runtime net) w.globalContracts
      (createRepoCall s p factory repoName deposit)
      (w.start (createRepoCall s p factory repoName deposit)) _ x ∧
        x.out = [] ++ [creation s factory repoName deposit f.globalContractHash] :=
    runs_createRepo hfactory hcontract h.valid h.enough
  exact ⟨x, .cons hx .nil, hout⟩

theorem gained_called (hf : FactoryAt w factory f)
    (h : Executes (runtime net) w (createRepoCall s p factory repoName deposit) w') (a : String) :
    gained w w' a = 0 := by
  obtain @⟨before, after, x, hpending, hruns⟩ := h
  obtain ⟨-, acc, hacc, hbalance⟩ := runs_createRepoCall_cases hf hruns
  rw [gained, sub_eq_zero]
  by_cases ha : a = factory
  · subst ha
    exact (World.settle_balance_self (createRepoCall s p a repoName deposit) _ hacc).trans hbalance
  · exact World.settle_balance_of_ne _ _ ha

theorem accepts_of_executes (hf : FactoryAt w factory f)
    (h : Executes (runtime net) w (createRepoCall s p factory repoName deposit) w') :
    Accepts net factory repoName deposit := by
  obtain ⟨-, hruns⟩ := h
  exact (runs_createRepoCall_cases hf hruns).1

theorem not_accepts_of_fails (hf : FactoryAt w factory f)
    (h : Fails (runtime net) w (createRepoCall s p factory repoName deposit) w') :
    ¬ Accepts net factory repoName deposit := by
  obtain ⟨-, hnone⟩ := h
  intro haccepts
  obtain ⟨x, hx, -⟩ := haccepts.runs hf
  exact hnone x hx

/-! ## The creation -/

structure CanOpen (net : Network) (factory repoName : String) (w : RepoWorld) : Prop where
  fresh : w.accounts (GitFactory.subAccount factory repoName) = none
  allowed : net.mayCreate factory (GitFactory.subAccount factory repoName)

structure CanCreate (net : Network) (f : GitFactory) (factory repoName : String) (w : RepoWorld) :
    Prop extends CanOpen net factory repoName w where
  code : w.globalContracts f.globalContractHash = some .gitStorage
  fee : net.validAccountId net.feeRecipient = true

structure CreatesForeign (net : Network) (f : GitFactory) (factory repoName : String)
    (w : RepoWorld) : Prop extends CanOpen net factory repoName w where
  code : w.globalContracts f.globalContractHash = some .foreign

theorem canOpen_of_runs {codeHash : Bytes} {x : Execution FunctionCall Code Deployed}
    (h : RunsActions (runtime net) w.globalContracts (creation s factory repoName deposit codeHash)
      (w.start (creation s factory repoName deposit codeHash))
      (creation s factory repoName deposit codeHash).actions x) :
    CanOpen net factory repoName w := by
  obtain ⟨hfresh, hallowed, -⟩ := creation_runs_cases h
  exact ⟨hfresh, hallowed⟩

theorem CanCreate.runs (h : CanCreate net f factory repoName w) (henough : oneNear ≤ deposit) :
    ∃ x, RunsActions (runtime net) w.globalContracts
      (creation s factory repoName deposit f.globalContractHash)
      (w.start (creation s factory repoName deposit f.globalContractHash))
      (creation s factory repoName deposit f.globalContractHash).actions x :=
  runs_creation henough h.fresh h.allowed h.code h.fee

theorem CreatesForeign.runs (h : CreatesForeign net f factory repoName w) :
    ∃ x, RunsActions (runtime net) w.globalContracts
      (creation s factory repoName deposit f.globalContractHash)
      (w.start (creation s factory repoName deposit f.globalContractHash))
      (creation s factory repoName deposit f.globalContractHash).actions x := by
  have hruns {ctx : Context} {call : FunctionCall} : Runs net .foreign ctx call .foreign [] :=
    .foreign
  exact ⟨_, .cons (.createAccount h.fresh h.allowed) (.cons (.transfer rfl) (.cons
    (.useGlobalContract rfl rfl h.code .foreign)
    (.cons (.functionCall rfl rfl hruns (Nat.zero_le _)) .nil)))⟩

theorem executes_creation_cases {codeHash : Bytes}
    (h : Executes (runtime net) w (creation s factory repoName deposit codeHash) w') :
    CanOpen net factory repoName w ∧
      ((w.globalContracts codeHash = some .gitStorage ∧
          net.validAccountId net.feeRecipient = true ∧
          HoldsDeposit w' (GitFactory.subAccount factory repoName) s deposit) ∨
        (w.globalContracts codeHash = some .foreign ∧
          ¬ HoldsDeposit w' (GitFactory.subAccount factory repoName) s deposit)) := by
  obtain @⟨before, after, x, hpending, hruns⟩ := h
  refine ⟨canOpen_of_runs hruns, ?_⟩
  obtain ⟨-, -, acc, hacc, -, hcases⟩ := creation_runs_cases hruns
  have hat := (Function.update_self (GitFactory.subAccount factory repoName) x.account
    w.accounts).trans hacc
  rcases hcases with ⟨hcode, hfee, hle, hcontract, hbalance, -⟩ | ⟨hcode, hcontract⟩
  · refine .inl ⟨hcode, hfee, acc, hat, hcontract, ?_⟩
    rw [hbalance, Nat.sub_add_cancel hle]
  · refine .inr ⟨hcode, ?_⟩
    rintro ⟨acc', hacc', hcontract', -⟩
    obtain rfl : acc = acc' := Option.some.inj (hat.symm.trans hacc')
    rw [hcontract] at hcontract'
    cases hcontract'

/-! ## What an attempt costs -/

theorem gained_of_fails {rc : Receipt FunctionCall Code} (h : Fails (runtime net) w rc w')
    (a : String) : gained w w' a = 0 := by
  rw [gained, h.balance, sub_self]

theorem gained_of_refund {receiver : String}
    (h : Executes (runtime net) w (refund receiver deposit) w') (a : String) :
    gained w w' a = if a = receiver then (deposit : ℤ) else 0 := by
  rw [gained, h.balance_refund, add_sub_cancel_left]

theorem attached_add_refund (p : String) (deposit : ℕ) (a : String) :
    attached p deposit a + (if a = p then (deposit : ℤ) else 0) = 0 := by
  rw [attached]
  split_ifs
  · exact neg_add_cancel _
  · exact add_zero 0

theorem attached_add_refund_of_ne (hpos : 0 < deposit) {receiver : String} (hne : p ≠ receiver) :
    attached p deposit p + (if p = receiver then (deposit : ℤ) else 0) ≠ 0 := by
  rw [attached, if_pos rfl, if_neg hne]
  omega

theorem Attempt.cases {called settled : RepoWorld} {e : Ending} (hf : FactoryAt called factory f)
    (h : Attempt net f factory repoName p s deposit called settled e) :
    (¬ Accepts net factory repoName deposit ∧ ∃ gain, e = .refunded gain ∧ ∀ a, gain a = 0) ∨
    (Accepts net factory repoName deposit ∧ CanCreate net f factory repoName settled ∧
      CostsNothing factory repoName p s deposit e) ∨
    (Accepts net factory repoName deposit ∧ CreatesForeign net f factory repoName settled ∧
      ¬ CostsNothing factory repoName p s deposit e) ∨
    (Accepts net factory repoName deposit ∧ ¬ CanCreate net f factory repoName settled ∧
      ¬ CreatesForeign net f factory repoName settled ∧ ∃ gain, e = .refunded gain ∧
        ∀ a, gain a = attached p deposit a + if a = factory then (deposit : ℤ) else 0) := by
  cases h with
  | refused hfails _ hrefund =>
    refine .inl ⟨not_accepts_of_fails hf hfails, _, rfl, fun a => ?_⟩
    rw [gained_of_fails hfails, gained_of_refund hrefund, add_zero]
    exact attached_add_refund p deposit a
  | created hcall _ hcreation =>
    have haccepts := accepts_of_executes hf hcall
    obtain ⟨hopen, ⟨hcode, hfee, hholds⟩ | ⟨hcode, hholds⟩⟩ := executes_creation_cases hcreation
    · exact .inr (.inl ⟨haccepts, ⟨hopen, hcode, hfee⟩, hholds⟩)
    · exact .inr (.inr (.inl ⟨haccepts, ⟨hopen, hcode⟩, hholds⟩))
  | bounced hcall _ hfails _ hrefund =>
    have haccepts := accepts_of_executes hf hcall
    refine .inr (.inr (.inr ⟨haccepts, fun hcan => ?_, fun hforeign => ?_, _, rfl, fun a => ?_⟩))
    · obtain ⟨x, hx⟩ := hcan.runs haccepts.enough
      exact hfails.not_runs x hx
    · obtain ⟨x, hx⟩ := hforeign.runs
      exact hfails.not_runs x hx
    · rw [gained_called hf hcall, gained_of_fails hfails, gained_of_refund hrefund, add_zero,
        add_zero]

/-- An attempt costs its caller nothing exactly if `create_repo` itself panics, or the creation can
run when its turn comes; or the caller is the factory, and the refund finds it. -/
theorem createRepo_costs_nothing_iff {called settled : RepoWorld} {e : Ending}
    (hf : FactoryAt called factory f)
    (h : Attempt net f factory repoName p s deposit called settled e) :
    CostsNothing factory repoName p s deposit e ↔
      ¬ Accepts net factory repoName deposit ∨ CanCreate net f factory repoName settled ∨
        (p = factory ∧ ¬ CreatesForeign net f factory repoName settled) := by
  rcases h.cases hf with ⟨hrefuses, gain, rfl, hgain⟩ | ⟨-, hcan, hcosts⟩ |
    ⟨haccepts, hforeign, hcosts⟩ | ⟨haccepts, hcannot, hnotForeign, gain, rfl, hgain⟩
  · exact ⟨fun _ => .inl hrefuses, fun _ => ⟨hgain p, hgain factory⟩⟩
  · exact ⟨fun _ => .inr (.inl hcan), fun _ => hcosts⟩
  · refine ⟨fun h => absurd h hcosts, ?_⟩
    rintro (hrefuses | hcan | ⟨-, hnotForeign⟩)
    · exact absurd haccepts hrefuses
    · exact absurd (hcan.code.symm.trans hforeign.code) (by simp)
    · exact absurd hforeign hnotForeign
  · constructor
    · rintro ⟨hcaller, -⟩
      by_contra hcondition
      have hne : p ≠ factory := fun heq => hcondition (.inr (.inr ⟨heq, hnotForeign⟩))
      have hpos : 0 < deposit := lt_of_lt_of_le (by decide) haccepts.enough
      exact attached_add_refund_of_ne hpos hne ((hgain p).symm.trans hcaller)
    · rintro (hrefuses | hcan | ⟨rfl, -⟩)
      · exact absurd haccepts hrefuses
      · exact absurd hcan hcannot
      · have hzero := (hgain p).trans (attached_add_refund p deposit p)
        exact ⟨hzero, hzero⟩

/-! ## Attempts that end -/

theorem exists_issued (hpending : w.pending = [createRepoCall s p factory repoName deposit])
    (hf : FactoryAt w factory f) (haccepts : Accepts net factory repoName deposit) :
    ∃ issued, Executes (runtime net) w (createRepoCall s p factory repoName deposit) issued ∧
      issued.pending = [] ++ creation s factory repoName deposit f.globalContractHash :: [] ∧
      issued.globalContracts = w.globalContracts ∧ (∃ acc, issued.accounts factory = some acc) ∧
      ∀ a, a ≠ factory → issued.accounts a = w.accounts a := by
  obtain ⟨x, hx, hout⟩ := haccepts.runs hf
  obtain ⟨-, acc, hacc, -⟩ := runs_createRepoCall_cases hf hx
  have hpending : w.pending = [] ++ createRepoCall s p factory repoName deposit :: [] := hpending
  exact ⟨_, .intro hpending hx, hout, rfl, ⟨acc, (Function.update_self ..).trans hacc⟩,
    fun a ha => Function.update_of_ne ha ..⟩

theorem exists_bounced {acc : Account Deployed}
    (hpending : w.pending = [createRepoCall s p factory repoName deposit])
    (hf : FactoryAt w factory f) (haccepts : Accepts net factory repoName deposit)
    (hne : GitFactory.subAccount factory repoName ≠ factory)
    (htaken : w.accounts (GitFactory.subAccount factory repoName) = some acc) :
    ∃ settled e, Attempt net f factory repoName p s deposit w settled e ∧
      settled.accounts (GitFactory.subAccount factory repoName) = some acc := by
  obtain ⟨issued, hcall, hissued, -, ⟨facc, hfacc⟩, haccounts⟩ :=
    exists_issued (s := s) (p := p) hpending hf haccepts
  have htaken' := (haccounts _ hne).trans htaken
  have hnone (x : Execution FunctionCall Code Deployed) :
      ¬ RunsActions (runtime net) issued.globalContracts
        (creation s factory repoName deposit f.globalContractHash) (issued.start _)
        (creation s factory repoName deposit f.globalContractHash).actions x := fun hx => by
    have hfresh := (canOpen_of_runs hx).fresh
    rw [htaken'] at hfresh
    cases hfresh
  obtain ⟨failed, hfails, haccounts', hfailed⟩ := exists_fails hissued hnone
  have hcost : actionsCost (creation s factory repoName deposit f.globalContractHash).actions =
      deposit := by
    simp [actionsCost, creation, Action.cost]
  rw [hcost] at hfailed
  rw [← haccounts'] at hfacc
  obtain ⟨refunded, hrefund⟩ := exists_executes_refund (R := runtime net) hfailed hfacc
  exact ⟨issued, _, .bounced hcall .refl hfails .refl hrefund, htaken'⟩

theorem exists_created (hpending : w.pending = [createRepoCall s p factory repoName deposit])
    (hf : FactoryAt w factory f) (haccepts : Accepts net factory repoName deposit)
    (hne : GitFactory.subAccount factory repoName ≠ factory)
    (hcan : CanCreate net f factory repoName w) :
    ∃ settled e, Attempt net f factory repoName p s deposit w settled e ∧
      CanCreate net f factory repoName settled := by
  obtain ⟨issued, hcall, hissued, hglobal, -, haccounts⟩ :=
    exists_issued (s := s) (p := p) hpending hf haccepts
  have hcan' : CanCreate net f factory repoName issued :=
    ⟨⟨(haccounts _ hne).trans hcan.fresh, hcan.allowed⟩, hglobal ▸ hcan.code, hcan.fee⟩
  obtain ⟨x, hx⟩ := hcan'.runs (s := s) haccepts.enough
  exact ⟨issued, _, .created hcall .refl (.intro hissued hx), hcan'⟩

def calledWorld : RepoWorld where
  accounts := sampleWorld.accounts
  globalContracts := sampleWorld.globalContracts
  pending :=
    [createRepoCall "alice.testnet" "alice.testnet" "gitfactory.testnet" "repo" (2 * oneNear)]

def takenWorld : RepoWorld :=
  { calledWorld with
    accounts := Function.update calledWorld.accounts "repo.gitfactory.testnet"
      (some (sampleAccount false none)) }

theorem subAccount_sample :
    GitFactory.subAccount "gitfactory.testnet" "repo" = "repo.gitfactory.testnet" := by
  decide

theorem accepts_sample : Accepts sampleNetwork "gitfactory.testnet" "repo" (2 * oneNear) where
  valid := by
    rw [subAccount_sample]
    decide
  enough := by decide

theorem subAccount_sample_ne :
    GitFactory.subAccount "gitfactory.testnet" "repo" ≠ "gitfactory.testnet" := by
  rw [subAccount_sample]
  decide

theorem createRepo_costs_nothing_iff_free : ∃ settled e,
    Attempt sampleNetwork sampleFactory "gitfactory.testnet" "repo" "alice.testnet" "alice.testnet"
      (2 * oneNear) calledWorld settled e ∧
    CostsNothing "gitfactory.testnet" "repo" "alice.testnet" "alice.testnet" (2 * oneNear) e := by
  have hf : FactoryAt calledWorld "gitfactory.testnet" sampleFactory := ⟨_, rfl, rfl⟩
  have hcan : CanCreate sampleNetwork sampleFactory "gitfactory.testnet" "repo" calledWorld := by
    refine ⟨⟨?_, "repo", by decide, rfl⟩, rfl, by decide⟩
    rw [subAccount_sample]
    rfl
  obtain ⟨settled, e, hattempt, hcan'⟩ :=
    exists_created (s := "alice.testnet") rfl hf accepts_sample subAccount_sample_ne hcan
  exact ⟨settled, e, hattempt, (createRepo_costs_nothing_iff hf hattempt).mpr (.inr (.inl hcan'))⟩

theorem deposit_lost : ¬ ∀ (called settled : RepoWorld) (e : Ending),
    FactoryAt called "gitfactory.testnet" sampleFactory →
    Attempt sampleNetwork sampleFactory "gitfactory.testnet" "repo" "alice.testnet" "alice.testnet"
      (2 * oneNear) called settled e →
    CostsNothing "gitfactory.testnet" "repo" "alice.testnet" "alice.testnet" (2 * oneNear) e := by
  intro hclaim
  have hf : FactoryAt takenWorld "gitfactory.testnet" sampleFactory := ⟨_, rfl, rfl⟩
  have htaken : takenWorld.accounts (GitFactory.subAccount "gitfactory.testnet" "repo") =
      some (sampleAccount false none) := by
    rw [subAccount_sample]
    rfl
  obtain ⟨settled, e, hattempt, htaken'⟩ :=
    exists_bounced (s := "alice.testnet") rfl hf accepts_sample subAccount_sample_ne htaken
  have hcosts := hclaim _ _ _ hf hattempt
  rcases hattempt.cases hf with ⟨hrefuses, -⟩ | ⟨-, hcan, -⟩ | ⟨-, hforeign, -⟩ |
    ⟨-, -, -, gain, rfl, hgain⟩
  · exact hrefuses accepts_sample
  · exact absurd (htaken'.symm.trans hcan.fresh) (by simp)
  · exact absurd (htaken'.symm.trans hforeign.fresh) (by simp)
  · exact attached_add_refund_of_ne (by decide) (by decide)
      ((hgain "alice.testnet").symm.trans hcosts.1)

end NearGit.Factory
