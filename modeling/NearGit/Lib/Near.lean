import Mathlib.Logic.Function.Basic
import Mathlib.Logic.Relation
import NearGit.Lib.Bytes
import NearGit.Lib.System

/-! Accounts of a chain that act on each other through receipts. What the code on an account does
is a parameter; gas and the price of storage are left out. -/

namespace Lib.Near

variable {C D K : Type*}

/-- `C` is a call, that is a method and its arguments, and `D` is code. -/
inductive Action (C D : Type*)
  | createAccount
  | addKey
  | transfer (amount : ℕ)
  | deployContract (code : D)
  | useGlobalContract (codeHash : Bytes)
  | functionCall (call : C) (deposit : ℕ)
  | deleteAccount (beneficiary : String)
deriving DecidableEq

def Action.cost : Action C D → ℕ
  | .transfer amount => amount
  | .functionCall _ deposit => deposit
  | _ => 0

def actionsCost (actions : List (Action C D)) : ℕ := (actions.map Action.cost).sum

structure Promise (C D : Type*) where
  receiver : String
  actions : List (Action C D)
deriving DecidableEq

def promisesCost (promises : List (Promise C D)) : ℕ :=
  (promises.map fun p => actionsCost p.actions).sum

structure Receipt (C D : Type*) where
  signer : String
  predecessor : String
  receiver : String
  actions : List (Action C D)
deriving DecidableEq

/-- A promise of an account becomes a receipt: the signer is inherited. -/
def Promise.issue (signer predecessor : String) (p : Promise C D) : Receipt C D :=
  { signer, predecessor, receiver := p.receiver, actions := p.actions }

def refund (receiver : String) (amount : ℕ) : Receipt C D :=
  { signer := receiver, predecessor := "system", receiver, actions := [.transfer amount] }

structure Context where
  signer : String
  predecessor : String
  current : String
  deposit : ℕ

/-- `K` is a contract: code together with the state it has on its account. -/
structure Account (K : Type*) where
  balance : ℕ
  hasKey : Bool
  contract : Option K

/-- Code may answer in more than one way, so that code nobody knows can be among the contracts. -/
structure Runtime (C D K : Type*) where
  mayCreate : String → String → Prop
  /-- An account whose contract has too much in store is not deleted. -/
  mayDelete : Option K → Prop
  deploys : Option K → D → K → Prop
  runs : K → Context → C → K → List (Promise C D) → Prop

/-- A receipt under way: it sees and changes no account but that of its receiver. -/
structure Execution (C D K : Type*) where
  account : Option (Account K)
  actor : String
  out : List (Receipt C D)

structure World (C D K : Type*) where
  accounts : String → Option (Account K)
  globalContracts : Bytes → Option D
  pending : List (Receipt C D)

section Receipts
variable (R : Runtime C D K) (globalContracts : Bytes → Option D) (rc : Receipt C D)

/-- One action. Code and keys are changed, and an account is deleted, by the account itself only;
the one who has just created it acts as the account. -/
inductive RunsAction : Execution C D K → Action C D → Execution C D K → Prop
  | createAccount {x} : x.account = none → R.mayCreate x.actor rc.receiver →
      RunsAction x .createAccount
        { x with
          account := some { balance := 0, hasKey := false, contract := none }
          actor := rc.receiver }
  | addKey {x acc} : x.account = some acc → x.actor = rc.receiver →
      RunsAction x .addKey { x with account := some { acc with hasKey := true } }
  | transfer {x acc amount} : x.account = some acc →
      RunsAction x (.transfer amount)
        { x with account := some { acc with balance := acc.balance + amount } }
  | deployContract {x acc code k} : x.account = some acc → x.actor = rc.receiver →
      R.deploys acc.contract code k →
      RunsAction x (.deployContract code) { x with account := some { acc with contract := k } }
  | useGlobalContract {x acc codeHash code k} : x.account = some acc → x.actor = rc.receiver →
      globalContracts codeHash = some code → R.deploys acc.contract code k →
      RunsAction x (.useGlobalContract codeHash)
        { x with account := some { acc with contract := k } }
  | functionCall {x acc k call deposit k' promises} : x.account = some acc →
      acc.contract = some k →
      R.runs k { signer := rc.signer, predecessor := rc.predecessor, current := rc.receiver, deposit }
        call k' promises →
      promisesCost promises ≤ acc.balance + deposit →
      RunsAction x (.functionCall call deposit)
        { x with
          account := some { acc with
            balance := acc.balance + deposit - promisesCost promises
            contract := k' }
          out := x.out ++ promises.map (Promise.issue rc.signer rc.receiver) }
  | deleteAccount {x acc beneficiary} : x.account = some acc → x.actor = rc.receiver →
      R.mayDelete acc.contract →
      RunsAction x (.deleteAccount beneficiary)
        { x with account := none, out := x.out ++ [refund beneficiary acc.balance] }

inductive RunsActions : Execution C D K → List (Action C D) → Execution C D K → Prop
  | nil {x} : RunsActions x [] x
  | cons {x y z action actions} : RunsAction R globalContracts rc x action y →
      RunsActions y actions z → RunsActions x (action :: actions) z

end Receipts

section Worlds
variable (R : Runtime C D K)

def World.start (w : World C D K) (rc : Receipt C D) : Execution C D K :=
  { account := w.accounts rc.receiver, actor := rc.predecessor, out := [] }

def World.settle (w : World C D K) (rc : Receipt C D) (rest : List (Receipt C D))
    (x : Execution C D K) : World C D K :=
  { w with
    accounts := Function.update w.accounts rc.receiver x.account
    pending := rest ++ x.out }

def World.debit (w : World C D K) (sender : String) (acc : Account K) (rc : Receipt C D) :
    World C D K :=
  { w with
    accounts := Function.update w.accounts sender
      (some { acc with balance := acc.balance - actionsCost rc.actions })
    pending := w.pending ++ [rc] }

inductive Executes : World C D K → Receipt C D → World C D K → Prop
  | intro {w rc before after x} : w.pending = before ++ rc :: after →
      RunsActions R w.globalContracts rc (w.start rc) rc.actions x →
      Executes w rc (w.settle rc (before ++ after) x)

/-- A receipt may fail at any time, for want of gas if for nothing else; then it has no effect and
its deposits go back to its predecessor. -/
inductive Step : World C D K → World C D K → Prop
  | transact {w sender receiver acc actions} : w.accounts sender = some acc → acc.hasKey = true →
      actionsCost actions ≤ acc.balance →
      Step w (w.debit sender acc { signer := sender, predecessor := sender, receiver, actions })
  | execute {w rc w'} : Executes R w rc w' → Step w w'
  | fail {w rc before after} : w.pending = before ++ rc :: after →
      Step w { w with
        pending := before ++ after ++ [refund rc.predecessor (actionsCost rc.actions)] }
  | deployGlobal {w codeHash code} : w.globalContracts codeHash = none →
      Step w { w with globalContracts := Function.update w.globalContracts codeHash (some code) }

def chain (init : Set (World C D K)) : System (World C D K) where
  init
  step := Step R

def LivesOn (a : String) : World C D K → World C D K → Prop :=
  Relation.ReflTransGen fun w w' => Step R w w' ∧ (w'.accounts a).isSome

end Worlds

/-! ## What an account without a key keeps -/

/-- The action changes neither keys nor code, unless the account goes with them. -/
def Action.Plain : Action C D → Prop
  | .transfer _ | .functionCall _ _ | .deleteAccount _ => True
  | _ => False

def Receipt.PlainOn (a : String) (rc : Receipt C D) : Prop :=
  rc.predecessor = a → rc.receiver = a → ∀ action ∈ rc.actions, action.Plain

theorem mem_of_mem_rest {pending before after : List (Receipt C D)} {rc rc' : Receipt C D}
    (hpending : pending = before ++ rc :: after) (h : rc' ∈ before ++ after) : rc' ∈ pending := by
  rw [hpending]
  rcases List.mem_append.mp h with hmem | hmem
  · exact List.mem_append_left _ hmem
  · exact List.mem_append_right _ (List.mem_cons_of_mem _ hmem)

theorem refund_plainOn (a receiver : String) (amount : ℕ) :
    (refund receiver amount : Receipt C D).PlainOn a := by
  intro _ _ action haction
  rw [List.mem_singleton.mp haction]
  trivial

/-- The contracts in `I` stay in `I` whoever calls them, and do not touch their own account. -/
structure Keeps (R : Runtime C D K) (a : String) (I : K → Prop) : Prop where
  inv : ∀ {k ctx call k' promises}, I k → R.runs k ctx call k' promises → I k'
  plain : ∀ {k ctx call k' promises}, I k → R.runs k ctx call k' promises →
    ∀ p ∈ promises, p.receiver = a → ∀ action ∈ p.actions, action.Plain

def Account.Locked (I : K → Prop) (acc : Account K) : Prop :=
  acc.hasKey = false ∧ ∃ k, acc.contract = some k ∧ I k

/-- The account has a contract in `I`, and there is no way around it. -/
structure Sealed (a : String) (I : K → Prop) (w : World C D K) : Prop where
  account : ∃ acc, w.accounts a = some acc ∧ acc.Locked I
  pending : ∀ rc ∈ w.pending, rc.PlainOn a

section Sealed
variable {R : Runtime C D K} {globalContracts : Bytes → Option D} {rc : Receipt C D} {a : String}
  {I : K → Prop} {w w' : World C D K} {x y : Execution C D K} {action : Action C D}

structure SealedIn (rc : Receipt C D) (a : String) (I : K → Prop) (x : Execution C D K) : Prop where
  account : ∀ acc, x.account = some acc → acc.Locked I
  actor : x.actor = rc.predecessor
  gone : x.account = none → rc.predecessor = a
  out : ∀ rc' ∈ x.out, rc'.PlainOn a

theorem SealedIn.step (hkeeps : Keeps R a I) (hreceiver : rc.receiver = a) (hplain : rc.PlainOn a)
    (hx : SealedIn rc a I x) (haction : action ∈ rc.actions)
    (h : RunsAction R globalContracts rc x action y) : SealedIn rc a I y := by
  -- what only the account itself may do is not among the actions it has sent itself
  have hself : ∀ {P : Prop}, ¬ action.Plain → rc.predecessor = a → P := fun hnot hpred =>
    absurd (hplain hpred hreceiver action haction) hnot
  cases h with
  | createAccount hnone _ => exact hself id (hx.gone hnone)
  | addKey _ hactor => exact hself id (hx.actor.symm.trans (hactor.trans hreceiver))
  | deployContract _ hactor _ => exact hself id (hx.actor.symm.trans (hactor.trans hreceiver))
  | useGlobalContract _ hactor _ _ =>
    exact hself id (hx.actor.symm.trans (hactor.trans hreceiver))
  | transfer hacc =>
    refine ⟨?_, hx.actor, nofun, hx.out⟩
    rintro _ ⟨⟩
    have hlocked := hx.account _ hacc
    exact hlocked
  | functionCall hacc hk hruns _ =>
    obtain ⟨hkey, k, hk', hI⟩ := hx.account _ hacc
    obtain rfl : _ = k := Option.some.inj (hk.symm.trans hk')
    refine ⟨?_, hx.actor, nofun, ?_⟩
    · rintro _ ⟨⟩
      exact ⟨hkey, _, rfl, hkeeps.inv hI hruns⟩
    · intro rc' hrc'
      rcases List.mem_append.mp hrc' with hold | hnew
      · exact hx.out rc' hold
      · obtain ⟨p, hp, rfl⟩ := List.mem_map.mp hnew
        exact fun _ hto => hkeeps.plain hI hruns p hp hto
  | deleteAccount _ hactor _ =>
    refine ⟨nofun, hx.actor, fun _ => hx.actor.symm.trans (hactor.trans hreceiver), ?_⟩
    exact List.forall_mem_append.mpr
      ⟨hx.out, List.forall_mem_singleton.mpr (refund_plainOn a _ _)⟩

theorem SealedIn.run (hkeeps : Keeps R a I) (hreceiver : rc.receiver = a) (hplain : rc.PlainOn a)
    {actions : List (Action C D)} (hx : SealedIn rc a I x)
    (h : RunsActions R globalContracts rc x actions y) (hactions : actions ⊆ rc.actions) :
    SealedIn rc a I y := by
  induction h with
  | nil => exact hx
  | cons haction _ ih =>
    exact ih (hx.step hkeeps hreceiver hplain (hactions List.mem_cons_self) haction)
      fun _ hmem => hactions (List.mem_cons_of_mem _ hmem)

theorem RunsAction.out_plainOn (hne : rc.receiver ≠ a)
    (h : RunsAction R globalContracts rc x action y) (hx : ∀ rc' ∈ x.out, rc'.PlainOn a) :
    ∀ rc' ∈ y.out, rc'.PlainOn a := by
  cases h with
  | functionCall _ _ _ _ =>
    intro rc' hrc'
    rcases List.mem_append.mp hrc' with hold | hnew
    · exact hx rc' hold
    · obtain ⟨p, -, rfl⟩ := List.mem_map.mp hnew
      exact fun hpred => absurd hpred hne
  | deleteAccount _ _ _ =>
    exact List.forall_mem_append.mpr ⟨hx, List.forall_mem_singleton.mpr (refund_plainOn a _ _)⟩
  | createAccount | addKey | transfer | deployContract | useGlobalContract => exact hx

theorem RunsActions.out_plainOn (hne : rc.receiver ≠ a) {actions : List (Action C D)}
    (h : RunsActions R globalContracts rc x actions y) (hx : ∀ rc' ∈ x.out, rc'.PlainOn a) :
    ∀ rc' ∈ y.out, rc'.PlainOn a := by
  induction h with
  | nil => exact hx
  | cons haction _ ih => exact ih (haction.out_plainOn hne hx)

theorem Sealed.executes (hkeeps : Keeps R a I) (h : Sealed a I w) (hw : Executes R w rc w')
    (hlives : (w'.accounts a).isSome) : Sealed a I w' := by
  obtain @⟨before, after, x, hpending, hruns⟩ := hw
  have hrest : ∀ rc' ∈ before ++ after, rc'.PlainOn a := fun rc' hrc' =>
    h.pending rc' (mem_of_mem_rest hpending hrc')
  have hrc : rc.PlainOn a := h.pending rc (by simp [hpending])
  have hsettled (hout : ∀ rc' ∈ x.out, rc'.PlainOn a) :
      ∀ rc' ∈ before ++ after ++ x.out, rc'.PlainOn a := List.forall_mem_append.mpr ⟨hrest, hout⟩
  obtain ⟨acc, hacc, hlocked⟩ := h.account
  by_cases hreceiver : rc.receiver = a
  · have hbefore : (w.start rc).account = some acc := (congrArg w.accounts hreceiver).trans hacc
    have hstart : SealedIn rc a I (w.start rc) := by
      refine ⟨?_, rfl, ?_, nofun⟩
      · intro acc' hacc'
        obtain rfl : acc = acc' := Option.some.inj (hbefore.symm.trans hacc')
        exact hlocked
      · intro hnone
        exact absurd (hbefore.symm.trans hnone) (Option.some_ne_none acc)
    have hx := hstart.run hkeeps hreceiver hrc hruns (List.Subset.refl _)
    have hat : (w.settle rc (before ++ after) x).accounts a = x.account := by
      rw [← hreceiver]
      exact Function.update_self ..
    rw [hat] at hlives
    obtain ⟨acc', hacc'⟩ := Option.isSome_iff_exists.mp hlives
    exact ⟨⟨acc', hat.trans hacc', hx.account acc' hacc'⟩, hsettled hx.out⟩
  · have hat : (w.settle rc (before ++ after) x).accounts a = w.accounts a :=
      Function.update_of_ne (Ne.symm hreceiver) ..
    exact ⟨⟨acc, hat.trans hacc, hlocked⟩, hsettled (hruns.out_plainOn hreceiver nofun)⟩

theorem Sealed.step (hkeeps : Keeps R a I) (h : Sealed a I w) (hw : Step R w w')
    (hlives : (w'.accounts a).isSome) : Sealed a I w' := by
  cases hw with
  | @transact sender receiver sacc actions hsender hkey _ =>
    obtain ⟨acc, hacc, hlocked⟩ := h.account
    -- the account itself has no key to sign with
    have hne : sender ≠ a := by
      rintro rfl
      obtain rfl : acc = sacc := Option.some.inj (hacc.symm.trans hsender)
      exact absurd (hkey.symm.trans hlocked.1) nofun
    refine ⟨⟨acc, (Function.update_of_ne (Ne.symm hne) ..).trans hacc, hlocked⟩, ?_⟩
    exact List.forall_mem_append.mpr
      ⟨h.pending, List.forall_mem_singleton.mpr fun hpred => absurd hpred hne⟩
  | execute hex => exact h.executes hkeeps hex hlives
  | @fail rc before after hpending =>
    have hrest : ∀ rc' ∈ before ++ after, rc'.PlainOn a := fun rc' hrc' =>
      h.pending rc' (mem_of_mem_rest hpending hrc')
    exact ⟨h.account, List.forall_mem_append.mpr
      ⟨hrest, List.forall_mem_singleton.mpr (refund_plainOn a _ _)⟩⟩
  | deployGlobal _ => exact ⟨h.account, h.pending⟩

/-- An account without a key is under its own code for as long as it lives. -/
theorem Sealed.livesOn (hkeeps : Keeps R a I) (h : Sealed a I w) (hw : LivesOn R a w w') :
    Sealed a I w' := by
  induction hw with
  | refl => exact h
  | tail _ hstep ih => exact ih.step hkeeps hstep.1 hstep.2

end Sealed

/-! ## Balances, and receipts that cannot run -/

def World.balance (w : World C D K) (a : String) : ℤ :=
  match w.accounts a with
  | some acc => acc.balance
  | none => 0

/-- The receipt cannot run, and its deposits are on their way back to its predecessor. -/
inductive Fails (R : Runtime C D K) : World C D K → Receipt C D → World C D K → Prop
  | intro {w rc before after} : w.pending = before ++ rc :: after →
      (∀ x, ¬ RunsActions R w.globalContracts rc (w.start rc) rc.actions x) →
      Fails R w rc { w with
        pending := before ++ after ++ [refund rc.predecessor (actionsCost rc.actions)] }

section Balances
variable {R : Runtime C D K} {rc : Receipt C D} {w w' : World C D K}

theorem Fails.step (h : Fails R w rc w') : Step R w w' := by
  obtain ⟨hpending, -⟩ := h
  exact .fail hpending

theorem exists_fails {before after : List (Receipt C D)}
    (hpending : w.pending = before ++ rc :: after)
    (hnone : ∀ x, ¬ RunsActions R w.globalContracts rc (w.start rc) rc.actions x) :
    ∃ w', Fails R w rc w' ∧ w'.accounts = w.accounts ∧
      w'.pending = before ++ after ++ refund rc.predecessor (actionsCost rc.actions) :: [] :=
  ⟨_, .intro hpending hnone, rfl, rfl⟩

theorem Fails.not_runs (h : Fails R w rc w') (x : Execution C D K) :
    ¬ RunsActions R w.globalContracts rc (w.start rc) rc.actions x := by
  obtain ⟨-, hnone⟩ := h
  exact hnone x

theorem Fails.balance (h : Fails R w rc w') : w'.balance = w.balance := by
  obtain ⟨-, -⟩ := h
  rfl

theorem World.balance_eq {a : String} {acc : Account K} (h : w.accounts a = some acc) :
    w.balance a = acc.balance := by
  rw [World.balance, h]

theorem World.settle_balance_self (rc : Receipt C D) (rest : List (Receipt C D))
    {x : Execution C D K} {acc : Account K} (hx : x.account = some acc) :
    (w.settle rc rest x).balance rc.receiver = acc.balance :=
  World.balance_eq ((Function.update_self ..).trans hx)

theorem World.settle_balance_of_ne (rest : List (Receipt C D)) (x : Execution C D K) {a : String}
    (hne : a ≠ rc.receiver) : (w.settle rc rest x).balance a = w.balance a := by
  have hat : (w.settle rc rest x).accounts a = w.accounts a := Function.update_of_ne hne ..
  rw [World.balance, hat, World.balance]

theorem exists_executes_refund {before after : List (Receipt C D)} {receiver : String} {amount : ℕ}
    {acc : Account K} (hpending : w.pending = before ++ refund receiver amount :: after)
    (hacc : w.accounts receiver = some acc) : ∃ w', Executes R w (refund receiver amount) w' :=
  ⟨_, .intro hpending (.cons (.transfer hacc) .nil)⟩

theorem Executes.balance_refund {receiver : String} {amount : ℕ}
    (h : Executes R w (refund receiver amount) w') (a : String) :
    w'.balance a = w.balance a + if a = receiver then (amount : ℤ) else 0 := by
  obtain @⟨before, after, x, hpending, hruns⟩ := h
  by_cases ha : a = receiver
  · subst ha
    obtain _ | ⟨htransfer, hruns⟩ := hruns
    cases hruns
    cases htransfer with
    | @transfer acc _ hacc =>
      have hbefore : w.balance a = acc.balance := World.balance_eq hacc
      have hafter := World.settle_balance_self (w := w) (refund a amount) (before ++ after)
        (x := { w.start (refund a amount) with
          account := some { acc with balance := acc.balance + amount } }) rfl
      rw [if_pos rfl, hbefore]
      exact hafter.trans (Nat.cast_add ..)
  · rw [if_neg ha, add_zero]
    exact World.settle_balance_of_ne _ _ ha

end Balances

end Lib.Near
