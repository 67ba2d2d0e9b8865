import NearGit.ServiceWorker.FunctionCall

/-! A call is executed at most once: when it is signed anew, the copies that were signed before can
no longer be executed. -/

namespace NearGit.ServiceWorker
open Lib

variable {ω ι α : Type*}

/-- A broadcast is rejected for its nonce only if it has not been executed. -/
def RejectsUnexecuted (s : KeyState ω ι α) : Action ι α → Prop
  | .answer i (.invalidNonce _) =>
    ∀ attempt tx, s.phase i = .broadcasting attempt tx → ¬ s.chain.Executed tx
  | _ => True

/-! ## The chain -/

/-- The transaction has not been executed, and its nonce is used up. -/
structure Chain.Dead (chain : Chain α) (tx : SignedTx α) : Prop where
  notExecuted : ¬ chain.Executed tx
  le_akNonce : tx.nonce ≤ chain.akNonce

theorem Chain.Ordered.execute {chain : Chain α} (h : chain.Ordered) (tx : SignedTx α)
    (success : Bool) : (chain.execute tx success).Ordered := by
  unfold Chain.execute
  split_ifs with hlt
  · refine ⟨List.pairwise_append.mpr ⟨h.increasing, List.pairwise_singleton .., ?_⟩, ?_⟩
    · intro t ht u hu
      rw [List.mem_singleton.mp hu]
      exact (h.le_akNonce t ht).trans_lt hlt
    · intro t ht
      rcases List.mem_append.mp ht with ht | ht
      · exact (h.le_akNonce t ht).trans hlt.le
      · rw [List.mem_singleton.mp ht]
  · exact h

theorem Chain.mem_executed_execute {chain : Chain α} (tx : SignedTx α) (success : Bool)
    {t : SignedTx α × Bool} (ht : t ∈ chain.executed) :
    t ∈ (chain.execute tx success).executed := by
  unfold Chain.execute
  split_ifs
  · exact List.mem_append_left _ ht
  · exact ht

theorem Chain.Executed.execute {chain : Chain α} {t : SignedTx α} (h : chain.Executed t)
    (tx : SignedTx α) (success : Bool) : (chain.execute tx success).Executed t := by
  obtain ⟨outcome, hmem⟩ := h
  exact ⟨outcome, mem_executed_execute tx success hmem⟩

theorem Chain.Dead.execute {chain : Chain α} {t : SignedTx α} (h : chain.Dead t)
    (tx : SignedTx α) (success : Bool) : (chain.execute tx success).Dead t := by
  unfold Chain.execute
  split_ifs with hlt
  · refine ⟨?_, h.le_akNonce.trans hlt.le⟩
    rintro ⟨outcome, hmem⟩
    rcases List.mem_append.mp hmem with hmem | hmem
    · exact h.notExecuted ⟨outcome, hmem⟩
    · -- what is executed now has a nonce above the key's
      obtain ⟨rfl, -⟩ := Prod.mk.inj (List.mem_singleton.mp hmem)
      exact absurd h.le_akNonce hlt.not_ge
  · exact h

/-! ## What an invocation has sent -/

structure OneLive (chain : Chain α) (sent : List (SignedTx α)) : Prop where
  length_le : sent.length ≤ 3
  earlierDead : ∀ t ∈ sent.dropLast, chain.Dead t

structure Outstanding (chain : Chain α) (sent : List (SignedTx α)) (attempt : ℕ)
    (tx : SignedTx α) : Prop where
  oneLive : OneLive chain sent
  length_eq : sent.length = attempt + 1
  last : sent.getLast? = some tx

def AnswerHolds (chain : Chain α) (tx : SignedTx α) : BroadcastAnswer → Prop
  | .invalidNonce _ => chain.Dead tx
  | .status success => (tx, success) ∈ chain.executed
  | .error => True
  | .threw => True

def SentBy (chain : Chain α) (sent : List (SignedTx α)) : Phase α → Prop
  | .idle => sent = []
  | .viewing => sent = []
  | .broadcasting attempt tx => Outstanding chain sent attempt tx
  | .answered attempt tx answer =>
    Outstanding chain sent attempt tx ∧ AnswerHolds chain tx answer
  | .returned success =>
    OneLive chain sent ∧ (success = true → ∃ tx ∈ sent, chain.Executed tx)
  | .threw => OneLive chain sent

theorem oneLive_nil (chain : Chain α) : OneLive chain [] where
  length_le := by simp
  earlierDead := by simp

theorem Outstanding.mem {chain : Chain α} {sent : List (SignedTx α)} {attempt : ℕ}
    {tx : SignedTx α} (h : Outstanding chain sent attempt tx) : tx ∈ sent :=
  List.mem_of_getLast? h.last

theorem OneLive.of_executed {chain : Chain α} {sent : List (SignedTx α)} {tx : SignedTx α}
    (h : OneLive chain sent) (hmem : tx ∈ sent) (hexec : chain.Executed tx) :
    sent.getLast? = some tx := by
  rcases List.eq_nil_or_concat sent with rfl | ⟨earlier, last, rfl⟩
  · exact absurd hmem List.not_mem_nil
  · rw [List.concat_eq_append] at *
    rcases List.mem_append.mp hmem with hmem | hmem
    · have hdead := h.earlierDead tx (by rwa [List.dropLast_concat])
      exact absurd hexec hdead.notExecuted
    · rw [List.mem_singleton.mp hmem, List.getLast?_concat]

theorem OneLive.execute {chain : Chain α} {sent : List (SignedTx α)} (h : OneLive chain sent)
    (tx : SignedTx α) (success : Bool) : OneLive (chain.execute tx success) sent where
  length_le := h.length_le
  earlierDead t ht := (h.earlierDead t ht).execute tx success

theorem OneLive.of_sentBy {chain : Chain α} {sent : List (SignedTx α)} {phase : Phase α}
    (h : SentBy chain sent phase) : OneLive chain sent := by
  cases phase with
  | idle => exact h ▸ oneLive_nil chain
  | viewing => exact h ▸ oneLive_nil chain
  | broadcasting attempt tx => exact h.oneLive
  | answered attempt tx answer => exact h.1.oneLive
  | returned success => exact h.1
  | threw => exact h

theorem AnswerHolds.execute {chain : Chain α} {tx : SignedTx α} {answer : BroadcastAnswer}
    (h : AnswerHolds chain tx answer) (u : SignedTx α) (success : Bool) :
    AnswerHolds (chain.execute u success) tx answer := by
  cases answer with
  | invalidNonce akNonce => exact Chain.Dead.execute h u success
  | status outcome => exact Chain.mem_executed_execute u success h
  | error => exact h
  | threw => exact h

theorem SentBy.execute {chain : Chain α} {sent : List (SignedTx α)} {phase : Phase α}
    (h : SentBy chain sent phase) (tx : SignedTx α) (success : Bool) :
    SentBy (chain.execute tx success) sent phase := by
  cases phase with
  | idle => exact h
  | viewing => exact h
  | broadcasting attempt u => exact ⟨h.oneLive.execute tx success, h.length_eq, h.last⟩
  | answered attempt u answer =>
    exact ⟨⟨h.1.oneLive.execute tx success, h.1.length_eq, h.1.last⟩, h.2.execute tx success⟩
  | returned outcome =>
    refine ⟨h.1.execute tx success, fun houtcome => ?_⟩
    obtain ⟨u, hu, hexec⟩ := h.2 houtcome
    exact ⟨u, hu, hexec.execute tx success⟩
  | threw => exact OneLive.execute h tx success

theorem SentBy.signAndBroadcast {chain : Chain α} {sent : List (SignedTx α)}
    (hdead : ∀ t ∈ sent, chain.Dead t) (signs : α → String → Bool) (call : α)
    (blockHash : String) {attempt : ℕ} (txNonce : ℕ) (hlen : sent.length = attempt)
    (hattempt : attempt ≤ 2) :
    SentBy chain
      (sent ++ (signAndBroadcast signs call blockHash attempt txNonce).signed)
      (signAndBroadcast signs call blockHash attempt txNonce) := by
  unfold NearGit.ServiceWorker.signAndBroadcast
  split_ifs with hsigns
  · rw [signed_broadcasting]
    refine ⟨⟨?_, ?_⟩, ?_, List.getLast?_concat⟩
    · rw [List.length_append, hlen, List.length_singleton]
      exact Nat.succ_le_succ hattempt
    · rwa [List.dropLast_concat]
    · rw [List.length_append, hlen, List.length_singleton]
  · rw [signed_threw, List.append_nil]
    exact ⟨by omega, fun t ht => hdead t (List.dropLast_subset _ ht)⟩

theorem Outstanding.all_dead {chain : Chain α} {sent : List (SignedTx α)} {attempt : ℕ}
    {tx : SignedTx α} (h : Outstanding chain sent attempt tx) (hdead : chain.Dead tx) :
    ∀ t ∈ sent, chain.Dead t := by
  intro t ht
  obtain ⟨earlier, rfl⟩ := List.getLast?_eq_some_iff.mp h.last
  rcases List.mem_append.mp ht with ht | ht
  · exact h.oneLive.earlierDead t (by rwa [List.dropLast_concat])
  · exact List.mem_singleton.mp ht ▸ hdead

theorem SentBy.afterBroadcast {chain : Chain α} {sent : List (SignedTx α)} {attempt : ℕ}
    {tx : SignedTx α} {answer : BroadcastAnswer} (h : Outstanding chain sent attempt tx)
    (hanswer : AnswerHolds chain tx answer) (signs : α → String → Bool) (call : α)
    (lastUsed : ℕ) :
    SentBy chain
      (sent ++ (afterBroadcast signs call lastUsed attempt tx.blockHash answer).2.signed)
      (afterBroadcast signs call lastUsed attempt tx.blockHash answer).2 := by
  cases answer with
  | invalidNonce akNonce =>
    unfold NearGit.ServiceWorker.afterBroadcast
    split_ifs with hattempt
    · exact signAndBroadcast (h.all_dead hanswer) signs call tx.blockHash _ h.length_eq
        (Nat.succ_le_of_lt hattempt)
    · rw [signed_returned, List.append_nil]
      exact ⟨h.oneLive, fun hfalse => absurd hfalse (by decide)⟩
  | error =>
    rw [NearGit.ServiceWorker.afterBroadcast, signed_returned, List.append_nil]
    exact ⟨h.oneLive, fun hfalse => absurd hfalse (by decide)⟩
  | status success =>
    rw [NearGit.ServiceWorker.afterBroadcast, signed_returned, List.append_nil]
    exact ⟨h.oneLive, fun _ => ⟨tx, h.mem, success, hanswer⟩⟩
  | threw =>
    rw [NearGit.ServiceWorker.afterBroadcast, signed_threw, List.append_nil]
    exact h.oneLive

/-! ## Runs -/

structure CallsSettled (s : KeyState ω ι α) : Prop where
  ordered : s.chain.Ordered
  sentBy : ∀ i, SentBy s.chain (s.sent i) (s.phase i)

theorem CallsSettled.execute {s : KeyState ω ι α} (h : CallsSettled s) (tx : SignedTx α)
    (success : Bool) : CallsSettled (s.execute tx success) :=
  ⟨h.ordered.execute tx success, fun i => (h.sentBy i).execute tx success⟩

section
variable [DecidableEq ι]

theorem CallsSettled.setPhase {s : KeyState ω ι α} (h : CallsSettled s) {i : ι} {phase : Phase α}
    (hphase : SentBy s.chain (s.sent i) phase) : CallsSettled (s.setPhase i phase) := by
  refine ⟨h.ordered, fun j => ?_⟩
  rcases eq_or_ne j i with rfl | hne
  · simpa [KeyState.setPhase] using hphase
  · simpa [KeyState.setPhase, hne] using h.sentBy j

variable [DecidableEq ω] {calls : Invocations ω ι α}

theorem CallsSettled.proceed {s : KeyState ω ι α} (h : CallsSettled s) (w : ω) {i : ι}
    {next : ℕ × Phase α} (hnext : SentBy s.chain (s.sent i ++ next.2.signed) next.2) :
    CallsSettled (s.proceed w i next) := by
  refine ⟨h.ordered, fun j => ?_⟩
  rcases eq_or_ne j i with rfl | hne
  · simpa [KeyState.proceed] using hnext
  · simpa [KeyState.proceed, hne] using h.sentBy j

theorem CallsSettled.step {s s' : KeyState ω ι α} {a : Action ι α} (h : CallsSettled s)
    (hrejects : RejectsUnexecuted s a) (hstep : Step calls s a s') : CallsSettled s' := by
  cases hstep with
  | @start i hphase =>
    have hsent := h.sentBy i
    rw [hphase] at hsent
    exact h.setPhase hsent
  | @viewFailed i hphase =>
    have hsent : s.sent i = [] := by
      have hsent := h.sentBy i
      rwa [hphase] at hsent
    refine h.setPhase ?_
    rw [hsent]
    exact oneLive_nil s.chain
  | deliver _ => exact h.execute _ _
  | other => exact h.execute _ _
  | @view i view hphase _ =>
    have hsent : s.sent i = [] := by
      have hsent := h.sentBy i
      rwa [hphase] at hsent
    refine h.proceed _ (SentBy.signAndBroadcast ?_ _ _ _ _ ?_ (Nat.zero_le _))
    · simp [hsent]
    · simp [hsent]
  | @answer i attempt tx answer hphase hanswers =>
    have hout : Outstanding s.chain (s.sent i) attempt tx := by
      have hsent := h.sentBy i
      rwa [hphase] at hsent
    refine h.setPhase ⟨hout, ?_⟩
    cases answer with
    | invalidNonce akNonce => exact ⟨hrejects attempt tx hphase, hanswers.2⟩
    | error => trivial
    | status success => exact hanswers
    | threw => trivial
  | @resume i attempt tx answer hphase =>
    have hsent := h.sentBy i
    rw [hphase] at hsent
    exact h.proceed _ (SentBy.afterBroadcast hsent.1 hsent.2 _ _ _)

theorem callsSettled {s : KeyState ω ι α}
    (h : (callSystem calls RejectsUnexecuted).Reachable s) : CallsSettled s := by
  refine h.invariant ?_ ?_
  · rintro s ⟨-, hphase, hsent, hordered⟩
    refine ⟨hordered, fun i => ?_⟩
    rw [hphase]
    exact hsent i
  · rintro s s' hs ⟨a, hrejects, hstep⟩
    exact hs.step hrejects hstep

end

def KeyState.executions [DecidableEq α] (s : KeyState ω ι α) (i : ι) : ℕ :=
  s.chain.executed.countP fun t => t.1 ∈ s.sent i

theorem Chain.Ordered.countP_le_one {chain : Chain α} (h : chain.Ordered)
    {p : SignedTx α × Bool → Bool} {tx : SignedTx α}
    (hp : ∀ t ∈ chain.executed, p t = true → t.1 = tx) : chain.executed.countP p ≤ 1 := by
  have hpair : (chain.executed.filter p).Pairwise fun t u => t.1.nonce < u.1.nonce :=
    h.increasing.sublist List.filter_sublist
  rw [List.countP_eq_length_filter]
  rcases hfilter : chain.executed.filter p with _ | ⟨t, _ | ⟨u, rest⟩⟩
  · simp
  · simp
  · have hmem {v : SignedTx α × Bool} (hv : v ∈ t :: u :: rest) : v.1 = tx := by
      rw [← hfilter] at hv
      exact hp v (List.mem_filter.mp hv).1 (List.mem_filter.mp hv).2
    rw [hfilter] at hpair
    have hlt : t.1.nonce < u.1.nonce := (List.pairwise_cons.mp hpair).1 u (by simp)
    rw [hmem (v := t) (by simp), hmem (v := u) (by simp)] at hlt
    exact absurd hlt (lt_irrefl _)

/-- Of the at most three transactions of one invocation at most one is ever executed, and exactly
one if the invocation returns success. -/
theorem executed_at_most_once [DecidableEq ω] [DecidableEq ι] [DecidableEq α]
    (calls : Invocations ω ι α) (s : KeyState ω ι α)
    (h : (callSystem calls RejectsUnexecuted).Reachable s) (i : ι) :
    (s.sent i).length ≤ 3 ∧ s.executions i ≤ 1 ∧
      (s.phase i = .returned true → s.executions i = 1) := by
  have hsettled := callsSettled h
  have hlive : OneLive s.chain (s.sent i) := .of_sentBy (hsettled.sentBy i)
  have hle : s.executions i ≤ 1 := by
    rcases hlast : (s.sent i).getLast? with _ | last
    · have hnil : s.sent i = [] := List.getLast?_eq_none_iff.mp hlast
      simp [KeyState.executions, hnil]
    · have hall : ∀ t ∈ s.chain.executed, decide (t.1 ∈ s.sent i) = true → t.1 = last := by
        intro t ht hsent
        have hexec := hlive.of_executed (of_decide_eq_true hsent) ⟨t.2, ht⟩
        exact (Option.some.inj (hlast.symm.trans hexec)).symm
      exact hsettled.ordered.countP_le_one hall
  refine ⟨hlive.length_le, hle, fun hphase => le_antisymm hle ?_⟩
  have hsent := hsettled.sentBy i
  rw [hphase] at hsent
  obtain ⟨tx, hmem, success, hexec⟩ := hsent.2 rfl
  exact List.countP_pos_iff.mpr ⟨_, hexec, decide_eq_true hmem⟩

def onePush : Invocations Unit Unit String where
  worker _ := ()
  call _ := "push"
  signs _ _ := true

theorem exists_retriedPush : ∃ s : KeyState Unit Unit String,
    (callSystem onePush RejectsUnexecuted).Reachable s ∧ s.phase () = .returned true := by
  let s : KeyState Unit Unit String :=
    { lastUsedNonces := fun _ => 0, phase := fun _ => .idle, sent := fun _ => [],
      chain := { akNonce := 10, executed := [] } }
  let retried : SignedTx String := { call := "push", blockHash := "hash", nonce := 11 }
  have h₀ : (callSystem onePush RejectsUnexecuted).Reachable s :=
    .init ⟨fun _ => rfl, fun _ => rfl, fun _ => rfl, .nil, fun _ h => absurd h List.not_mem_nil⟩
  have h₁ := h₀.step ⟨.start (), trivial, .start rfl⟩
  have h₂ := h₁.step ⟨.view () { nonce := 5, blockHash := "hash" }, trivial, .view rfl (by decide)⟩
  have h₃ := h₂.step ⟨.answer () (.invalidNonce 10),
    fun _ _ _ ⟨_, hexec⟩ => absurd hexec List.not_mem_nil, .answer rfl ⟨rfl, by decide⟩⟩
  have h₄ := h₃.step ⟨.resume (), trivial, .resume rfl⟩
  have hsent : retried ∈ [{ call := "push", blockHash := "hash", nonce := 6 }, retried] := by
    decide
  have h₅ := h₄.step ⟨.deliver () retried true, trivial, .deliver hsent⟩
  have h₆ := h₅.step ⟨.deliver () retried true, trivial, .deliver hsent⟩
  have hexec : (retried, true) ∈ [(retried, true)] := List.mem_singleton_self _
  have h₇ := h₆.step ⟨.answer () (.status true), trivial, .answer rfl hexec⟩
  have h₈ := h₇.step ⟨.resume (), trivial, .resume rfl⟩
  exact ⟨_, h₈, rfl⟩

theorem executed_at_most_once_retriedPush : ∃ s : KeyState Unit Unit String,
    (callSystem onePush RejectsUnexecuted).Reachable s ∧ s.phase () = .returned true ∧
      (s.sent ()).length ≤ 3 ∧ s.executions () = 1 := by
  obtain ⟨s, hreach, hphase⟩ := exists_retriedPush
  obtain ⟨hlen, -, hsuccess⟩ := executed_at_most_once onePush s hreach ()
  exact ⟨s, hreach, hphase, hlen, hsuccess hphase⟩

end NearGit.ServiceWorker
