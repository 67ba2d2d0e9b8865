import Mathlib.Data.List.Induction
import NearGit.Lib.Near

/-! The calls that an account has executed in a run of the chain, in their order, and what holds of
its contract and of the receipts it has sent by way of them. -/

namespace Lib.Near

variable {C D K : Type*}

/-! ## The calls of a receipt -/

def Receipt.callOf (rc : Receipt C D) : Action C D → Option (Context × C)
  | .functionCall call deposit =>
    some ({ signer := rc.signer, predecessor := rc.predecessor, current := rc.receiver, deposit },
      call)
  | _ => none

def Receipt.calls (rc : Receipt C D) : List (Context × C) := rc.actions.filterMap rc.callOf

/-- A run in all of whose states after the first the account is there, and the calls that are
executed on it. -/
inductive Serves (R : Runtime C D K) (a : String) :
    World C D K → List (Context × C) → World C D K → Prop
  | refl {w} : Serves R a w [] w
  | here {w log w' rc w''} : Serves R a w log w' → Executes R w' rc w'' → rc.receiver = a →
      (w''.accounts a).isSome → Serves R a w (log ++ rc.calls) w''
  | elsewhere {w log w' w''} : Serves R a w log w' → Step R w' w'' →
      (∀ rc, rc.receiver = a → ¬ Executes R w' rc w'') → (w''.accounts a).isSome →
      Serves R a w log w''

theorem exists_serves {R : Runtime C D K} {a : String} {w w' : World C D K}
    (h : LivesOn R a w w') : ∃ log, Serves R a w log w' := by
  induction h with
  | refl => exact ⟨[], .refl⟩
  | @tail w' w'' _ hstep ih =>
    obtain ⟨log, hlog⟩ := ih
    by_cases hhere : ∃ rc, rc.receiver = a ∧ Executes R w' rc w''
    · obtain ⟨rc, hreceiver, hexec⟩ := hhere
      exact ⟨_, hlog.here hexec hreceiver hstep.2⟩
    · push Not at hhere
      exact ⟨log, hlog.elsewhere hstep.1 hhere hstep.2⟩

/-! ## Invariants that know the calls -/

/-- After the calls `log` the contract is in `I log`, and the receipts that come from the account
are in `J log`. -/
structure Answers (R : Runtime C D K) (a : String) (I : List (Context × C) → K → Prop)
    (J : List (Context × C) → Receipt C D → Prop) : Prop where
  inv : ∀ {log k ctx call k' promises}, I log k → R.runs k ctx call k' promises →
    I (log ++ [(ctx, call)]) k'
  sent : ∀ {log k ctx call k' promises}, I log k → ctx.current = a →
    R.runs k ctx call k' promises →
    ∀ p ∈ promises, J (log ++ [(ctx, call)]) (p.issue ctx.signer ctx.current)
  mono : ∀ {log rc} c, J log rc → J (log ++ [c]) rc
  refund : ∀ log receiver amount, "system" = a → J log (refund receiver amount)

structure Recorded (a : String) (I : List (Context × C) → K → Prop)
    (J : List (Context × C) → Receipt C D → Prop) (log : List (Context × C)) (w : World C D K) :
    Prop where
  contract : ∀ {acc k}, w.accounts a = some acc → acc.contract = some k → I log k
  pending : ∀ rc ∈ w.pending, rc.predecessor = a → J log rc

structure RecordedIn (a : String) (I : List (Context × C) → K → Prop)
    (J : List (Context × C) → Receipt C D → Prop) (log : List (Context × C))
    (x : Execution C D K) : Prop where
  contract : ∀ {acc k}, x.account = some acc → acc.contract = some k → I log k
  out : ∀ rc ∈ x.out, rc.predecessor = a → J log rc

section Recorded
variable {R : Runtime C D K} {globalContracts : Bytes → Option D} {rc : Receipt C D} {a : String}
  {L : K → Prop} {I : List (Context × C) → K → Prop} {J : List (Context × C) → Receipt C D → Prop}
  {log new : List (Context × C)} {w w' : World C D K} {x y : Execution C D K} {action : Action C D}

theorem Answers.mono_append (h : Answers R a I J) (hrc : J log rc) (new : List (Context × C)) :
    J (log ++ new) rc := by
  induction new using List.reverseRecOn with
  | nil => rwa [List.append_nil]
  | append_singleton new c ih =>
    rw [← List.append_assoc]
    exact h.mono c ih

theorem Sealed.start (h : Sealed a L w) (hreceiver : rc.receiver = a) :
    SealedIn rc a L (w.start rc) := by
  obtain ⟨acc, hacc, hlocked⟩ := h.account
  have hstart : (w.start rc).account = some acc := (congrArg w.accounts hreceiver).trans hacc
  refine ⟨?_, rfl, ?_, nofun⟩
  · intro acc' hacc'
    obtain rfl : acc = acc' := Option.some.inj (hstart.symm.trans hacc')
    exact hlocked
  · intro hnone
    exact absurd (hstart.symm.trans hnone) (Option.some_ne_none acc)

theorem World.settle_receiver (hreceiver : rc.receiver = a) (rest : List (Receipt C D)) :
    (w.settle rc rest x).accounts a = x.account := by
  rw [← hreceiver]
  exact Function.update_self ..

theorem SealedIn.plain (hreceiver : rc.receiver = a) (hplain : rc.PlainOn a)
    (hx : SealedIn rc a L x) (haction : action ∈ rc.actions)
    (h : RunsAction R globalContracts rc x action y) : action.Plain := by
  by_contra hnot
  have hother : rc.predecessor ≠ a := fun hpred =>
    hnot (hplain hpred hreceiver action haction)
  cases h with
  | createAccount hnone _ => exact hother (hx.gone hnone)
  | addKey _ hactor => exact hother (hx.actor.symm.trans (hactor.trans hreceiver))
  | deployContract _ hactor _ => exact hother (hx.actor.symm.trans (hactor.trans hreceiver))
  | useGlobalContract _ hactor _ _ =>
    exact hother (hx.actor.symm.trans (hactor.trans hreceiver))
  | transfer | functionCall | deleteAccount => exact hnot trivial

theorem RecordedIn.step (hanswers : Answers R a I J) (hreceiver : rc.receiver = a)
    (hplain : action.Plain) (hx : RecordedIn a I J log x)
    (h : RunsAction R globalContracts rc x action y) :
    RecordedIn a I J (log ++ (rc.callOf action).toList) y := by
  cases h with
  | createAccount | addKey | deployContract | useGlobalContract => exact hplain.elim
  | transfer hacc =>
    show RecordedIn a I J (log ++ []) _
    rw [List.append_nil]
    refine ⟨?_, hx.out⟩
    rintro _ k ⟨⟩ hk
    exact hx.contract hacc hk
  | functionCall hacc hk hruns _ =>
    constructor
    · rintro _ k ⟨⟩ ⟨⟩
      exact hanswers.inv (hx.contract hacc hk) hruns
    · intro rc' hrc' hpred
      rcases List.mem_append.mp hrc' with hold | hnew
      · exact hanswers.mono _ (hx.out rc' hold hpred)
      · obtain ⟨p, hp, rfl⟩ := List.mem_map.mp hnew
        exact hanswers.sent (hx.contract hacc hk) hreceiver hruns p hp
  | deleteAccount _ _ _ =>
    show RecordedIn a I J (log ++ []) _
    rw [List.append_nil]
    constructor
    · rintro _ _ ⟨⟩
    · intro rc' hrc' hpred
      rcases List.mem_append.mp hrc' with hold | hnew
      · exact hx.out rc' hold hpred
      · rw [List.mem_singleton.mp hnew] at hpred ⊢
        exact hanswers.refund _ _ _ hpred

theorem RecordedIn.run (hkeeps : Keeps R a L) (hanswers : Answers R a I J)
    (hreceiver : rc.receiver = a) (hplain : rc.PlainOn a) {actions : List (Action C D)}
    (hsealed : SealedIn rc a L x) (hx : RecordedIn a I J log x)
    (h : RunsActions R globalContracts rc x actions y) (hactions : actions ⊆ rc.actions) :
    RecordedIn a I J (log ++ actions.filterMap rc.callOf) y := by
  induction h generalizing log with
  | nil => rwa [List.filterMap_nil, List.append_nil]
  | @cons x y z action actions haction _ ih =>
    have hmem : action ∈ rc.actions := hactions List.mem_cons_self
    have hy := hx.step hanswers hreceiver (hsealed.plain hreceiver hplain hmem haction) haction
    have hz := ih (hsealed.step hkeeps hreceiver hplain hmem haction) hy
      fun _ h' => hactions (List.mem_cons_of_mem _ h')
    have hcalls : (action :: actions).filterMap rc.callOf =
        (rc.callOf action).toList ++ actions.filterMap rc.callOf := by
      rw [List.filterMap_cons]
      cases rc.callOf action <;> rfl
    rwa [hcalls, ← List.append_assoc]

theorem RunsAction.out_cases {P : Receipt C D → Prop}
    (hsent : ∀ rc' : Receipt C D, rc'.predecessor = rc.receiver → P rc')
    (hrefund : ∀ receiver amount, P (refund receiver amount))
    (h : RunsAction R globalContracts rc x action y) (hx : ∀ rc' ∈ x.out, P rc') :
    ∀ rc' ∈ y.out, P rc' := by
  cases h with
  | functionCall =>
    refine List.forall_mem_append.mpr ⟨hx, List.forall_mem_map.mpr fun p _ => ?_⟩
    exact hsent _ rfl
  | deleteAccount =>
    exact List.forall_mem_append.mpr ⟨hx, List.forall_mem_singleton.mpr (hrefund _ _)⟩
  | createAccount | addKey | transfer | deployContract | useGlobalContract => exact hx

theorem RunsActions.out_cases {P : Receipt C D → Prop}
    (hsent : ∀ rc' : Receipt C D, rc'.predecessor = rc.receiver → P rc')
    (hrefund : ∀ receiver amount, P (refund receiver amount)) {actions : List (Action C D)}
    (h : RunsActions R globalContracts rc x actions y) (hx : ∀ rc' ∈ x.out, P rc') :
    ∀ rc' ∈ y.out, P rc' := by
  induction h with
  | nil => exact hx
  | cons haction _ ih => exact ih (haction.out_cases hsent hrefund hx)

theorem Recorded.here (hkeeps : Keeps R a L) (hanswers : Answers R a I J) (hsealed : Sealed a L w)
    (h : Recorded a I J log w) (hw : Executes R w rc w') (hreceiver : rc.receiver = a) :
    Recorded a I J (log ++ rc.calls) w' := by
  obtain @⟨before, after, x, hpending, hruns⟩ := hw
  have hrc : rc.PlainOn a := hsealed.pending rc (by simp [hpending])
  have hstart' : RecordedIn a I J log (w.start rc) := by
    refine ⟨?_, nofun⟩
    intro acc' k hacc'
    exact h.contract ((congrArg w.accounts hreceiver).symm.trans hacc')
  have hx : RecordedIn a I J (log ++ rc.calls) x :=
    hstart'.run hkeeps hanswers hreceiver hrc (hsealed.start hreceiver) hruns (List.Subset.refl _)
  have hat := World.settle_receiver (w := w) (x := x) hreceiver (before ++ after)
  constructor
  · intro acc' k hacc'
    exact hx.contract (hat.symm.trans hacc')
  · intro rc' hrc' hpred
    rcases List.mem_append.mp hrc' with hrest | hout
    · exact hanswers.mono_append (h.pending rc' (mem_of_mem_rest hpending hrest) hpred) _
    · exact hx.out rc' hout hpred

theorem Recorded.elsewhere (hanswers : Answers R a I J) (hsealed : Sealed a L w)
    (h : Recorded a I J log w) (hw : Step R w w')
    (helsewhere : ∀ rc, rc.receiver = a → ¬ Executes R w rc w') : Recorded a I J log w' := by
  cases hw with
  | @transact sender receiver sacc actions hsender hkey _ =>
    obtain ⟨acc, hacc, hlocked⟩ := hsealed.account
    have hne : sender ≠ a := by
      rintro rfl
      obtain rfl : acc = sacc := Option.some.inj (hacc.symm.trans hsender)
      exact absurd (hkey.symm.trans hlocked.1) nofun
    constructor
    · intro acc' k hacc'
      exact h.contract ((Function.update_of_ne (Ne.symm hne) ..).symm.trans hacc')
    · refine List.forall_mem_append.mpr ⟨h.pending, List.forall_mem_singleton.mpr fun hpred => ?_⟩
      exact absurd hpred hne
  | execute hex =>
    have hne := fun hreceiver => helsewhere _ hreceiver hex
    obtain @⟨before, after, x, hpending, hruns⟩ := hex
    constructor
    · intro acc' k hacc'
      exact h.contract ((Function.update_of_ne (Ne.symm hne) ..).symm.trans hacc')
    · have hout : ∀ rc' ∈ x.out, rc'.predecessor = a → J log rc' := by
        refine hruns.out_cases (P := fun rc' => rc'.predecessor = a → J log rc') ?_ ?_ nofun
        · exact fun rc' hfrom hpred => absurd (hfrom.symm.trans hpred) hne
        · exact fun receiver amount hpred => hanswers.refund _ _ _ hpred
      refine List.forall_mem_append.mpr ⟨fun rc' hrc' => ?_, hout⟩
      exact h.pending rc' (mem_of_mem_rest hpending hrc')
  | @fail rc before after hpending =>
    refine ⟨h.contract, List.forall_mem_append.mpr ⟨fun rc' hrc' => ?_,
      List.forall_mem_singleton.mpr fun hpred => hanswers.refund _ _ _ hpred⟩⟩
    exact h.pending rc' (mem_of_mem_rest hpending hrc')
  | deployGlobal _ => exact ⟨h.contract, h.pending⟩

theorem Recorded.serves (hkeeps : Keeps R a L) (hanswers : Answers R a I J) (hsealed : Sealed a L w)
    (h : Recorded a I J log w) (hw : Serves R a w new w') :
    Sealed a L w' ∧ Recorded a I J (log ++ new) w' := by
  induction hw with
  | refl =>
    rw [List.append_nil]
    exact ⟨hsealed, h⟩
  | here _ hexec hreceiver hlives ih =>
    obtain ⟨hsealed', h'⟩ := ih
    rw [← List.append_assoc]
    exact ⟨hsealed'.executes hkeeps hexec hlives,
      h'.here hkeeps hanswers hsealed' hexec hreceiver⟩
  | elsewhere _ hstep helsewhere hlives ih =>
    obtain ⟨hsealed', h'⟩ := ih
    exact ⟨hsealed'.step hkeeps hstep hlives, h'.elsewhere hanswers hsealed' hstep helsewhere⟩

theorem Sealed.predecessor_of_gone (hkeeps : Keeps R a L) (h : Sealed a L w)
    (hw : Executes R w rc w') (hreceiver : rc.receiver = a) (hgone : w'.accounts a = none) :
    rc.predecessor = a := by
  obtain @⟨before, after, x, hpending, hruns⟩ := hw
  have hrc : rc.PlainOn a := h.pending rc (by simp [hpending])
  have hx := (h.start hreceiver).run hkeeps hreceiver hrc hruns (List.Subset.refl _)
  exact hx.gone ((World.settle_receiver hreceiver _).symm.trans hgone)

theorem exists_executes_of_gone (hw : Step R w w') (hthere : (w.accounts a).isSome)
    (hgone : w'.accounts a = none) : ∃ rc, rc.receiver = a ∧ Executes R w rc w' := by
  have hnever {P : Prop} (hsame : w.accounts a = none) : P := by
    rw [hsame] at hthere
    cases hthere
  cases hw with
  | @transact sender receiver acc actions hsender _ _ =>
    by_cases hne : a = sender
    · subst hne
      exact absurd ((Function.update_self ..).symm.trans hgone) (Option.some_ne_none _)
    · exact hnever ((Function.update_of_ne hne ..).symm.trans hgone)
  | execute hex =>
    refine ⟨_, ?_, hex⟩
    by_contra hne
    obtain ⟨-, -⟩ := hex
    exact hnever ((Function.update_of_ne (Ne.symm hne) ..).symm.trans hgone)
  | fail => exact hnever hgone
  | deployGlobal => exact hnever hgone

end Recorded

end Lib.Near
