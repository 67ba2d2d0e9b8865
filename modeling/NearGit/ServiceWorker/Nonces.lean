import NearGit.ServiceWorker.FunctionCall

/-! The nonces that one service worker signs with. A first attempt reserves a nonce above all that
the worker has used; a retry goes by the chain alone. -/

namespace NearGit.ServiceWorker
open Lib

variable {ω ι α : Type*} [DecidableEq ω] [DecidableEq ι] {calls : Invocations ω ι α}

/-- A retry finds that no nonce above `ak_nonce` is in use, and the numbers stay exact. -/
def RetriesAboveUsed (calls : Invocations ω ι α) (s : KeyState ω ι α) : Action ι α → Prop
  | .view i view =>
    max view.nonce (s.lastUsedNonces (calls.worker i)) < Number.maxExact
  | .resume i => ∀ attempt tx akNonce, s.phase i = .answered attempt tx (.invalidNonce akNonce) →
      attempt < 2 → s.lastUsedNonces (calls.worker i) ≤ akNonce ∧ akNonce < Number.maxExact
  | _ => True

omit [DecidableEq ω] [DecidableEq ι] in
theorem retriesAboveUsed_resume {s : KeyState ω ι α} {i : ι} {attempt akNonce : ℕ} {tx : SignedTx α}
    (hphase : s.phase i = .answered attempt tx (.invalidNonce akNonce))
    (hused : s.lastUsedNonces (calls.worker i) ≤ akNonce) (hak : akNonce < Number.maxExact) :
    RetriesAboveUsed calls s (.resume i) := by
  intro attempt' tx' akNonce' hphase' _
  rw [hphase, Phase.answered.injEq, BroadcastAnswer.invalidNonce.injEq] at hphase'
  obtain ⟨-, -, rfl⟩ := hphase'
  exact ⟨hused, hak⟩

theorem freshNonce_of_lt {viewed lastUsed : ℕ} (h : max viewed lastUsed < Number.maxExact) :
    freshNonce viewed lastUsed = max viewed lastUsed + 1 := by
  have hviewed : viewed ≤ Number.maxExact := (le_max_left ..).trans h.le
  rw [freshNonce, Number.round_of_le hviewed, Number.add_of_le h]

theorem retryNonce_of_lt {akNonce : ℕ} (h : akNonce < Number.maxExact) :
    retryNonce akNonce = akNonce + 1 := by
  rw [retryNonce, Number.round_of_le h.le, Number.add_of_le h]

theorem nonce_of_mem_signAndBroadcast {signs : α → String → Bool} {call : α}
    {blockHash : String} {attempt txNonce : ℕ} (h : txNonce ≤ Number.maxExact) {t : SignedTx α}
    (ht : t ∈ (signAndBroadcast signs call blockHash attempt txNonce).signed) :
    t.nonce = txNonce := by
  have hlt : txNonce < 2 ^ 64 := h.trans_lt (by decide)
  unfold signAndBroadcast at ht
  split_ifs at ht
  · rw [List.mem_singleton.mp ht]
    exact Nat.mod_eq_of_lt hlt
  · exact absurd ht List.not_mem_nil

structure NoncesReserved (calls : Invocations ω ι α) (s : KeyState ω ι α) : Prop where
  le_lastUsed : ∀ i, ∀ t ∈ s.sent i, t.nonce ≤ s.lastUsedNonces (calls.worker i)
  increasing : ∀ i, (s.sent i).Pairwise fun t u => t.nonce < u.nonce
  notShared : ∀ i j, calls.worker i = calls.worker j → i ≠ j →
    ∀ t ∈ s.sent i, ∀ u ∈ s.sent j, t.nonce ≠ u.nonce

theorem NoncesReserved.proceed {s : KeyState ω ι α} (h : NoncesReserved calls s) (i : ι)
    {next : ℕ × Phase α} (hle : s.lastUsedNonces (calls.worker i) ≤ next.1)
    (hsigned : ∀ t ∈ next.2.signed,
      t.nonce = next.1 ∧ s.lastUsedNonces (calls.worker i) < next.1) :
    NoncesReserved calls (s.proceed (calls.worker i) i next) := by
  have hnew {j : ι} (hj : calls.worker j = calls.worker i) {t u : SignedTx α}
      (ht : t ∈ s.sent j) (hu : u ∈ next.2.signed) : t.nonce < u.nonce := by
    obtain ⟨hnonce, hlt⟩ := hsigned u hu
    calc t.nonce ≤ s.lastUsedNonces (calls.worker i) := hj ▸ h.le_lastUsed j t ht
      _ < next.1 := hlt
      _ = u.nonce := hnonce.symm
  have hsent {j : ι} {t : SignedTx α} (ht : t ∈ (s.proceed (calls.worker i) i next).sent j) :
      t ∈ s.sent j ∨ j = i ∧ t ∈ next.2.signed := by
    rcases eq_or_ne j i with rfl | hne
    · have ht : t ∈ s.sent j ++ next.2.signed := by simpa [KeyState.proceed] using ht
      exact (List.mem_append.mp ht).imp_right fun ht => ⟨rfl, ht⟩
    · exact .inl (by simpa [KeyState.proceed, hne] using ht)
  refine ⟨fun j t ht => ?_, fun j => ?_, fun j k hworker hne t ht u hu => ?_⟩
  · have hgrow : s.lastUsedNonces (calls.worker j) ≤
        (s.proceed (calls.worker i) i next).lastUsedNonces (calls.worker j) := by
      rcases eq_or_ne (calls.worker j) (calls.worker i) with heq | hne
      · simpa [KeyState.proceed, heq] using hle
      · simp [KeyState.proceed, hne]
    rcases hsent ht with hold | ⟨rfl, hadded⟩
    · exact (h.le_lastUsed j t hold).trans hgrow
    · simp [KeyState.proceed, (hsigned t hadded).1]
  · rcases eq_or_ne j i with rfl | hne
    · have hpair : (s.sent j ++ next.2.signed).Pairwise fun t u => t.nonce < u.nonce := by
        refine List.pairwise_append.mpr ⟨h.increasing j, ?_, fun t ht u hu => hnew rfl ht hu⟩
        unfold Phase.signed
        split <;> simp
      simpa [KeyState.proceed] using hpair
    · simpa [KeyState.proceed, hne] using h.increasing j
  · rcases hsent ht with hold | ⟨rfl, hadded⟩ <;> rcases hsent hu with hold' | ⟨rfl, hadded'⟩
    · exact h.notShared j k hworker hne t hold u hold'
    · exact (hnew hworker hold hadded').ne
    · exact (hnew hworker.symm hold' hadded).ne'
    · exact absurd rfl hne

theorem NoncesReserved.step {s s' : KeyState ω ι α} {a : Action ι α} (h : NoncesReserved calls s)
    (hretries : RetriesAboveUsed calls s a) (hstep : Step calls s a s') :
    NoncesReserved calls s' := by
  cases hstep with
  | start _ => exact ⟨h.le_lastUsed, h.increasing, h.notShared⟩
  | viewFailed _ => exact ⟨h.le_lastUsed, h.increasing, h.notShared⟩
  | deliver _ => exact ⟨h.le_lastUsed, h.increasing, h.notShared⟩
  | answer _ _ => exact ⟨h.le_lastUsed, h.increasing, h.notShared⟩
  | other => exact ⟨h.le_lastUsed, h.increasing, h.notShared⟩
  | @view i view _ _ =>
    have hfresh := freshNonce_of_lt hretries
    have hlt : s.lastUsedNonces (calls.worker i) <
        freshNonce view.nonce (s.lastUsedNonces (calls.worker i)) := by
      rw [hfresh]
      exact Nat.lt_succ_of_le (le_max_right ..)
    have hexact : freshNonce view.nonce (s.lastUsedNonces (calls.worker i)) ≤ Number.maxExact := by
      rw [hfresh]
      exact hretries
    exact h.proceed i hlt.le fun t ht => ⟨nonce_of_mem_signAndBroadcast hexact ht, hlt⟩
  | @resume i attempt tx answer hphase =>
    cases answer with
    | invalidNonce akNonce =>
      unfold afterBroadcast
      split_ifs with hattempt
      · obtain ⟨hused, hak⟩ := hretries attempt tx akNonce hphase hattempt
        have hretry := retryNonce_of_lt hak
        have hlt : s.lastUsedNonces (calls.worker i) < retryNonce akNonce := by
          rw [hretry]
          exact Nat.lt_succ_of_le hused
        have hexact : retryNonce akNonce ≤ Number.maxExact := by
          rw [hretry]
          exact hak
        exact h.proceed i hlt.le fun t ht => ⟨nonce_of_mem_signAndBroadcast hexact ht, hlt⟩
      · exact h.proceed i le_rfl fun t ht => absurd ht List.not_mem_nil
    | error => exact h.proceed i le_rfl fun t ht => absurd ht List.not_mem_nil
    | status success => exact h.proceed i le_rfl fun t ht => absurd ht List.not_mem_nil
    | threw => exact h.proceed i le_rfl fun t ht => absurd ht List.not_mem_nil

theorem noncesReserved {s : KeyState ω ι α}
    (h : (callSystem calls (RetriesAboveUsed calls)).Reachable s) : NoncesReserved calls s := by
  refine h.invariant ?_ ?_
  · rintro s ⟨-, -, hsent, -⟩
    refine ⟨fun i t ht => ?_, fun i => ?_, fun i _ _ _ t ht => ?_⟩
    · exact absurd (hsent i ▸ ht) List.not_mem_nil
    · rw [hsent]
      exact .nil
    · exact absurd (hsent i ▸ ht) List.not_mem_nil
  · rintro s s' hs ⟨a, hretries, hstep⟩
    exact hs.step hretries hstep

/-- Two invocations in one worker send no nonce twice, as long as no retry falls back behind a
nonce that is in use. -/
theorem nonces_not_shared (calls : Invocations ω ι α) (s : KeyState ω ι α)
    (h : (callSystem calls (RetriesAboveUsed calls)).Reachable s) (i j : ι)
    (hworker : calls.worker i = calls.worker j) (hne : i ≠ j) :
    ∀ t ∈ s.sent i, ∀ u ∈ s.sent j, t.nonce ≠ u.nonce :=
  (noncesReserved h).notShared i j hworker hne

/-! ## Two calls that meet in a retry -/

def twoCalls : Invocations Unit Bool String where
  worker _ := ()
  call i := if i then "push" else "clear_storage"
  signs _ _ := true

def keyAtTen : KeyState Unit Bool String where
  lastUsedNonces _ := 0
  phase _ := .idle
  sent _ := []
  chain := { akNonce := 10, executed := [] }

def staleView : AccessKeyView where
  nonce := 5
  blockHash := "hash"

theorem keyAtTen_init (P : KeyState Unit Bool String → Action Bool String → Prop) :
    keyAtTen ∈ (callSystem twoCalls P).init :=
  ⟨fun _ => rfl, fun _ => rfl, fun _ => rfl, .nil, fun _ h => absurd h List.not_mem_nil⟩

theorem exists_bothBroadcast {P : KeyState Unit Bool String → Action Bool String → Prop}
    (hstart : ∀ s i, P s (.start i))
    (hview : ∀ s, s.lastUsedNonces () ≤ 10 → ∀ i, P s (.view i staleView)) :
    ∃ s, (callSystem twoCalls P).Reachable s ∧
      s.phase false = .broadcasting 0 { call := "clear_storage", blockHash := "hash", nonce := 6 } ∧
      s.phase true = .broadcasting 0 { call := "push", blockHash := "hash", nonce := 7 } ∧
      s.sent false = [{ call := "clear_storage", blockHash := "hash", nonce := 6 }] ∧
      s.sent true = [{ call := "push", blockHash := "hash", nonce := 7 }] ∧
      s.chain.akNonce = 10 ∧ s.lastUsedNonces () = 7 := by
  have h₀ := System.Reachable.init (keyAtTen_init P)
  have h₁ := h₀.step ⟨.start false, hstart _ _, .start rfl⟩
  have h₂ := h₁.step ⟨.start true, hstart _ _, .start rfl⟩
  have h₃ := h₂.step ⟨.view false staleView, hview _ (by decide) _, .view rfl (by decide)⟩
  have h₄ := h₃.step ⟨.view true staleView, hview _ (by decide) _, .view rfl (by decide)⟩
  exact ⟨_, h₄, rfl, rfl, rfl, rfl, rfl, rfl⟩

def RejectsExactly (s : KeyState ω ι α) : Action ι α → Prop
  | .answer i answer => ∀ attempt tx, s.phase i = .broadcasting attempt tx → ¬ s.chain.Executed tx →
      ((∃ akNonce, answer = .invalidNonce akNonce) ↔ tx.nonce ≤ s.chain.akNonce)
  | _ => True

/-- Both calls are rejected with the nonce of the key, and both retry with the next one. -/
theorem retries_share_nonce : ∃ s : KeyState Unit Bool String,
    (callSystem twoCalls RejectsExactly).Reachable s ∧
      twoCalls.worker false = twoCalls.worker true ∧
      ∃ t ∈ s.sent false, ∃ u ∈ s.sent true, t.nonce = u.nonce := by
  obtain ⟨s, hreach, hfalse, htrue, -, -, hak, -⟩ :=
    exists_bothBroadcast (P := RejectsExactly) (fun _ _ => trivial) (fun _ _ _ => trivial)
  have hrejected {s : KeyState Unit Bool String} {i : Bool} {tx : SignedTx String}
      (hphase : s.phase i = .broadcasting 0 tx) (hle : tx.nonce ≤ s.chain.akNonce) :
      RejectsExactly s (.answer i (.invalidNonce 10)) := by
    intro attempt tx' hphase' _
    rw [hphase, Phase.broadcasting.injEq] at hphase'
    exact iff_of_true ⟨10, rfl⟩ (hphase'.2 ▸ hle)
  have h₁ := hreach.step ⟨.answer false (.invalidNonce 10), hrejected hfalse (by simp [hak]),
    .answer hfalse ⟨hak.symm, by simp [hak]⟩⟩
  have h₂ := h₁.step ⟨.answer true (.invalidNonce 10), hrejected htrue (by simp [hak]),
    .answer htrue ⟨hak.symm, by simp [hak]⟩⟩
  have h₃ := h₂.step ⟨.resume false, trivial, .resume rfl⟩
  have h₄ := h₃.step ⟨.resume true, trivial, .resume rfl⟩
  refine ⟨_, h₄, rfl, { call := "clear_storage", blockHash := "hash", nonce := 11 }, ?_,
    { call := "push", blockHash := "hash", nonce := 11 }, ?_, rfl⟩
  · exact List.mem_append_right (s.sent false) (List.mem_singleton_self _)
  · exact List.mem_append_right (s.sent true) (List.mem_singleton_self _)

/-- The first call is rejected, and retries while nothing above the nonce of the key is in use. -/
theorem nonces_not_shared_bothBroadcast : ∃ s : KeyState Unit Bool String,
    (callSystem twoCalls (RetriesAboveUsed twoCalls)).Reachable s ∧
      (s.sent false).map SignedTx.nonce = [6, 11] ∧ (s.sent true).map SignedTx.nonce = [7] ∧
      ∀ t ∈ s.sent false, ∀ u ∈ s.sent true, t.nonce ≠ u.nonce := by
  have hview (s : KeyState Unit Bool String) (hle : s.lastUsedNonces () ≤ 10) (i : Bool) :
      RetriesAboveUsed twoCalls s (.view i staleView) :=
    max_lt (by decide) (hle.trans_lt (by decide))
  obtain ⟨s, hreach, hphase, -, hfalse, htrue, hak, hused⟩ :=
    exists_bothBroadcast (P := RetriesAboveUsed twoCalls) (fun _ _ => trivial) hview
  have h₁ := hreach.step ⟨.answer false (.invalidNonce 10), trivial,
    .answer hphase ⟨hak.symm, by simp [hak]⟩⟩
  have h₂ := h₁.step ⟨.resume false,
    retriesAboveUsed_resume rfl (hused.le.trans (by decide)) (by decide), .resume rfl⟩
  refine ⟨_, h₂, ?_, ?_, nonces_not_shared twoCalls _ h₂ false true rfl (by decide)⟩
  · let retried : SignedTx String := { call := "clear_storage", blockHash := "hash", nonce := 11 }
    show (s.sent false ++ [retried]).map SignedTx.nonce = [6, 11]
    rw [hfalse]
    rfl
  · show (s.sent true).map SignedTx.nonce = [7]
    rw [htrue]
    rfl

end NearGit.ServiceWorker
