import NearGit.Contract.Repo

/-! Runs of the contract: its state is the log and the ref fold of the accepted calls, and the
history of every ref is a chain of compare-and-swaps. -/

namespace NearGit.Contract
open Lib

def stateAfter (owner : String) (txs : List Tx) : GitStorage :=
  Guarded.run GitStorage.exec (GitStorage.new owner) txs

theorem stateAfter_push {owner predecessor : String} {packData : Bytes}
    {refUpdates : List RefUpdate} {s : GitStorage}
    (h : (GitStorage.new owner).push predecessor packData refUpdates = .ok s) :
    stateAfter owner [{ predecessor, call := .push packData refUpdates }] = s := by
  have hexec : (GitStorage.new owner).exec
      { predecessor, call := .push packData refUpdates } = .ok s := h
  rw [stateAfter, Guarded.run_cons, Guarded.run_nil, Guarded.step_of_ok hexec]

def acceptedTxs (owner : String) (txs : List Tx) : List Tx :=
  Guarded.accepted GitStorage.exec (GitStorage.new owner) txs

def recentTxs (owner : String) (txs : List Tx) : List Tx := sinceClear (acceptedTxs owner txs)

/-- The contract in `s` has accepted exactly `txs` since it was set up for `owner`. -/
structure Tracks (owner : String) (s : GitStorage) (txs : List Tx) (r : Repo) : Prop where
  represents : s.Represents r
  owner_eq : s.owner = owner
  log : r.log = packLog (sinceClear txs)
  events : CasMap.applyAll (fun _ => none) (eventLog txs) = some r.refs
  recent : CasMap.applyAll (fun _ => none) (eventLog (sinceClear txs)) = some r.refs
  callers : ∀ tx ∈ txs, tx.call.Mutates → tx.predecessor = owner

theorem eventLog_append (txs txs' : List Tx) :
    eventLog (txs ++ txs') = eventLog txs ++ eventLog txs' := List.flatMap_append

theorem applyAll_eventLog_concat {refs : String → Option String} {txs : List Tx} (tx : Tx)
    (h : CasMap.applyAll (fun _ => none) (eventLog txs) = some refs) :
    CasMap.applyAll (fun _ => none) (eventLog (txs ++ [tx])) =
      CasMap.applyAll refs tx.call.events := by
  rw [eventLog_append, CasMap.applyAll_append, h, Option.bind_some]
  simp [eventLog]

theorem Tracks.step {owner : String} {s s' : GitStorage} {txs : List Tx} {r : Repo} {tx : Tx}
    (h : Tracks owner s txs r) (hexec : s.exec tx = .ok s') :
    ∃ r', Tracks owner s' (txs ++ [tx]) r' := by
  obtain ⟨⟨r', hr', hrep⟩, howner, hcaller⟩ := exec_represents h.represents hexec
  simp only [Repo.exec, Option.bind_eq_bind, Option.bind_eq_some_iff, Option.pure_def,
    Option.some.injEq] at hr'
  obtain ⟨refs, hrefs, rfl⟩ := hr'
  refine ⟨_, hrep, howner.trans h.owner_eq, ?_, ?_, ?_, ?_⟩
  · rw [sinceClear_concat]
    split_ifs with hclear
    · rfl
    · simp [h.log, packLog]
  · rw [applyAll_eventLog_concat tx h.events, hrefs]
  · rw [sinceClear_concat]
    split_ifs with hclear
    · -- a clear starts the recent history over
      rw [hclear, Call.events, CasMap.applyAll] at hrefs
      exact hrefs
    · rw [applyAll_eventLog_concat tx h.recent, hrefs]
  · intro tx' htx' hm
    rcases List.mem_append.mp htx' with htx' | htx'
    · exact h.callers tx' htx' hm
    · rw [List.mem_singleton.mp htx'] at hm ⊢
      rw [hcaller hm, h.owner_eq]

theorem exists_tracks (owner : String) (txs : List Tx) :
    ∃ r, Tracks owner (stateAfter owner txs) (acceptedTxs owner txs) r := by
  refine Guarded.run_induction (P := fun s txs => ∃ r, Tracks owner s txs r) ?_ ?_ txs
  · exact ⟨.empty, represents_new owner, rfl, rfl, rfl, rfl, by simp⟩
  · rintro s txs tx s' ⟨r, h⟩ hexec
    exact h.step hexec

section Tracks
variable {owner : String} {s : GitStorage} {txs : List Tx} {r : Repo}

theorem Tracks.refs_eq (h : Tracks owner s txs r) : r.refs = foldRefs (refLog (sinceClear txs)) := by
  have hrecent := h.recent
  rw [eventLog_sinceClear, ← Function.comp_def, ← List.map_map] at hrecent
  rw [CasMap.applyAll_map_update hrecent, List.foldl_map]
  rfl

theorem exec_of_ne_owner {tx : Tx} (h : tx.predecessor ≠ s.owner) :
    Guarded.step GitStorage.exec s tx = s := by
  obtain ⟨predecessor, call⟩ := tx
  have hassert : s.assertOwner predecessor = .error .notOwner := if_neg h
  cases call with
  | push packData us =>
    have hexec : s.push predecessor packData us = .error .notOwner := by
      rw [GitStorage.push, hassert]
      rfl
    exact Guarded.step_of_error hexec
  | clearStorage =>
    have hexec : s.clearStorage predecessor = .error .notOwner := by
      rw [GitStorage.clearStorage, hassert]
      rfl
    exact Guarded.step_of_error hexec
  | getRefs | getPackCount | getPacks _ | getOwner => rfl

theorem Tracks.step_clearStorage (h : Tracks owner s txs r) :
    Guarded.step GitStorage.exec s { predecessor := owner, call := .clearStorage } =
      GitStorage.new owner := by
  have hok := GitStorage.clearStorage_eq_ok.mpr ⟨h.owner_eq.symm, rfl⟩
  have hexec : s.exec { predecessor := owner, call := .clearStorage } = .ok _ := hok
  rw [Guarded.step_of_ok hexec, clearStorage_eq_new h.represents hok, h.owner_eq]

theorem Tracks.chain (h : Tracks owner s txs r) (name : String) :
    let updates := ((refLog (sinceClear txs)).filter fun u => u.name = name).map
      RefUpdate.toUpdate
    CasMap.IsChain none updates ∧ r.refs name = CasMap.lastValue none updates := by
  have hclear : CasMap.Event.clear ∉ eventLog (sinceClear txs) := by
    rw [eventLog_sinceClear]
    simp
  have hupdates : CasMap.updatesOf name (eventLog (sinceClear txs)) =
      ((refLog (sinceClear txs)).filter fun u => u.name = name).map RefUpdate.toUpdate := by
    rw [eventLog_sinceClear, CasMap.updatesOf, List.filterMap_map, ← List.filterMap_eq_map,
      List.filterMap_filter]
    refine List.filterMap_congr fun u _ => ?_
    simp [RefUpdate.toUpdate]
  have hchain := CasMap.applyAll_chain h.recent hclear name
  rw [hupdates] at hchain
  exact hchain

end Tracks

/-! ## Runs that go on -/

theorem acceptedTxs_append (owner : String) (txs txs' : List Tx) :
    acceptedTxs owner (txs ++ txs') =
      acceptedTxs owner txs ++ Guarded.accepted GitStorage.exec (stateAfter owner txs) txs' :=
  Guarded.accepted_append ..

theorem isPrefix_getPacks (owner : String) (txs txs' : List Tx)
    (h : ∀ tx ∈ Guarded.accepted GitStorage.exec (stateAfter owner txs) txs',
      tx.call ≠ .clearStorage) :
    (stateAfter owner txs).getPacks 0 <+: (stateAfter owner (txs ++ txs')).getPacks 0 := by
  obtain ⟨r, htracks⟩ := exists_tracks owner txs
  obtain ⟨r', htracks'⟩ := exists_tracks owner (txs ++ txs')
  rw [htracks.represents.getPacks, htracks'.represents.getPacks, htracks.log, htracks'.log,
    acceptedTxs_append, sinceClear_append_of_ne _ h, packLog, packLog, List.flatMap_append]
  exact List.prefix_append ..

theorem exists_written {owner caller : String} {txs : List Tx} {packData : Bytes}
    {l r : List RefUpdate} {u : RefUpdate} {s' : GitStorage}
    (h : (stateAfter owner txs).push caller packData (l ++ u :: r) = .ok s') {old : String}
    (hold : u.oldSha = some old) :
    ∃ x ∈ refLog (recentTxs owner txs) ++ l, x.name = u.name ∧ x.newSha = old := by
  obtain ⟨repo, htracks⟩ := exists_tracks owner txs
  have hexec : (stateAfter owner txs).exec
      { predecessor := caller, call := .push packData (l ++ u :: r) } = .ok s' := h
  obtain ⟨⟨repo', hstep, -⟩, -⟩ := exec_represents htracks.represents hexec
  obtain ⟨refs, hrefs, -⟩ := Repo.exec_push.mp hstep
  let f : RefUpdate → CasMap.Event String String := fun u => .update u.toUpdate
  have hall : CasMap.applyAll (fun _ => none)
      ((eventLog (recentTxs owner txs) ++ l.map f) ++ f u :: r.map f) = some refs := by
    rw [List.append_assoc, CasMap.applyAll_append, recentTxs, htracks.recent, Option.bind_some,
      ← List.map_cons, ← List.map_append]
    exact hrefs
  rcases CasMap.applyAll_expected hall hold with hnone | ⟨x, hx, hkey, hvalue⟩
  · cases hnone
  · rcases List.mem_append.mp hx with hx | hx
    · obtain ⟨y, hy, rfl⟩ := update_mem_eventLog.mp hx
      exact ⟨y, List.mem_append_left _ hy, hkey, hvalue⟩
    · obtain ⟨y, hy, rfl⟩ := update_mem_map.mp hx
      exact ⟨y, List.mem_append_right _ hy, hkey, hvalue⟩

/-- The contract is an append-only pack log and a ref map. The packs have the keys below the
count; the views show the packs and ref updates of the accepted calls since the last accepted
`clear_storage`; calls by others and refused calls change nothing; and a cleared contract is a
new one. -/
theorem contract_refines_log (owner : String) (txs : List Tx) :
    (∀ i, i ∈ (stateAfter owner txs).packs ↔ i < (stateAfter owner txs).packCount) ∧
    (∀ i, (stateAfter owner txs).getPacks i = (packLog (recentTxs owner txs)).drop i) ∧
    (∀ i, (stateAfter owner txs).getPacks 0 =
      (packLog (recentTxs owner txs)).take i ++ (stateAfter owner txs).getPacks i) ∧
    (stateAfter owner txs).getPackCount = (packLog (recentTxs owner txs)).length ∧
    (∀ name sha, (name, sha) ∈ (stateAfter owner txs).getRefs ↔
      foldRefs (refLog (recentTxs owner txs)) name = some sha) ∧
    ((stateAfter owner txs).getRefs.map Prod.fst).Nodup ∧
    (stateAfter owner txs).getOwner = owner ∧
    (∀ tx ∈ acceptedTxs owner txs, tx.call.Mutates → tx.predecessor = owner) ∧
    (∀ tx, (tx.predecessor ≠ owner ∨ ∃ e, (stateAfter owner txs).exec tx = .error e) →
      stateAfter owner (txs ++ [tx]) = stateAfter owner txs) ∧
    (∀ later, stateAfter owner (txs ++ { predecessor := owner, call := .clearStorage } :: later) =
      stateAfter owner later) := by
  obtain ⟨r, h⟩ := exists_tracks owner txs
  have hpacks (i : Nat) :
      (stateAfter owner txs).getPacks i = (packLog (recentTxs owner txs)).drop i := by
    rw [h.represents.getPacks, h.log, recentTxs]
  refine ⟨h.represents.mem_packs, hpacks, fun i => ?_, ?_, fun name sha => ?_, ?_, h.owner_eq,
    h.callers, fun tx htx => ?_, fun later => ?_⟩
  · rw [hpacks i, hpacks 0, List.drop_zero, List.take_append_drop]
  · rw [GitStorage.getPackCount, h.represents.packCount, h.log, recentTxs]
  · rw [h.represents.mem_getRefs, h.refs_eq, recentTxs]
  · exact (stateAfter owner txs).refs.nodup_keys
  · rw [stateAfter, Guarded.run_append]
    rcases htx with htx | ⟨e, he⟩
    · exact exec_of_ne_owner fun heq => htx (heq.trans h.owner_eq)
    · exact Guarded.step_of_error he
  · rw [stateAfter, Guarded.run_append, Guarded.run_cons]
    exact congrArg (Guarded.run GitStorage.exec · later) h.step_clearStorage

theorem Call.events_eq_append {call : Call} {l r : List RefUpdate} {u : RefUpdate}
    (h : call.refUpdates = l ++ u :: r) :
    call.events = l.map (fun u => .update u.toUpdate) ++
      .update u.toUpdate :: r.map fun u => .update u.toUpdate := by
  have hne : call ≠ .clearStorage := by
    rintro rfl
    simp [Call.refUpdates] at h
  rw [Call.events_of_ne hne, h, List.map_append, List.map_cons]

/-- Between two accepted updates that expect the same of a ref, the expected value is written
back, or the contract is cleared. -/
theorem Tracks.separated {owner : String} {s : GitStorage} {repo : Repo}
    {before between after : List Tx} {tx tx' : Tx} {l r l' r' : List RefUpdate}
    {u u' : RefUpdate} (h : Tracks owner s (before ++ tx :: between ++ tx' :: after) repo)
    (htx : tx.call.refUpdates = l ++ u :: r) (htx' : tx'.call.refUpdates = l' ++ u' :: r')
    (hname : u'.name = u.name) (hexp : u'.oldSha = u.oldSha) :
    (∀ sha, u.oldSha = some sha →
      ∃ x ∈ u :: r ++ refLog between ++ l', x.name = u.name ∧ x.newSha = sha) ∧
      (u.oldSha = none → ∃ clear ∈ between, clear.call = .clearStorage) := by
  let f : RefUpdate → CasMap.Event String String := fun u => .update u.toUpdate
  have hdecomp : eventLog (before ++ tx :: between ++ tx' :: after) =
      (eventLog before ++ l.map f) ++ f u :: (r.map f ++ eventLog between ++ l'.map f) ++
        f u' :: (r'.map f ++ eventLog after) := by
    simp [eventLog, Call.events_eq_append htx, Call.events_eq_append htx', f]
  have happly := h.events
  rw [hdecomp] at happly
  obtain ⟨hset, hclear⟩ := CasMap.separated happly hname hexp
  constructor
  · intro sha hsha
    obtain ⟨x, hx, hkey, hvalue⟩ := hset sha hsha
    have hmem : .update x ∈ (u :: r).map f ++ eventLog between ++ l'.map f := hx
    obtain ⟨y, hy, rfl⟩ := update_mem_append.mp hmem
    exact ⟨y, hy, hkey, hvalue⟩
  · intro hnone
    have hpushed (us : List RefUpdate) : CasMap.Event.clear ∉ us.map f := by simp [f]
    have hmem := hclear hnone
    rw [List.mem_append, List.mem_append] at hmem
    rcases hmem with (hx | hx) | hx
    · exact absurd hx (hpushed r)
    · exact clear_mem_eventLog.mp hx
    · exact absurd hx (hpushed l')

/-- The history of every ref is a chain of compare-and-swaps, and the ref holds its end. So two
accepted pushes that expect the same of a ref have an update between them that writes the
expected value back, or, where the ref was to be absent, a clear. -/
theorem ref_history_cas_chain (owner : String) (txs : List Tx) (name : String) :
    (∀ u, ((refLog (recentTxs owner txs)).filter fun u => u.name = name)[0]? = some u →
      u.oldSha = none) ∧
    (∀ (k : Nat) u u', ((refLog (recentTxs owner txs)).filter fun u => u.name = name)[k]? = some u →
      ((refLog (recentTxs owner txs)).filter fun u => u.name = name)[k + 1]? = some u' →
      u'.oldSha = some u.newSha) ∧
    (∀ sha, (name, sha) ∈ (stateAfter owner txs).getRefs ↔
      ((refLog (recentTxs owner txs)).filter fun u => u.name = name).getLast?.map
        RefUpdate.newSha = some sha) ∧
    (∀ before between after tx tx' l r l' r' u u',
      acceptedTxs owner txs = before ++ tx :: between ++ tx' :: after →
      tx.call.refUpdates = l ++ u :: r → tx'.call.refUpdates = l' ++ u' :: r' →
      u.name = name → u'.name = name → u'.oldSha = u.oldSha →
      (∀ sha, u.oldSha = some sha →
        ∃ x ∈ u :: r ++ refLog between ++ l', x.name = name ∧ x.newSha = sha) ∧
      (u.oldSha = none → ∃ clear ∈ between, clear.call = .clearStorage)) := by
  obtain ⟨r, h⟩ := exists_tracks owner txs
  obtain ⟨hchain, hlast⟩ := h.chain name
  obtain ⟨hfirst, hnext⟩ := hchain.getElem?
  refine ⟨fun u hu => hfirst _ (by rw [List.getElem?_map, ← recentTxs, hu]; rfl),
    fun k u u' hu hu' => hnext k _ _ (by rw [List.getElem?_map, ← recentTxs, hu]; rfl)
      (by rw [List.getElem?_map, ← recentTxs, hu']; rfl), fun sha => ?_, ?_⟩
  · rw [h.represents.mem_getRefs, hlast, CasMap.lastValue_eq, List.getLast?_map, Option.map_map,
      Option.or_none, recentTxs]
    rfl
  · intro before between after tx tx' l r l' r' u u' htxs htx htx' hu hu' hexp
    rw [htxs] at h
    subst hu
    exact h.separated htx htx' hu' hexp

end NearGit.Contract
