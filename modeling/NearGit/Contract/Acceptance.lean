import NearGit.Contract.Repo

/-! Which pushes the contract accepts, and what they leave alone. -/

namespace NearGit.Contract
open Lib

theorem foldlM_applyUpdate_isOk {s : GitStorage} {r : Repo} {us : List RefUpdate}
    (h : s.Represents r) {refs : String → Option String}
    (happly : CasMap.applyAll r.refs (us.map fun u => .update u.toUpdate) = some refs) :
    ∃ s', us.foldlM GitStorage.applyUpdate s = .ok s' := by
  induction us generalizing s r with
  | nil => exact ⟨s, rfl⟩
  | cons u us ih =>
    obtain ⟨hfound, hrest⟩ := CasMap.applyAll_update_cons.mp happly
    have hupdate : s.applyUpdate u = .ok _ :=
      GitStorage.applyUpdate_eq_ok.mpr ⟨(h.refs u.name).trans hfound, rfl⟩
    obtain ⟨refs₁, happly₁, h₁, -⟩ := applyUpdate_represents h hupdate
    cases (if_pos hfound).symm.trans happly₁
    obtain ⟨s', hs'⟩ := ih h₁ hrest
    exact ⟨s', by rw [List.foldlM_cons, hupdate]; exact hs'⟩

theorem push_isOk_iff {s : GitStorage} {repo : Repo} (hs : s.Represents repo) {caller : String}
    {packData : Bytes} {us : List RefUpdate} (hnodup : (us.map RefUpdate.name).Nodup) :
    (∃ s', s.push caller packData us = .ok s') ↔ caller = s.owner ∧
      (packData = [] ∨ s.packCount + 1 < 2 ^ 32) ∧ ∀ u ∈ us, repo.refs u.name = u.oldSha := by
  have hkeys : ((us.map RefUpdate.toUpdate).map CasMap.Update.key).Nodup := by
    rw [List.map_map]
    exact hnodup
  have hcas : (∃ refs, CasMap.applyAll repo.refs (us.map fun u => .update u.toUpdate) = some refs) ↔
      ∀ u ∈ us, repo.refs u.name = u.oldSha := by
    have hiff := CasMap.applyAll_isSome_iff (m := repo.refs) hkeys
    rw [List.map_map, List.forall_mem_map] at hiff
    exact hiff
  rw [← hcas]
  constructor
  · rintro ⟨s', hpush⟩
    obtain ⟨howner, stored, hstore, hupdates⟩ := GitStorage.push_eq_ok.mp hpush
    obtain ⟨hstored, -⟩ := storePack_represents hs hstore
    obtain ⟨refs, happly, -⟩ := applyUpdates_represents hstored hupdates
    refine ⟨howner, ?_, refs, happly⟩
    rcases GitStorage.storePack_eq_ok.mp hstore with ⟨hnil, -⟩ | ⟨-, hroom, -⟩
    · exact .inl hnil
    · exact .inr hroom
  · rintro ⟨howner, hroom, refs, happly⟩
    obtain ⟨stored, hstore⟩ : ∃ stored, s.storePack packData = .ok stored := by
      by_cases hnil : packData = []
      · exact ⟨s, GitStorage.storePack_eq_ok.mpr (.inl ⟨hnil, rfl⟩)⟩
      · exact ⟨_, GitStorage.storePack_eq_ok.mpr (.inr ⟨hnil, hroom.resolve_left hnil, rfl⟩)⟩
    obtain ⟨hstored, -⟩ := storePack_represents hs hstore
    obtain ⟨s', hs'⟩ := foldlM_applyUpdate_isOk hstored happly
    exact ⟨s', GitStorage.push_eq_ok.mpr ⟨howner, stored, hstore, hs'⟩⟩

theorem push_refs {s s' : GitStorage} {repo : Repo} (hs : s.Represents repo) {caller : String}
    {packData : Bytes} {us : List RefUpdate} (hnodup : (us.map RefUpdate.name).Nodup)
    (hpush : s.push caller packData us = .ok s') :
    (∀ u ∈ us, s'.refs.get u.name = some u.newSha) ∧
      ∀ name, (∀ u ∈ us, u.name ≠ name) → s'.refs.get name = s.refs.get name := by
  have hexec : s.exec { predecessor := caller, call := .push packData us } = .ok s' := hpush
  obtain ⟨⟨repo', hstep, hs'⟩, -⟩ := exec_represents hs hexec
  obtain ⟨refs, happly, rfl⟩ := Repo.exec_push.mp hstep
  have hkeys : ((us.map RefUpdate.toUpdate).map CasMap.Update.key).Nodup := by
    rw [List.map_map]
    exact hnodup
  have happly' : CasMap.applyAll repo.refs ((us.map RefUpdate.toUpdate).map .update) =
      some refs := by
    rw [List.map_map]
    exact happly
  obtain ⟨hvalues, hrest⟩ := CasMap.applyAll_values hkeys happly'
  constructor
  · intro u hu
    rw [hs'.refs]
    exact hvalues u.toUpdate (List.mem_map_of_mem hu)
  · intro name hname
    rw [hs'.refs, hs.refs]
    exact hrest name (List.forall_mem_map.mpr hname)

theorem applyUpdates_changed {s s' : GitStorage} {us : List RefUpdate}
    (h : us.foldlM GitStorage.applyUpdate s = .ok s') (name : String) :
    s'.refs.get name = s.refs.get name ∨
      ∃ u ∈ us, u.name = name ∧ u.oldSha = s.refs.get name := by
  induction us generalizing s with
  | nil =>
    cases h
    exact .inl rfl
  | cons u us ih =>
    rw [List.foldlM_cons] at h
    obtain ⟨s₁, hupdate, h⟩ := except_bind_eq_ok.mp h
    obtain ⟨hfound, rfl⟩ := GitStorage.applyUpdate_eq_ok.mp hupdate
    by_cases hname : u.name = name
    · subst hname
      exact .inr ⟨u, List.mem_cons_self, rfl, hfound.symm⟩
    · have hother : (s.refs.insert u.name u.newSha).get name = s.refs.get name :=
        IterableMap.get_insert_of_ne _ (Ne.symm hname) _
      rcases ih h with hsame | ⟨u', hu', hname', hold⟩
      · exact .inl (hsame.trans hother)
      · exact .inr ⟨u', List.mem_cons_of_mem _ hu', hname', hold.trans hother⟩

theorem push_changed {s s' : GitStorage} {caller : String} {packData : Bytes}
    {us : List RefUpdate} (h : s.push caller packData us = .ok s') (name : String) :
    s'.refs.get name = s.refs.get name ∨
      ∃ u ∈ us, u.name = name ∧ u.oldSha = s.refs.get name := by
  obtain ⟨-, stored, hstore, hupdates⟩ := GitStorage.push_eq_ok.mp h
  rcases GitStorage.storePack_eq_ok.mp hstore with ⟨-, rfl⟩ | ⟨-, -, rfl⟩
  · exact applyUpdates_changed hupdates name
  · exact applyUpdates_changed hupdates name

theorem applyUpdates_keys {s s' : GitStorage} {us : List RefUpdate}
    (h : us.foldlM GitStorage.applyUpdate s = .ok s') : s.refs.keys <+: s'.refs.keys := by
  induction us generalizing s with
  | nil =>
    cases h
    exact List.prefix_rfl
  | cons u us ih =>
    rw [List.foldlM_cons] at h
    obtain ⟨s₁, hupdate, h⟩ := except_bind_eq_ok.mp h
    obtain ⟨-, rfl⟩ := GitStorage.applyUpdate_eq_ok.mp hupdate
    have hinsert : s.refs.keys <+: (s.refs.insert u.name u.newSha).keys := by
      rw [IterableMap.keys_insert]
      split_ifs
      · exact List.prefix_rfl
      · exact List.prefix_append _ _
    exact hinsert.trans (ih h)

/-- The refs stay in the order they are listed in, and those that a push creates come after. -/
theorem push_keys {s s' : GitStorage} {caller : String} {packData : Bytes} {us : List RefUpdate}
    (h : s.push caller packData us = .ok s') :
    s.getRefs.map Prod.fst <+: s'.getRefs.map Prod.fst := by
  obtain ⟨-, stored, hstore, hupdates⟩ := GitStorage.push_eq_ok.mp h
  have hkeys := applyUpdates_keys hupdates
  rcases GitStorage.storePack_eq_ok.mp hstore with ⟨-, rfl⟩ | ⟨-, -, rfl⟩
  · exact hkeys
  · exact hkeys

theorem lookup_getRefs (s : GitStorage) (name : String) :
    s.getRefs.lookup name = s.refs.get name := rfl

theorem run_represents {s : GitStorage} {repo : Repo} (hs : s.Represents repo) (txs : List Tx) :
    ∃ repo', (Guarded.run GitStorage.exec s txs).Represents repo' ∧
      (Guarded.run GitStorage.exec s txs).owner = s.owner := by
  refine Guarded.run_induction
    (P := fun (s' : GitStorage) _ => ∃ repo', s'.Represents repo' ∧ s'.owner = s.owner)
    ⟨repo, hs, rfl⟩ ?_ txs
  rintro s₁ as a s₂ ⟨repo₁, h₁, howner₁⟩ hexec
  obtain ⟨⟨repo₂, -, h₂⟩, howner₂, -⟩ := exec_represents h₁ hexec
  exact ⟨repo₂, h₂, howner₂.trans howner₁⟩

end NearGit.Contract
