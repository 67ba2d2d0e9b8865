import NearGit.Packfile.Reconstruct

/-! `handle_upload_pack` of git-server, from the packs of the contract on: the objects of all
packs, each pack resolved over the objects so far. -/

namespace NearGit.GitServer
open Lib NearGit.Packfile

structure Merged where
  localMap : String → Option PackObject
  allObjects : List PackObject

def Merged.add (C : Crates) (merged : Merged) (obj : PackObject) : Merged where
  localMap := Function.update merged.localMap (obj.sha1 C) (some obj)
  allObjects := merged.allObjects ++ [obj]

/-- One `pending.retain(..)`: the deltas that stay, and whether one was resolved. A delta that
does not apply is given up. -/
def retainPass (C : Crates) : List UnresolvedDelta → (progress : Bool) → Merged →
    Outcome (List UnresolvedDelta × Bool × Merged)
  | [], progress, merged => .ok ([], progress, merged)
  | delta :: pending, progress, merged =>
    match merged.localMap delta.baseSha with
    | none => do
      let (kept, progress, merged) ← retainPass C pending progress merged
      return (delta :: kept, progress, merged)
    | some base =>
      match delta.applyTo .w64 base with
      | .ok obj => retainPass C pending true (merged.add C obj)
      | .err _ => retainPass C pending progress merged
      | .panic why => .panic why
      | .diverge => .diverge

/-- The `while progress && !pending.is_empty()` loop. Progress without a delta less would go on
forever. -/
def resolvePending (C : Crates) (pending : List UnresolvedDelta) (merged : Merged) :
    Outcome Merged :=
  if pending = [] then .ok merged
  else do
    let (kept, progress, merged) ← retainPass C pending false merged
    if progress then
      if kept.length < pending.length then resolvePending C kept merged else .diverge
    else return merged
termination_by pending.length

/-- The objects after one more pack; a pack that does not parse is skipped. -/
def mergePack (C : Crates) (allObjects : List PackObject) (pack : Bytes) :
    Outcome (List PackObject) :=
  match parse .w64 C pack with
  | .ok result => do
    let allObjects := allObjects ++ result.objects
    let merged ← resolvePending C result.deltas { localMap := shaMap C allObjects, allObjects }
    return merged.allObjects
  | .err _ => .ok allObjects
  | .panic why => .panic why
  | .diverge => .diverge

def allObjects (C : Crates) (packs : List Bytes) : Outcome (List PackObject) :=
  packs.foldlM (mergePack C) []

def handleUploadPack (C : Crates) (packs : List Bytes) : Outcome Bytes := do
  let objects ← allObjects C packs
  build .w64 C objects

/-! ## Packs whose bases come earlier -/

variable {C : Crates}

theorem retainPass_of_bases {bases : List PackObject} {S : Set PackObject}
    (hinj : Set.InjOn (PackObject.sha1 C) S) (hbases : ∀ b ∈ bases, b ∈ S)
    {deltas : List UnresolvedDelta} {resolved : List PackObject}
    (hdeltas : List.Forall₂ (fun (d : UnresolvedDelta) o => ∃ base ∈ bases,
      base.sha1 C = d.baseSha ∧ d.applyTo .w64 base = .ok o) deltas resolved)
    (hresolved : ∀ o ∈ resolved, o ∈ S) (progress : Bool) {merged : Merged}
    (hmap : ∀ b ∈ bases, merged.localMap (b.sha1 C) = some b) :
    ∃ progress' localMap, retainPass C deltas progress merged =
        .ok ([], progress', { localMap, allObjects := merged.allObjects ++ resolved }) ∧
      (deltas ≠ [] → progress' = true) ∧ (progress = true → progress' = true) := by
  induction hdeltas generalizing progress merged with
  | nil => exact ⟨progress, merged.localMap, by simp [retainPass], by simp, id⟩
  | @cons d o deltas resolved hd _ ih =>
    obtain ⟨base, hbase, hsha, happly⟩ := hd
    have hfound : merged.localMap d.baseSha = some base := hsha ▸ hmap base hbase
    have ho : o ∈ S := hresolved o (List.mem_cons_self ..)
    have hmap' : ∀ b ∈ bases, (merged.add C o).localMap (b.sha1 C) = some b := by
      intro b hb
      unfold Merged.add
      rcases eq_or_ne (b.sha1 C) (o.sha1 C) with heq | hne
      · simp [hinj (hbases b hb) ho heq]
      · simp [hne, hmap b hb]
    have hresolved' : ∀ o ∈ resolved, o ∈ S := fun o ho => hresolved o (List.mem_cons_of_mem _ ho)
    obtain ⟨progress', localMap, hpass, -, hprogress⟩ := ih hresolved' true hmap'
    refine ⟨progress', localMap, ?_, fun _ => hprogress rfl, fun _ => hprogress rfl⟩
    simp only [retainPass, hfound, happly]
    rw [hpass, Merged.add, List.append_assoc, List.singleton_append]

theorem resolvePending_of_bases {bases : List PackObject} {S : Set PackObject}
    (hinj : Set.InjOn (PackObject.sha1 C) S) (hbases : ∀ b ∈ bases, b ∈ S)
    {deltas : List UnresolvedDelta} {resolved : List PackObject}
    (hdeltas : List.Forall₂ (fun (d : UnresolvedDelta) o => ∃ base ∈ bases,
      base.sha1 C = d.baseSha ∧ d.applyTo .w64 base = .ok o) deltas resolved)
    (hresolved : ∀ o ∈ resolved, o ∈ S) {merged : Merged}
    (hmap : ∀ b ∈ bases, merged.localMap (b.sha1 C) = some b) :
    ∃ localMap, resolvePending C deltas merged =
      .ok { localMap, allObjects := merged.allObjects ++ resolved } := by
  rw [resolvePending]
  split_ifs with hnil
  · subst hnil
    cases hdeltas
    exact ⟨merged.localMap, by rw [List.append_nil]⟩
  · obtain ⟨progress, localMap, hpass, hprogress, -⟩ :=
      retainPass_of_bases hinj hbases hdeltas hresolved false hmap
    have hlen : ([] : List UnresolvedDelta).length < deltas.length :=
      List.length_pos_of_ne_nil hnil
    rw [hpass, Outcome.ok_bind]
    simp only [hprogress hnil, if_true, hlen]
    exact ⟨localMap, by rw [resolvePending, if_pos rfl]⟩

theorem mergePack_of_carries {bases objects all : List PackObject} {pack : Bytes}
    {S : Set PackObject} (hinj : Set.InjOn (PackObject.sha1 C) S)
    (hcarries : Carries C bases objects pack) (hbases : ∀ b ∈ bases, b ∈ all)
    (hall : ∀ o ∈ all, o ∈ S) (hobjects : ∀ o ∈ objects, o ∈ S) :
    ∃ all', mergePack C all pack = .ok all' ∧ ∀ o, o ∈ all' ↔ o ∈ all ∨ o ∈ objects := by
  obtain ⟨r, resolved, hr, hdeltas, hperm⟩ := hcarries
  have hmem (o : PackObject) : o ∈ objects ↔ o ∈ r.objects ∨ o ∈ resolved := by
    rw [← hperm.mem_iff, List.mem_append]
  have hall' : ∀ o ∈ all ++ r.objects, o ∈ S := by
    intro o ho
    rcases List.mem_append.mp ho with ho | ho
    · exact hall o ho
    · exact hobjects o ((hmem o).mpr (.inl ho))
  have hmap : ∀ b ∈ bases, shaMap C (all ++ r.objects) (b.sha1 C) = some b := by
    intro b hb
    have hb' : b ∈ all ++ r.objects := List.mem_append_left _ (hbases b hb)
    obtain ⟨other, hother⟩ := exists_shaMap_eq (C := C) hb'
    obtain ⟨hmem, hsha⟩ := shaMap_eq_some hother
    rw [hother, hinj (hall' other hmem) (hall' b hb') hsha]
  have hresolved : ∀ o ∈ resolved, o ∈ S := fun o ho => hobjects o ((hmem o).mpr (.inr ho))
  let merged : Merged :=
    { localMap := shaMap C (all ++ r.objects), allObjects := all ++ r.objects }
  have hmap' : ∀ b ∈ bases, merged.localMap (b.sha1 C) = some b := hmap
  obtain ⟨localMap, hloop⟩ :=
    resolvePending_of_bases hinj (fun b hb => hall b (hbases b hb)) hdeltas hresolved hmap'
  refine ⟨(all ++ r.objects) ++ resolved, ?_, fun o => ?_⟩
  · simp only [mergePack, hr]
    rw [hloop]
    rfl
  · rw [List.append_assoc, List.mem_append, List.mem_append, hmem]

end NearGit.GitServer
