import NearGit.ServiceWorker.Resolve
import Mathlib.Order.Bounds.Defs

/-! The resolution loop on packs that are parsed: it computes the closure of the full objects
under the deltas, whatever their order. -/

namespace NearGit.ServiceWorker
open Lib NearGit.Packfile

variable {C : Crates}

/-! ## The walk over parsed packs -/

def loadParsed (C : Crates) : List ParseResult → List UnresolvedDelta → Known →
    List UnresolvedDelta × Known
  | [], pending, known => (pending, known)
  | p :: packs, pending, known =>
    loadParsed C packs (pending ++ p.deltas) (p.objects.foldl (Known.add C) known)

/-- `pendingDeltas`, and `allObjects` with `localMap`, after the loop of `handleUploadPack`. -/
def resolveParsed (C : Crates) (packs : List ParseResult) :
    Outcome (List UnresolvedDelta × Known) :=
  let (pendingDeltas, known) := loadParsed C packs [] .empty
  resolvePending C pendingDeltas known

theorem loadPacks_eq (packs : List Bytes) (pending : List UnresolvedDelta) (known : Known) :
    loadPacks C packs pending known =
      packs.mapM (parse .w64 C) >>= fun ps => pure (loadParsed C ps pending known) := by
  induction packs generalizing pending known with
  | nil => rfl
  | cons pack packs ih =>
    rw [loadPacks, List.mapM_cons, bind_assoc]
    congr 1
    funext p
    rw [ih, bind_assoc]
    rfl

theorem collectObjects_eq (packs : List Bytes) :
    collectObjects C packs = packs.mapM (parse .w64 C) >>= resolveParsed C := by
  rw [collectObjects, loadPacks_eq, bind_assoc]
  rfl

theorem loadParsed_eq (packs : List ParseResult) (pending : List UnresolvedDelta) (known : Known) :
    loadParsed C packs pending known =
      (pending ++ packs.flatMap ParseResult.deltas,
        (packs.flatMap ParseResult.objects).foldl (Known.add C) known) := by
  induction packs generalizing pending known with
  | nil => simp [loadParsed]
  | cons p packs ih => simp [loadParsed, ih, List.foldl_append]

/-! ## Each object once -/

theorem resolvePass_keeps {P : Known → Prop} (hadd : ∀ k obj, P k → P (k.add C obj))
    {pending pending' : List UnresolvedDelta} {known known' : Known} (hP : P known)
    (h : resolvePass C pending known = .ok (pending', known')) : P known' := by
  induction pending generalizing pending' known' with
  | nil =>
    cases h
    exact hP
  | cons delta pending ih =>
    obtain ⟨⟨rest, k⟩, hrest, h⟩ := Outcome.bind_eq_ok.mp h
    have hk : P k := ih hrest
    rcases hmap : k.map delta.baseSha with _ | base
    · simp only [hmap] at h
      cases h
      exact hk
    · simp only [hmap] at h
      obtain ⟨obj, -, h⟩ := Outcome.bind_eq_ok.mp h
      cases h
      exact hadd k obj hk

theorem resolvePending_keeps {P : Known → Prop} (hadd : ∀ k obj, P k → P (k.add C obj))
    {pending pending' : List UnresolvedDelta} {known known' : Known} (hP : P known)
    (h : resolvePending C pending known = .ok (pending', known')) : P known' := by
  induction hn : pending.length using Nat.strong_induction_on generalizing pending known with
  | _ n ih =>
    subst hn
    rw [resolvePending] at h
    split_ifs at h with hnil
    · cases h
      exact hP
    · obtain ⟨⟨rest, k⟩, hpass, h⟩ := Outcome.bind_eq_ok.mp h
      have hk : P k := resolvePass_keeps hadd hP hpass
      simp only at h
      split_ifs at h with hlt
      · exact ih _ hlt hk h rfl
      · cases h
        exact hk

structure Known.Distinct (C : Crates) (known : Known) : Prop where
  consistent : known.Consistent C
  nodup : (known.objects.map (PackObject.sha1 C)).Nodup

theorem Known.Distinct.add {known : Known} (h : known.Distinct C) (obj : PackObject) :
    (known.add C obj).Distinct C := by
  refine ⟨h.consistent.add obj, ?_⟩
  rcases known.add_cases (C := C) obj with ⟨-, heq⟩ | ⟨hnone, heq⟩
  · rw [heq]
    exact h.nodup
  · rw [heq, List.map_append, List.map_singleton, List.nodup_append]
    refine ⟨h.nodup, List.nodup_singleton _, ?_⟩
    rintro sha hsha _ hobj rfl
    -- the map has the SHA of every object of the array
    obtain ⟨o, ho, rfl⟩ := List.mem_map.mp hsha
    obtain ⟨other, hother⟩ := h.consistent.found o ho
    rw [List.mem_singleton.mp hobj, hnone] at hother
    cases hother

theorem Known.Distinct.foldl_add {known : Known} (h : known.Distinct C)
    (objs : List PackObject) : (objs.foldl (Known.add C) known).Distinct C := by
  induction objs generalizing known with
  | nil => exact h
  | cons obj objs ih => exact ih (h.add obj)

theorem Known.distinct_empty : Known.empty.Distinct C where
  consistent := Known.consistent_empty
  nodup := List.nodup_nil

/-! ## The deltas that stay -/

theorem resolvePass_filter {stays : UnresolvedDelta → Bool}
    {pending pending' : List UnresolvedDelta} {known known' : Known}
    (hcons : known.Consistent C)
    (hstays : ∀ d, Fired C known' d → stays d = false)
    (h : resolvePass C pending known = .ok (pending', known')) :
    pending'.filter stays = pending.filter stays := by
  induction pending generalizing pending' known' with
  | nil =>
    cases h
    rfl
  | cons delta pending ih =>
    obtain ⟨⟨rest, k⟩, hrest, h⟩ := Outcome.bind_eq_ok.mp h
    obtain ⟨hadv, -⟩ := resolvePass_spec hcons hrest
    rcases hmap : k.map delta.baseSha with _ | base
    · simp only [hmap] at h
      cases h
      rw [List.filter_cons, List.filter_cons, ih hstays hrest]
    · simp only [hmap] at h
      obtain ⟨obj, happly, h⟩ := Outcome.bind_eq_ok.mp h
      cases h
      have hsub : k.objects ⊆ (k.add C obj).objects := k.subset_add obj
      have hfired : Fired C (k.add C obj) delta := by
        obtain ⟨hbase, hsha⟩ := hadv.consistent.mem _ _ hmap
        obtain ⟨o, ho, hsha'⟩ := hadv.consistent.exists_sha1_eq obj
        exact ⟨base, hsub hbase, hsha, obj, happly, o, ho, hsha'⟩
      rw [List.filter_cons_of_neg (by simp [hstays delta hfired])]
      exact ih (fun d hd => hstays d (hd.mono hsub)) hrest

theorem resolvePending_filter {stays : UnresolvedDelta → Bool}
    {pending pending' : List UnresolvedDelta} {known known' : Known}
    (hcons : known.Consistent C)
    (hstays : ∀ d, Fired C known' d → stays d = false)
    (h : resolvePending C pending known = .ok (pending', known')) :
    pending'.filter stays = pending.filter stays := by
  induction hn : pending.length using Nat.strong_induction_on generalizing pending known with
  | _ n ih =>
    subst hn
    rw [resolvePending] at h
    split_ifs at h with hnil
    · cases h
      rw [hnil]
    · obtain ⟨⟨rest, k⟩, hpass, h⟩ := Outcome.bind_eq_ok.mp h
      obtain ⟨hadv, -⟩ := resolvePass_spec hcons hpass
      simp only at h
      split_ifs at h with hlt
      · obtain ⟨hadv', -⟩ := resolvePending_spec hadv.consistent h
        rw [ih _ hlt hadv.consistent h rfl]
        exact resolvePass_filter hcons (fun d hd => hstays d (hd.mono hadv'.subset)) hpass
      · cases h
        exact resolvePass_filter hcons hstays hpass

theorem resolvePending_eq_filter {pending pending' : List UnresolvedDelta} {known known' : Known}
    (hcons : known.Consistent C)
    (h : resolvePending C pending known = .ok (pending', known')) :
    pending' = pending.filter fun d => (known'.map d.baseSha).isNone := by
  obtain ⟨hadv, hnone⟩ := resolvePending_spec hcons h
  have hfired : ∀ d, Fired C known' d → (known'.map d.baseSha).isNone = false := by
    rintro d ⟨base, hbase, hsha, -⟩
    obtain ⟨other, hother⟩ := hadv.consistent.found base hbase
    rw [← hsha, hother]
    rfl
  rw [← resolvePending_filter hcons hfired h, List.filter_eq_self.mpr]
  intro d hd
  rw [hnone d hd]
  rfl

theorem Known.Consistent.isNone_iff {known : Known} (h : known.Consistent C) (sha : String) :
    (known.map sha).isNone = true ↔ ∀ b ∈ known.objects, b.sha1 C ≠ sha := by
  constructor
  · rintro hnone b hb rfl
    obtain ⟨other, hother⟩ := h.found b hb
    simp [hother] at hnone
  · intro hall
    rcases hmap : known.map sha with _ | b
    · rfl
    · obtain ⟨hb, hsha⟩ := h.mem _ _ hmap
      exact absurd hsha (hall b hb)

/-! ## The closure -/

def objectsIn (packs : List ParseResult) : Set PackObject := {o | ∃ p ∈ packs, o ∈ p.objects}

def deltasIn (packs : List ParseResult) : Set UnresolvedDelta := {d | ∃ p ∈ packs, d ∈ p.deltas}

def closure (C : Crates) (packs : List ParseResult) : Set PackObject :=
  {o | Derived (deltaRules C) (objectsIn packs) (deltasIn packs) o}

structure ClosedUnderDeltas (C : Crates) (packs : List ParseResult) (S : Set PackObject) :
    Prop where
  objects : ∀ o ∈ objectsIn packs, o ∈ S
  deltas : ∀ d ∈ deltasIn packs, ∀ base ∈ S, base.sha1 C = d.baseSha →
    ∀ obj, d.applyTo .w64 base = .ok obj → obj ∈ S

theorem isLeast_closure (C : Crates) (packs : List ParseResult) :
    IsLeast {S | ClosedUnderDeltas C packs S} (closure C packs) := by
  constructor
  · exact ⟨fun o ho => .seed ho, fun d hd base hbase hsha obj happly =>
      .rule hd hbase hsha (Outcome.toOption_eq_some.mpr happly)⟩
  · intro S hS o ho
    refine Derived.mem_of_closed (fun a ha => hS.objects a ha) ?_ ho
    intro d hd base hbase obj hsha hfire
    exact hS.deltas d hd base hbase hsha obj (Outcome.toOption_eq_some.mp hfire)

def Rearranged (packs packs' : List ParseResult) : Prop :=
  ∃ mid, packs.Perm mid ∧
    List.Forall₂ (fun p p' : ParseResult => p.objects.Perm p'.objects ∧ p.deltas.Perm p'.deltas)
      mid packs'

theorem Rearranged.closure_eq {packs packs' : List ParseResult} (h : Rearranged packs packs') :
    objectsIn packs' = objectsIn packs ∧ deltasIn packs' = deltasIn packs := by
  obtain ⟨mid, hperm, hmid⟩ := h
  constructor
  · ext o
    constructor
    · rintro ⟨p', hp', ho⟩
      obtain ⟨p, hp, hobjects, -⟩ := exists_of_mem_right hmid hp'
      exact ⟨p, hperm.mem_iff.mpr hp, hobjects.mem_iff.mpr ho⟩
    · rintro ⟨p, hp, ho⟩
      obtain ⟨p', hp', hobjects, -⟩ := exists_of_mem_left hmid (hperm.mem_iff.mp hp)
      exact ⟨p', hp', hobjects.mem_iff.mp ho⟩
  · ext d
    constructor
    · rintro ⟨p', hp', hd⟩
      obtain ⟨p, hp, -, hdeltas⟩ := exists_of_mem_right hmid hp'
      exact ⟨p, hperm.mem_iff.mpr hp, hdeltas.mem_iff.mpr hd⟩
    · rintro ⟨p, hp, hd⟩
      obtain ⟨p', hp', -, hdeltas⟩ := exists_of_mem_left hmid (hperm.mem_iff.mp hp)
      exact ⟨p', hp', hdeltas.mem_iff.mp hd⟩

def AllApply (C : Crates) (packs : List ParseResult) : Prop :=
  ∀ d ∈ deltasIn packs, ∀ base ∈ closure C packs, base.sha1 C = d.baseSha →
    ∃ obj, d.applyTo .w64 base = .ok obj

theorem loadParsed_spec (packs : List ParseResult) :
    (loadParsed C packs [] .empty).1 = packs.flatMap ParseResult.deltas ∧
      (loadParsed C packs [] .empty).2.Distinct C ∧
      (∀ o ∈ (loadParsed C packs [] .empty).2.objects, o ∈ objectsIn packs) ∧
      ∀ o ∈ objectsIn packs, ∃ b ∈ (loadParsed C packs [] .empty).2.objects,
        b.sha1 C = o.sha1 C := by
  rw [loadParsed_eq, List.nil_append]
  have hmem (o : PackObject) : o ∈ packs.flatMap ParseResult.objects ↔ o ∈ objectsIn packs := by
    simp [objectsIn]
  obtain ⟨-, -, hfrom, hfound⟩ :=
    (Known.consistent_empty (C := C)).foldl_add (packs.flatMap ParseResult.objects)
  refine ⟨rfl, Known.distinct_empty.foldl_add _, fun o ho => ?_, fun o ho => ?_⟩
  · exact (hmem o).mp ((hfrom o ho).resolve_left List.not_mem_nil)
  · exact hfound o ((hmem o).mpr ho)

theorem mem_flatMap_deltas {packs : List ParseResult} {d : UnresolvedDelta} :
    d ∈ packs.flatMap ParseResult.deltas ↔ d ∈ deltasIn packs := by
  simp [deltasIn]

theorem resolveParsed_ok {packs : List ParseResult} (happlies : AllApply C packs) :
    ∃ pendingDeltas known, resolveParsed C packs = .ok (pendingDeltas, known) := by
  obtain ⟨hdeltas, hdistinct, hfrom, -⟩ := loadParsed_spec (C := C) packs
  have hS : ∀ o ∈ (loadParsed C packs [] .empty).2.objects, o ∈ closure C packs :=
    fun o ho => .seed (hfrom o ho)
  have happliesOn : AppliesOn C (loadParsed C packs [] .empty).1 (closure C packs) := by
    intro d hd base hbase hsha
    rw [hdeltas, mem_flatMap_deltas] at hd
    obtain ⟨obj, happly⟩ := happlies d hd base hbase hsha
    exact ⟨obj, .rule hd hbase hsha (Outcome.toOption_eq_some.mpr happly), happly⟩
  exact resolvePending_ok hdistinct.consistent hS happliesOn

theorem resolveParsed_mem_iff {packs : List ParseResult} {pendingDeltas : List UnresolvedDelta}
    {known : Known} (h : resolveParsed C packs = .ok (pendingDeltas, known))
    (hinj : Set.InjOn (PackObject.sha1 C) (closure C packs)) (o : PackObject) :
    o ∈ known.objects ↔ o ∈ closure C packs := by
  obtain ⟨hdeltas, hdistinct, hfrom, hfound⟩ := loadParsed_spec (C := C) packs
  obtain ⟨hadv, hnone⟩ := resolvePending_spec hdistinct.consistent h
  have hpending (d : UnresolvedDelta) :
      d ∈ (loadParsed C packs [] .empty).1 ↔ d ∈ deltasIn packs := by
    rw [hdeltas, mem_flatMap_deltas]
  exact (hadv.saturated hnone hfrom hfound hpending).mem_iff hinj o

/-- The loop of `handleUploadPack` ends with the closure, each object once; it leaves the deltas
whose base is not in it, and the order of packs and deltas does not matter. -/
theorem upload_computes_closure (C : Crates) (packs : List ParseResult)
    (happlies : AllApply C packs) (hinj : Set.InjOn (PackObject.sha1 C) (closure C packs)) :
    ∃ pendingDeltas known, resolveParsed C packs = .ok (pendingDeltas, known) ∧
      IsLeast {S | ClosedUnderDeltas C packs S} {o | o ∈ known.objects} ∧
      (known.objects.map (PackObject.sha1 C)).Nodup ∧
      (∃ unresolved : UnresolvedDelta → Bool,
        pendingDeltas = (packs.flatMap ParseResult.deltas).filter unresolved ∧
        ∀ d, unresolved d = true ↔ ∀ b ∈ known.objects, b.sha1 C ≠ d.baseSha) ∧
      ∀ packs', Rearranged packs packs' → ∃ pendingDeltas' known',
        resolveParsed C packs' = .ok (pendingDeltas', known') ∧
        ∀ o, o ∈ known'.objects ↔ o ∈ known.objects := by
  obtain ⟨pendingDeltas, known, hrun⟩ := resolveParsed_ok happlies
  have hmem := resolveParsed_mem_iff hrun hinj
  obtain ⟨hdeltas, hdistinct, -, -⟩ := loadParsed_spec (C := C) packs
  have hfinal : known.Distinct C :=
    resolvePending_keeps (fun k obj hk => hk.add obj) hdistinct hrun
  refine ⟨pendingDeltas, known, hrun, ?_, hfinal.nodup, ?_, fun packs' hre => ?_⟩
  · rw [show {o | o ∈ known.objects} = closure C packs from Set.ext hmem]
    exact isLeast_closure C packs
  · refine ⟨fun d => (known.map d.baseSha).isNone, ?_, fun d =>
      hfinal.consistent.isNone_iff d.baseSha⟩
    rw [← hdeltas]
    exact resolvePending_eq_filter hdistinct.consistent hrun
  · obtain ⟨hobjects', hdeltas'⟩ := hre.closure_eq
    have hclosure : closure C packs' = closure C packs := by
      rw [closure, closure, hobjects', hdeltas']
    have happlies' : AllApply C packs' := by
      rw [AllApply, hclosure, hdeltas']
      exact happlies
    obtain ⟨pendingDeltas', known', hrun'⟩ := resolveParsed_ok happlies'
    refine ⟨pendingDeltas', known', hrun', fun o => ?_⟩
    rw [resolveParsed_mem_iff hrun' (hclosure ▸ hinj), hclosure, hmem]

/-! ## A chain whose base comes later -/

def chainDelta : UnresolvedDelta where
  baseSha := (sampleBlob 40 1).sha1 referenceCrates
  deltaData := computeDelta (sampleBlob 40 1).data (sampleBlob 40 2).data
  chain := [computeDelta (sampleBlob 40 2).data (sampleBlob 40 3).data]

def chainPacks : List ParseResult :=
  [{ objects := [], deltas := [chainDelta] }, { objects := [sampleBlob 40 1], deltas := [] }]

theorem chainDelta_applyTo : chainDelta.applyTo .w64 (sampleBlob 40 1) = .ok (sampleBlob 40 3) := by
  decide +kernel

theorem chain_sha1_ne :
    (sampleBlob 40 3).sha1 referenceCrates ≠ (sampleBlob 40 1).sha1 referenceCrates := by
  decide +kernel

theorem mem_closure_chainPacks {o : PackObject} (h : o ∈ closure referenceCrates chainPacks) :
    o = sampleBlob 40 1 ∨ o = sampleBlob 40 3 := by
  refine Derived.mem_of_closed (S := {o | o = sampleBlob 40 1 ∨ o = sampleBlob 40 3}) ?_ ?_ h
  · intro o ho
    exact .inl (by simpa [chainPacks, objectsIn] using ho)
  · intro d hd base hbase obj hsha hfire
    obtain rfl : d = chainDelta := by simpa [chainPacks, deltasIn] using hd
    rcases hbase with rfl | rfl
    · have hobj : chainDelta.applyTo .w64 (sampleBlob 40 1) = .ok obj :=
        Outcome.toOption_eq_some.mp hfire
      rw [chainDelta_applyTo, Outcome.ok.injEq] at hobj
      exact .inr hobj.symm
    · exact absurd hsha chain_sha1_ne

theorem upload_computes_closure_chainPacks :
    ∃ pendingDeltas known, resolveParsed referenceCrates chainPacks = .ok (pendingDeltas, known) ∧
      IsLeast {S | ClosedUnderDeltas referenceCrates chainPacks S} {o | o ∈ known.objects} := by
  have happlies : AllApply referenceCrates chainPacks := by
    intro d hd base hbase hsha
    obtain rfl : d = chainDelta := by
      simpa [chainPacks, deltasIn] using hd
    rcases mem_closure_chainPacks hbase with rfl | rfl
    · exact ⟨_, chainDelta_applyTo⟩
    · exact absurd hsha chain_sha1_ne
  have hinj : Set.InjOn (PackObject.sha1 referenceCrates) (closure referenceCrates chainPacks) := by
    intro a ha b hb hsha
    rcases mem_closure_chainPacks ha with rfl | rfl <;>
      rcases mem_closure_chainPacks hb with rfl | rfl
    · rfl
    · exact absurd hsha.symm chain_sha1_ne
    · exact absurd hsha chain_sha1_ne
    · rfl
  obtain ⟨pendingDeltas, known, hrun, hleast, -⟩ :=
    upload_computes_closure referenceCrates chainPacks happlies hinj
  exact ⟨pendingDeltas, known, hrun, hleast⟩

end NearGit.ServiceWorker
