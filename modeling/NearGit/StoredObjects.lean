import NearGit.GitServer.SameRepository
import NearGit.ServiceWorker.Clients

/-! What the two upload-pack servers have of a log whose packs come from any of the programs: thin
packs of the service worker, and packs of git that are stored as they are. -/

namespace NearGit.StoredObjects
open Lib NearGit.Packfile
open NearGit.ServiceWorker (DeltaWithin Views packData collectObjects)
open NearGit.GitServer (inOrder inOrder_concat)

variable {C : Crates} {S S' : Set PackObject} {log : List Bytes} {pack : Bytes}

/-- What a pack gives over the objects in `S`. -/
def overlay (C : Crates) (pack : Bytes) (S : Set PackObject) : Set PackObject :=
  {o | ReconstructibleWith C [pack] S o}

/-- The pack parses, and each of its deltas has its base in `S` or in the pack itself. -/
structure ResolvesOver (C : Crates) (S : Set PackObject) (pack : Bytes) : Prop where
  parses : ∃ r, parse .w64 C pack = .ok r
  deltas : ∀ d ∈ parsedDeltas C [pack], DeltaWithin C (overlay C pack S) d

theorem subset_overlay (pack : Bytes) (S : Set PackObject) : S ⊆ overlay C pack S :=
  fun _ ho => .seed (.inr ho)

theorem overlay_mono (h : S ⊆ S') : overlay C pack S ⊆ overlay C pack S' := by
  intro o ho
  exact Derived.mono (Set.union_subset_union_right _ h) (le_refl _) ho

theorem ResolvesOver.mono (h : ResolvesOver C S pack) (hsub : S ⊆ S') :
    ResolvesOver C S' pack where
  parses := h.parses
  deltas d hd := (h.deltas d hd).mono (overlay_mono hsub)

/-- A pack that resolves over `S` gives nothing more where other objects are there, too. -/
theorem ResolvesOver.overlay_union (h : ResolvesOver C S pack)
    (hinj : Set.InjOn (PackObject.sha1 C) (S' ∪ overlay C pack S)) :
    overlay C pack (S' ∪ S) = S' ∪ overlay C pack S := by
  apply Set.Subset.antisymm
  · intro o ho
    refine Derived.mem_of_closed ?_ ?_ ho
    · rintro a (ha | ha | ha)
      · exact .inr (.seed (.inl ha))
      · exact .inl ha
      · exact .inr (subset_overlay pack S ha)
    · intro d hd base hbase a hsha hfire
      have hwithin := (h.deltas d hd).mono (Set.subset_union_right (s := S'))
      obtain ⟨obj, hobj, happly⟩ := hwithin.applyTo hinj hbase hsha
      have hfire : (d.applyTo .w64 base).toOption = some a := hfire
      rw [Outcome.toOption_eq_some, happly, Outcome.ok.injEq] at hfire
      exact hfire ▸ hobj
  · rintro o (ho | ho)
    · exact subset_overlay pack _ (.inl ho)
    · exact overlay_mono Set.subset_union_right ho

/-- The log stands for the objects in `S`: as a whole, and to a reader that resolves each pack
before the next one. -/
structure Holds (C : Crates) (log : List Bytes) (S : Set PackObject) : Prop where
  parses : ∀ pack ∈ log, ∃ r, parse .w64 C pack = .ok r
  objects : ∀ o, Reconstructible C log o ↔ o ∈ S
  deltas : ∀ d ∈ parsedDeltas C log, DeltaWithin C S d
  resolves : EachAfter (fun before pack => ResolvesOver C (inOrder C before) pack) log
  inOrder : inOrder C log = S
  bases : EachAfter (fun before pack => BasesStored C (before ++ [pack]) pack) log

theorem holds_nil (C : Crates) : Holds C [] ∅ where
  parses _ h := absurd h List.not_mem_nil
  objects o := by
    refine iff_of_false (fun ho => ?_) (Set.notMem_empty o)
    induction ho with
    | seed hseed => simp [parsedObjects] at hseed
    | rule hd => simp [parsedDeltas] at hd
  deltas d hd := by simp [parsedDeltas] at hd
  resolves := eachAfter_nil _
  inOrder := rfl
  bases := eachAfter_nil _

theorem Holds.concat (h : Holds C log S) (hpack : ResolvesOver C S pack)
    (hinj : Set.InjOn (PackObject.sha1 C) (overlay C pack S)) :
    Holds C (log ++ [pack]) (overlay C pack S) := by
  have hold : S ⊆ overlay C pack S := subset_overlay pack S
  have hdeltas : ∀ d ∈ parsedDeltas C (log ++ [pack]), DeltaWithin C (overlay C pack S) d := by
    intro d hd
    rcases mem_parsedDeltas_append.mp hd with hd | hd
    · exact (h.deltas d hd).mono hold
    · exact hpack.deltas d hd
  have hobjects (o : PackObject) : Reconstructible C (log ++ [pack]) o ↔ o ∈ overlay C pack S := by
    constructor
    · intro ho
      refine Derived.mem_of_closed ?_ ?_ ho
      · intro a ha
        rcases mem_parsedObjects_append.mp ha with ha | ha
        · exact hold ((h.objects a).mp (.seed ha))
        · exact .seed (.inl ha)
      · -- the base is found by its SHA, and no other object has it
        intro d hd base hbase a hsha hfire
        obtain ⟨obj, hobj, happly⟩ := (hdeltas d hd).applyTo hinj hbase hsha
        have hfire : (d.applyTo .w64 base).toOption = some a := hfire
        rw [Outcome.toOption_eq_some, happly, Outcome.ok.injEq] at hfire
        exact hfire ▸ hobj
    · intro ho
      refine Derived.of_seeds ?_ (parsedDeltas_mono (List.subset_append_right ..)) ho
      rintro a (ha | ha)
      · exact .seed (parsedObjects_mono (List.subset_append_right ..) ha)
      · exact ((h.objects a).mpr ha).mono (List.subset_append_left ..)
  refine ⟨?_, hobjects, hdeltas, ?_, ?_, ?_⟩
  · intro p hp
    rcases List.mem_append.mp hp with hp | hp
    · exact h.parses p hp
    · exact List.mem_singleton.mp hp ▸ hpack.parses
  · exact eachAfter_concat.mpr ⟨h.resolves, h.inOrder ▸ hpack⟩
  · rw [inOrder_concat, h.inOrder]
    rfl
  · refine eachAfter_concat.mpr ⟨h.bases, fun d hd => ?_⟩
    obtain ⟨base, hbase, hsha, -⟩ := hpack.deltas d hd
    exact ⟨base, (hobjects base).mpr hbase, hsha⟩

/-! ## The pack of the service worker -/

theorem overlay_of_carries {bases objects : List PackObject}
    (hcarries : Carries C bases objects pack) (hbases : ∀ b ∈ bases, b ∈ S)
    (hinj : Set.InjOn (PackObject.sha1 C) (S ∪ {o | o ∈ objects})) :
    overlay C pack S = S ∪ {o | o ∈ objects} := by
  apply Set.Subset.antisymm
  · intro o ho
    refine Derived.mem_of_closed ?_ ?_ ho
    · rintro a (ha | ha)
      · exact .inr (hcarries.object ha)
      · exact .inl ha
    · intro d hd base hbase a hsha hfire
      obtain ⟨base', hbase', hsha', obj, hobj, happly⟩ := hcarries.delta hd
      obtain rfl : base' = base :=
        hinj (.inl (hbases base' hbase')) hbase (hsha'.trans hsha.symm)
      have hfire : (d.applyTo .w64 base').toOption = some a := hfire
      rw [Outcome.toOption_eq_some, happly, Outcome.ok.injEq] at hfire
      exact .inr (hfire ▸ hobj)
  · rintro o (ho | ho)
    · exact subset_overlay pack S ho
    · obtain ⟨r, resolved, hr, hdeltas, hperm⟩ := hcarries
      rcases List.mem_append.mp (hperm.mem_iff.mpr ho) with ho | ho
      · exact .seed (.inl ((mem_parsedObjects_singleton hr).mpr ho))
      · obtain ⟨d, hd, base, hbase, hsha, happly⟩ := exists_of_mem_right hdeltas ho
        exact .rule ((mem_parsedDeltas_singleton hr).mpr hd)
          (subset_overlay pack S (hbases base hbase)) hsha (Outcome.toOption_eq_some.mpr happly)

theorem resolvesOver_of_carries {bases objects : List PackObject}
    (hcarries : Carries C bases objects pack) (hbases : ∀ b ∈ bases, b ∈ S)
    (hoverlay : overlay C pack S = S ∪ {o | o ∈ objects}) : ResolvesOver C S pack := by
  constructor
  · obtain ⟨r, -, hr, -⟩ := hcarries
    exact ⟨r, hr⟩
  · intro d hd
    obtain ⟨base, hbase, hsha, obj, hobj, happly⟩ := hcarries.delta hd
    rw [hoverlay]
    exact ⟨base, .inl (hbases base hbase), hsha, obj, .inr hobj, happly⟩

/-- What the service worker makes of an incoming pack gives the objects that the incoming pack
gives by itself. -/
theorem overlay_packData {views : Views} {rest : Bytes} (hC : C.Zlib)
    (hviews : ∀ o, Reconstructible C views.existingPacks o → o ∈ S)
    (hpack : packData C views rest = .ok pack)
    (hinj : Set.InjOn (PackObject.sha1 C) (S ∪ {o | Reconstructible C [rest] o})) :
    ResolvesOver C S pack ∧ overlay C pack S = S ∪ {o | Reconstructible C [rest] o} := by
  obtain ⟨newObjects, bases, filtered, hnew, hpacked⟩ := ServiceWorker.packData_spec hC hpack
  have hmem (o : PackObject) : o ∈ newObjects ↔ Reconstructible C [rest] o :=
    ServiceWorker.incomingObjects_mem_iff hnew (hinj.mono fun _ ho => .inr ho) o
  have hbases : ∀ b ∈ bases, b ∈ S := fun b hb => hviews b (hpacked.basesRead b hb)
  have hsame : S ∪ {o | o ∈ filtered} = S ∪ {o | Reconstructible C [rest] o} := by
    apply Set.Subset.antisymm
    · exact Set.union_subset_union_right _ fun o ho => (hmem o).mp (hpacked.isNew o ho)
    · rintro o (ho | ho)
      · exact .inl ho
      · -- an object that was left out is in `S` by its SHA
        have hread : ∀ b, Reconstructible C views.existingPacks b →
            b ∈ S ∪ {o | Reconstructible C [rest] o} := fun b hb => .inl (hviews b hb)
        rcases hpacked.read_of_injOn hinj hread ((hmem o).mpr ho) (.inr ho) with hkept | hstored
        · exact .inr hkept
        · exact .inl (hviews o hstored)
  have hoverlay : overlay C pack S = S ∪ {o | o ∈ filtered} :=
    overlay_of_carries hpacked.carries hbases (hsame ▸ hinj)
  exact ⟨resolvesOver_of_carries hpacked.carries hbases hoverlay, hoverlay.trans hsame⟩

/-! ## The two servers -/

theorem Holds.collectObjects (h : Holds C log S) (hinj : Set.InjOn (PackObject.sha1 C) S) :
    ∃ pending known, collectObjects C log = .ok (pending, known) ∧
      ∀ o, o ∈ known.objects ↔ o ∈ S := by
  obtain ⟨pending, known, hcollect⟩ := ServiceWorker.collectObjects_ok h.parses
    (fun o ho => (h.objects o).mp (.seed ho))
    (fun d hd base hbase hsha => (h.deltas d hd).applyTo hinj hbase hsha)
  refine ⟨pending, known, hcollect, fun o => ?_⟩
  rw [ServiceWorker.collectObjects_mem_iff hcollect (hinj.mono fun o ho => (h.objects o).mp ho),
    h.objects]

theorem Holds.allObjects (h : Holds C log S) (hinj : Set.InjOn (PackObject.sha1 C) S) :
    ∃ all, GitServer.allObjects C log = .ok all ∧ ∀ o, o ∈ all ↔ o ∈ S := by
  obtain ⟨all, hall, -, hmem⟩ := GitServer.allObjects_mem_iff h.parses hinj
    (fun o ho => (h.objects o).mp (.seed ho))
    (fun d hd base hbase hsha => (h.deltas d hd).applyTo hinj hbase hsha)
  exact ⟨all, hall, fun o => by rw [hmem, h.inOrder]⟩

end NearGit.StoredObjects
