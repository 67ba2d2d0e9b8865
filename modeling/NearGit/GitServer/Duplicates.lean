import NearGit.GitServer.SameRepository

/-! How often `handle_upload_pack` of git-server sends an object. It puts one into its list for each
entry of a pack that stands for one, and takes none out again. -/

namespace NearGit.GitServer
open Lib NearGit.Packfile
open NearGit.ServiceWorker (Known ClosedUnder)

variable {C : Crates}

/-! ## The entries of the packs -/

def parsed (C : Crates) (pack : Bytes) : ParseResult :=
  (parse .w64 C pack).toOption.getD { objects := [], deltas := [] }

/-- The place of an object or of a delta: the pack, and where it is among the objects or the deltas
of that pack. -/
inductive Place
  | object (pack idx : ℕ)
  | delta (pack idx : ℕ)
deriving DecidableEq

def Place.pack : Place → ℕ
  | object pack _ => pack
  | delta pack _ => pack

/-- What is at a place stands for an object; a delta does with a base among what its own pack and
the packs before it give. -/
inductive StandsFor (C : Crates) (packs : List Bytes) : Place → PackObject → Prop
  | object {i j : ℕ} {pack : Bytes} {o : PackObject} : packs[i]? = some pack →
      (parsed C pack).objects[j]? = some o → StandsFor C packs (.object i j) o
  | delta {i k : ℕ} {pack : Bytes} {d : UnresolvedDelta} {base o : PackObject} :
      packs[i]? = some pack → (parsed C pack).deltas[k]? = some d →
      base ∈ inOrder C (packs.take (i + 1)) → base.sha1 C = d.baseSha → d.applyTo .w64 base = .ok o →
      StandsFor C packs (.delta i k) o

def StoredOnce (C : Crates) (packs : List Bytes) : Prop :=
  ∀ p q o, StandsFor C packs p o → StandsFor C packs q o → p = q

theorem parsed_cases (C : Crates) (pack : Bytes) :
    parse .w64 C pack = .ok (parsed C pack) ∨
      (∀ r, parse .w64 C pack ≠ .ok r) ∧ parsed C pack = { objects := [], deltas := [] } := by
  unfold parsed
  cases parse .w64 C pack with
  | ok r => exact .inl rfl
  | err | panic | diverge => exact .inr ⟨by simp, rfl⟩

theorem mem_parsedObjects_iff {pack : Bytes} {o : PackObject} :
    o ∈ parsedObjects C [pack] ↔ o ∈ (parsed C pack).objects := by
  rcases parsed_cases C pack with hr | ⟨hnone, hempty⟩
  · exact mem_parsedObjects_singleton hr
  · simp [parsedObjects, hnone, hempty]

theorem mem_parsedDeltas_iff {pack : Bytes} {d : UnresolvedDelta} :
    d ∈ parsedDeltas C [pack] ↔ d ∈ (parsed C pack).deltas := by
  rcases parsed_cases C pack with hr | ⟨hnone, hempty⟩
  · exact mem_parsedDeltas_singleton hr
  · simp [parsedDeltas, hnone, hempty]

/-! ## The loops, with the places of the deltas -/

/-- What a stretch of the loop does: the deltas of `kept` still wait for their base, those of
`resolved` have given an object, and the others have been given up. -/
structure Resolves (C : Crates) (pending : List (UnresolvedDelta × ℕ)) (merged : Merged)
    (kept : List (UnresolvedDelta × ℕ)) (merged' : Merged) (resolved : List (ℕ × PackObject)) :
    Prop where
  consistent : merged'.known.Consistent C
  objects : merged'.allObjects = merged.allObjects ++ resolved.map Prod.snd
  sublist : kept.Sublist pending
  places : (resolved.map Prod.fst ++ kept.map Prod.snd).Subperm (pending.map Prod.snd)
  handled : ∀ e ∈ pending, e ∈ kept ∨ ∃ base ∈ merged'.allObjects, base.sha1 C = e.1.baseSha ∧
    ∀ o, e.1.applyTo .w64 base = .ok o → (e.2, o) ∈ resolved
  given : ∀ r ∈ resolved, ∃ e ∈ pending, e.2 = r.1 ∧ ∃ base ∈ merged'.allObjects,
    base.sha1 C = e.1.baseSha ∧ e.1.applyTo .w64 base = .ok r.2
  sound : ∀ S : Set PackObject, ClosedUnder C (pending.map Prod.fst) S →
    (∀ o ∈ merged.allObjects, o ∈ S) → ∀ o ∈ merged'.allObjects, o ∈ S

section Resolves
variable {pending rest kept : List (UnresolvedDelta × ℕ)} {merged merged' merged'' : Merged}
  {resolved resolved' : List (ℕ × PackObject)} {e : UnresolvedDelta × ℕ} {base o : PackObject}

theorem Resolves.subset (h : Resolves C pending merged kept merged' resolved) :
    merged.allObjects ⊆ merged'.allObjects := by
  rw [h.objects]
  exact List.subset_append_left ..

theorem Resolves.refl (h : merged.known.Consistent C) (pending : List (UnresolvedDelta × ℕ)) :
    Resolves C pending merged pending merged [] where
  consistent := h
  objects := (List.append_nil _).symm
  sublist := List.Sublist.refl _
  places := List.Subperm.refl _
  handled _ he := .inl he
  given _ hr := absurd hr List.not_mem_nil
  sound _ _ hS := hS

theorem Resolves.trans (h : Resolves C pending merged rest merged' resolved)
    (h' : Resolves C rest merged' kept merged'' resolved') :
    Resolves C pending merged kept merged'' (resolved ++ resolved') where
  consistent := h'.consistent
  objects := by rw [h'.objects, h.objects, List.map_append, List.append_assoc]
  sublist := h'.sublist.trans h.sublist
  places := by
    rw [List.map_append, List.append_assoc]
    exact ((List.subperm_append_left _).mpr h'.places).trans h.places
  handled e he := by
    rcases h.handled e he with he | ⟨base, hbase, hsha, happly⟩
    · refine (h'.handled e he).imp_right ?_
      rintro ⟨base, hbase, hsha, happly⟩
      exact ⟨base, hbase, hsha, fun o ho => List.mem_append_right _ (happly o ho)⟩
    · exact .inr ⟨base, h'.subset hbase, hsha, fun o ho => List.mem_append_left _ (happly o ho)⟩
  given r hr := by
    rcases List.mem_append.mp hr with hr | hr
    · obtain ⟨e, he, hplace, base, hbase, hsha, happly⟩ := h.given r hr
      exact ⟨e, he, hplace, base, h'.subset hbase, hsha, happly⟩
    · obtain ⟨e, he, hplace, hbase⟩ := h'.given r hr
      exact ⟨e, h.sublist.subset he, hplace, hbase⟩
  sound S hS hk := by
    have hsub : rest.map Prod.fst ⊆ pending.map Prod.fst := (h.sublist.map Prod.fst).subset
    exact h'.sound S (fun d hd => hS d (hsub hd)) (h.sound S hS hk)

theorem Resolves.keep (h : Resolves C pending merged kept merged' resolved)
    (e : UnresolvedDelta × ℕ) : Resolves C (e :: pending) merged (e :: kept) merged' resolved where
  consistent := h.consistent
  objects := h.objects
  sublist := h.sublist.cons_cons e
  places := by
    rw [List.map_cons, List.map_cons]
    exact (List.perm_middle.subperm).trans ((List.subperm_cons _).mpr h.places)
  handled e' he' := by
    rcases List.mem_cons.mp he' with rfl | he'
    · exact .inl (List.mem_cons_self ..)
    · exact (h.handled e' he').imp_left (List.mem_cons_of_mem _)
  given r hr := by
    obtain ⟨e', he', h'⟩ := h.given r hr
    exact ⟨e', List.mem_cons_of_mem _ he', h'⟩
  sound S hS := h.sound S fun d hd => hS d (List.mem_cons_of_mem _ hd)

theorem Resolves.giveUp (h : merged.known.Consistent C) (hmap : merged.localMap e.1.baseSha = some base)
    (hfails : ∀ o, e.1.applyTo .w64 base ≠ .ok o) (pending : List (UnresolvedDelta × ℕ)) :
    Resolves C (e :: pending) merged pending merged [] where
  consistent := h
  objects := (List.append_nil _).symm
  sublist := List.sublist_cons_self ..
  places := (List.sublist_cons_self ..).subperm
  handled e' he' := by
    rcases List.mem_cons.mp he' with rfl | he'
    · obtain ⟨hbase, hsha⟩ := h.mem _ _ hmap
      exact .inr ⟨base, hbase, hsha, fun o ho => absurd ho (hfails o)⟩
    · exact .inl he'
  given _ hr := absurd hr List.not_mem_nil
  sound _ _ hS := hS

theorem Resolves.resolve (h : merged.known.Consistent C)
    (hmap : merged.localMap e.1.baseSha = some base) (happly : e.1.applyTo .w64 base = .ok o)
    (pending : List (UnresolvedDelta × ℕ)) :
    Resolves C (e :: pending) merged pending (merged.add C o) [(e.2, o)] := by
  obtain ⟨hbase, hsha⟩ := h.mem _ _ hmap
  have hbase' : base ∈ (merged.add C o).allObjects := List.mem_append_left _ hbase
  refine ⟨Merged.consistent_add h o, rfl, List.sublist_cons_self .., List.Subperm.refl _, ?_, ?_, ?_⟩
  · intro e' he'
    rcases List.mem_cons.mp he' with rfl | he'
    · refine .inr ⟨base, hbase', hsha, fun o' ho' => ?_⟩
      rw [Outcome.ok.inj (happly.symm.trans ho')]
      exact List.mem_singleton_self _
    · exact .inl he'
  · intro r hr
    rw [List.mem_singleton.mp hr]
    exact ⟨e, List.mem_cons_self .., rfl, base, hbase', hsha, happly⟩
  · intro S hS hk o' ho'
    rcases List.mem_append.mp ho' with ho' | ho'
    · exact hk o' ho'
    · rw [List.mem_singleton.mp ho']
      exact hS e.1 (List.mem_cons_self ..) base (hk base hbase) hsha o happly

end Resolves

/-- One `retain`. Without progress nothing is resolved, and what is kept has no base. -/
theorem retainPass_resolves {pending : List (UnresolvedDelta × ℕ)} {merged merged' : Merged}
    {progress progress' : Bool} {left : List UnresolvedDelta} (hcons : merged.known.Consistent C)
    (h : retainPass C (pending.map Prod.fst) progress merged = .ok (left, progress', merged')) :
    ∃ kept resolved, left = kept.map Prod.fst ∧
      Resolves C pending merged kept merged' resolved ∧
      (progress' = false → progress = false ∧ merged' = merged ∧
        ∀ e ∈ kept, merged.localMap e.1.baseSha = none) := by
  induction pending generalizing progress merged left with
  | nil =>
    cases h
    exact ⟨[], [], rfl, .refl hcons [], fun hfalse => ⟨hfalse, rfl, by simp⟩⟩
  | cons e pending ih =>
    rw [List.map_cons, retainPass] at h
    rcases hmap : merged.localMap e.1.baseSha with _ | base
    · simp only [hmap] at h
      obtain ⟨⟨left', progress'', merged''⟩, hpass, heq⟩ := Outcome.bind_eq_ok.mp h
      cases heq
      obtain ⟨kept, resolved, hleft, hres, hstuck⟩ := ih hcons hpass
      refine ⟨e :: kept, resolved, by rw [hleft, List.map_cons], hres.keep e, fun hfalse => ?_⟩
      obtain ⟨hprogress, hsame, hnone⟩ := hstuck hfalse
      exact ⟨hprogress, hsame, List.forall_mem_cons.mpr ⟨hmap, hnone⟩⟩
    · simp only [hmap] at h
      rcases happly : e.1.applyTo .w64 base with o | err | why | _
      · simp only [happly] at h
        obtain ⟨kept, resolved, hleft, hres, hstuck⟩ := ih (Merged.consistent_add hcons o) h
        refine ⟨kept, _, hleft, (Resolves.resolve hcons hmap happly pending).trans hres, ?_⟩
        exact fun hfalse => absurd (hstuck hfalse).1 (by decide)
      · simp only [happly] at h
        obtain ⟨kept, resolved, hleft, hres, hstuck⟩ := ih hcons h
        have hfails : ∀ o, e.1.applyTo .w64 base ≠ .ok o := by simp [happly]
        exact ⟨kept, _, hleft, (Resolves.giveUp hcons hmap hfails pending).trans hres, hstuck⟩
      · simp [happly] at h
      · simp [happly] at h

theorem resolvePending_resolves {pending : List (UnresolvedDelta × ℕ)} {merged merged' : Merged}
    (hcons : merged.known.Consistent C)
    (h : resolvePending C (pending.map Prod.fst) merged = .ok merged') :
    ∃ kept resolved, Resolves C pending merged kept merged' resolved ∧
      ∀ e ∈ kept, merged'.localMap e.1.baseSha = none := by
  induction hn : pending.length using Nat.strong_induction_on generalizing pending merged with
  | _ n ih =>
    subst hn
    rw [resolvePending] at h
    split_ifs at h with hnil
    · cases h
      rw [List.map_eq_nil_iff.mp hnil]
      exact ⟨[], [], .refl hcons [], by simp⟩
    · obtain ⟨⟨left, progress, merged₁⟩, hpass, h⟩ := Outcome.bind_eq_ok.mp h
      obtain ⟨kept, resolved, rfl, hres, hstuck⟩ := retainPass_resolves hcons hpass
      cases progress with
      | false =>
        cases h
        obtain ⟨-, rfl, hnone⟩ := hstuck rfl
        exact ⟨kept, resolved, hres, hnone⟩
      | true =>
        simp only [if_true] at h
        split_ifs at h with hlt
        rw [List.length_map, List.length_map] at hlt
        obtain ⟨kept', resolved', hres', hnone⟩ := ih kept.length hlt hres.consistent h rfl
        exact ⟨kept', _, hres.trans hres', hnone⟩

/-! ## One pack -/

def Merged.start (C : Crates) (objects : List PackObject) : Merged where
  localMap := shaMap C objects
  allObjects := objects

theorem mergePack_eq {all all' : List PackObject} {pack : Bytes}
    (h : mergePack C all pack = .ok all') :
    ∃ merged, resolvePending C (parsed C pack).deltas (.start C (all ++ (parsed C pack).objects)) =
      .ok merged ∧ all' = merged.allObjects := by
  unfold mergePack at h
  split at h
  · next r hr =>
    obtain ⟨merged, hrun, heq⟩ := Outcome.bind_eq_ok.mp h
    cases heq
    have hparsed : parsed C pack = r := by rw [parsed, hr]; rfl
    rw [hparsed]
    exact ⟨merged, hrun, rfl⟩
  · next e he =>
    cases h
    have hparsed : parsed C pack = { objects := [], deltas := [] } := by rw [parsed, he]; rfl
    rw [hparsed]
    exact ⟨.start C (all ++ []), by rw [resolvePending, if_pos rfl], (List.append_nil _).symm⟩
  · cases h
  · cases h

/-- What git-server has after one more pack; `resolved` are the places of the deltas that gave
something. -/
structure Merges (C : Crates) (all : List PackObject) (pack : Bytes) (all' : List PackObject)
    (resolved : List (ℕ × PackObject)) : Prop where
  objects : all' = all ++ (parsed C pack).objects ++ resolved.map Prod.snd
  nodup : (resolved.map Prod.fst).Nodup
  given : ∀ r ∈ resolved, ∃ d, (parsed C pack).deltas[r.1]? = some d ∧
    ∃ base ∈ all', base.sha1 C = d.baseSha ∧ d.applyTo .w64 base = .ok r.2
  saturated : Saturated (deltaRules C) (parsedObjects C [pack] ∪ {o | o ∈ all})
    (parsedDeltas C [pack]) {o | o ∈ all'}
  handled : ∀ k d, (parsed C pack).deltas[k]? = some d → (∀ base ∈ all', base.sha1 C ≠ d.baseSha) ∨
    ∃ base ∈ all', base.sha1 C = d.baseSha ∧ ∀ o, d.applyTo .w64 base = .ok o → (k, o) ∈ resolved

theorem Resolves.nodup {pending kept : List (UnresolvedDelta × ℕ)} {merged merged' : Merged}
    {resolved : List (ℕ × PackObject)} (h : Resolves C pending merged kept merged' resolved)
    (hpending : (pending.map Prod.snd).Nodup) : (resolved.map Prod.fst).Nodup := by
  obtain ⟨l, hperm, hsub⟩ := h.places
  exact List.Nodup.of_append_left (hperm.nodup_iff.mp (hsub.nodup hpending))

theorem exists_merges {all all' : List PackObject} {pack : Bytes}
    (h : mergePack C all pack = .ok all') : ∃ resolved, Merges C all pack all' resolved := by
  obtain ⟨merged, hrun, rfl⟩ := mergePack_eq h
  have hcons : (Merged.start C (all ++ (parsed C pack).objects)).known.Consistent C :=
    ServiceWorker.consistent_shaMap _
  have hzip : (parsed C pack).deltas.zipIdx.map Prod.fst = (parsed C pack).deltas :=
    List.zipIdx_map_fst _ _
  rw [← hzip] at hrun
  obtain ⟨kept, resolved, hres, hnone⟩ := resolvePending_resolves hcons hrun
  have hobjects : merged.allObjects = all ++ (parsed C pack).objects ++ resolved.map Prod.snd :=
    hres.objects
  have hseeds (o : PackObject) : o ∈ all ++ (parsed C pack).objects ↔
      o ∈ parsedObjects C [pack] ∪ {o | o ∈ all} := by
    rw [Set.mem_union, mem_parsedObjects_iff, or_comm]
    exact List.mem_append
  have hhandled : ∀ k d, (parsed C pack).deltas[k]? = some d →
      (∀ base ∈ merged.allObjects, base.sha1 C ≠ d.baseSha) ∨ ∃ base ∈ merged.allObjects,
        base.sha1 C = d.baseSha ∧ ∀ o, d.applyTo .w64 base = .ok o → (k, o) ∈ resolved := by
    intro k d hd
    have hmem : (d, k) ∈ (parsed C pack).deltas.zipIdx := List.mem_zipIdx_iff_getElem?.mpr hd
    refine (hres.handled _ hmem).imp_left fun hkept base hbase hsha => ?_
    -- a delta that is left finds no base in the map
    obtain ⟨other, hother⟩ := hres.consistent.found base hbase
    rw [hsha] at hother
    exact absurd (hother.symm.trans (hnone _ hkept)) (Option.some_ne_none other)
  refine ⟨resolved, hobjects, hres.nodup (List.nodup_zipIdx_map_snd _), ?_, ⟨?_, ?_, ?_⟩, hhandled⟩
  · intro r hr
    obtain ⟨e, he, hplace, hbase⟩ := hres.given r hr
    exact ⟨e.1, hplace ▸ List.mem_zipIdx_iff_getElem?.mp he, hbase⟩
  · refine hres.sound _ (fun d hd base hbase hsha o happly => ?_) fun o ho => .seed ((hseeds o).mp ho)
    rw [hzip] at hd
    exact .rule (mem_parsedDeltas_iff.mpr hd) hbase hsha (Outcome.toOption_eq_some.mpr happly)
  · exact fun o ho => ⟨o, hres.subset ((hseeds o).mpr ho), rfl⟩
  · intro d hd
    obtain ⟨k, hk⟩ := List.mem_iff_getElem?.mp (mem_parsedDeltas_iff.mp hd)
    refine (hhandled k d hk).imp_right ?_
    rintro ⟨base, hbase, hsha, happly⟩
    refine ⟨base, hbase, hsha, fun o hfire => ⟨o, ?_, rfl⟩⟩
    have hmem := List.mem_map_of_mem (f := Prod.snd) (happly o (Outcome.toOption_eq_some.mp hfire))
    exact hobjects ▸ List.mem_append_right _ hmem

/-! ## All packs -/

structure Listed (C : Crates) (packs : List Bytes) (all : List PackObject)
    (entries : List (Place × PackObject)) : Prop where
  objects : entries.map Prod.snd = all
  nodup : (entries.map Prod.fst).Nodup
  stands : ∀ e ∈ entries, StandsFor C packs e.1 e.2
  sound : ∀ o ∈ all, o ∈ inOrder C packs
  complete : Set.InjOn (PackObject.sha1 C) (inOrder C packs) →
    (∀ o ∈ inOrder C packs, o ∈ all) ∧ ∀ p o, StandsFor C packs p o → (p, o) ∈ entries

theorem StandsFor.pack_lt {packs : List Bytes} {p : Place} {o : PackObject}
    (h : StandsFor C packs p o) : p.pack < packs.length := by
  cases h with
  | object hpack => exact (List.getElem?_eq_some_iff.mp hpack).1
  | delta hpack => exact (List.getElem?_eq_some_iff.mp hpack).1

theorem standsFor_concat_iff {packs : List Bytes} {pack : Bytes} {p : Place} {o : PackObject}
    (hp : p.pack < packs.length) :
    StandsFor C (packs ++ [pack]) p o ↔ StandsFor C packs p o := by
  have hget : (packs ++ [pack])[p.pack]? = packs[p.pack]? := List.getElem?_append_left hp
  have htake : (packs ++ [pack]).take (p.pack + 1) = packs.take (p.pack + 1) :=
    List.take_append_of_le_length hp
  constructor
  · intro h
    cases h with
    | object hpack hobject => exact .object (hget ▸ hpack) hobject
    | delta hpack hdelta hbase hsha happly =>
      exact .delta (hget ▸ hpack) hdelta (htake ▸ hbase) hsha happly
  · intro h
    cases h with
    | object hpack hobject => exact .object (hget.trans hpack) hobject
    | delta hpack hdelta hbase hsha happly =>
      exact .delta (hget.trans hpack) hdelta (htake.symm ▸ hbase) hsha happly

def packEntries (n : ℕ) (objects : List PackObject) (resolved : List (ℕ × PackObject)) :
    List (Place × PackObject) :=
  (objects.zipIdx.map fun x => (Place.object n x.2, x.1)) ++
    resolved.map fun r => (Place.delta n r.1, r.2)

section PackEntries
variable {n : ℕ} {objects : List PackObject} {resolved : List (ℕ × PackObject)}

theorem packEntries_objects :
    (packEntries n objects resolved).map Prod.snd = objects ++ resolved.map Prod.snd := by
  simp only [packEntries, List.map_append, List.map_map, Function.comp_def]
  exact congrArg (· ++ resolved.map Prod.snd) (List.zipIdx_map_fst 0 objects)

theorem packEntries_pack {e : Place × PackObject} (he : e ∈ packEntries n objects resolved) :
    e.1.pack = n := by
  rcases List.mem_append.mp he with he | he
  · obtain ⟨x, -, rfl⟩ := List.mem_map.mp he
    rfl
  · obtain ⟨r, -, rfl⟩ := List.mem_map.mp he
    rfl

theorem packEntries_nodup (h : (resolved.map Prod.fst).Nodup) :
    ((packEntries n objects resolved).map Prod.fst).Nodup := by
  have hobjects : (objects.zipIdx.map fun x => Place.object n x.2).Nodup := by
    have hidx := (List.nodup_zipIdx_map_snd objects).map (f := Place.object n)
      fun i j hij => (Place.object.inj hij).2
    rwa [List.map_map] at hidx
  have hdeltas : (resolved.map fun r => Place.delta n r.1).Nodup := by
    have hidx := h.map (f := Place.delta n) fun i j hij => (Place.delta.inj hij).2
    rwa [List.map_map] at hidx
  simp only [packEntries, List.map_append, List.map_map, Function.comp_def]
  refine List.nodup_append.mpr ⟨hobjects, hdeltas, fun p hp q hq heq => ?_⟩
  obtain ⟨x, -, rfl⟩ := List.mem_map.mp hp
  obtain ⟨r, -, rfl⟩ := List.mem_map.mp hq
  cases heq

theorem mem_packEntries_object {j : ℕ} {o : PackObject} :
    (Place.object n j, o) ∈ packEntries n objects resolved ↔ objects[j]? = some o := by
  simp [packEntries, List.mem_zipIdx_iff_getElem?]

theorem mem_packEntries_delta {k : ℕ} {o : PackObject} :
    (Place.delta n k, o) ∈ packEntries n objects resolved ↔ (k, o) ∈ resolved := by
  simp [packEntries]

end PackEntries

/-! ### One more pack -/

section Concat
variable {packs : List Bytes} {pack : Bytes} {all all' : List PackObject}
  {entries : List (Place × PackObject)} {resolved : List (ℕ × PackObject)}

theorem take_concat (packs : List Bytes) (pack : Bytes) :
    (packs ++ [pack]).take (packs.length + 1) = packs ++ [pack] :=
  List.take_of_length_le (by simp)

theorem inOrder_subset_concat (packs : List Bytes) (pack : Bytes) :
    inOrder C packs ⊆ inOrder C (packs ++ [pack]) := by
  rw [inOrder_concat]
  exact fun o ho => .seed (.inr ho)

theorem Listed.sound_concat (h : Listed C packs all entries)
    (hmerges : Merges C all pack all' resolved) : ∀ o ∈ all', o ∈ inOrder C (packs ++ [pack]) := by
  intro o ho
  rw [inOrder_concat]
  exact Derived.mono (Set.union_subset_union_right _ h.sound) (le_refl _)
    (hmerges.saturated.sound o ho)

theorem Listed.nodup_concat (h : Listed C packs all entries)
    (hmerges : Merges C all pack all' resolved) :
    ((entries ++ packEntries packs.length (parsed C pack).objects resolved).map Prod.fst).Nodup := by
  rw [List.map_append]
  refine List.nodup_append.mpr ⟨h.nodup, packEntries_nodup hmerges.nodup, fun p hp q hq heq => ?_⟩
  obtain ⟨e, he, rfl⟩ := List.mem_map.mp hp
  obtain ⟨e', he', rfl⟩ := List.mem_map.mp hq
  have hinside : e.1.pack < packs.length := (h.stands e he).pack_lt
  exact absurd (packEntries_pack he') (heq ▸ hinside.ne)

theorem Listed.stands_concat (h : Listed C packs all entries)
    (hmerges : Merges C all pack all' resolved) :
    ∀ e ∈ entries ++ packEntries packs.length (parsed C pack).objects resolved,
      StandsFor C (packs ++ [pack]) e.1 e.2 := by
  have hlast : (packs ++ [pack])[packs.length]? = some pack := List.getElem?_concat_length
  intro e he
  rcases List.mem_append.mp he with he | he
  · have hstands := h.stands e he
    exact (standsFor_concat_iff hstands.pack_lt).mpr hstands
  rcases List.mem_append.mp he with he | he
  · obtain ⟨x, hx, rfl⟩ := List.mem_map.mp he
    exact .object hlast (List.mem_zipIdx_iff_getElem?.mp hx)
  · obtain ⟨r, hr, rfl⟩ := List.mem_map.mp he
    obtain ⟨d, hd, base, hbase, hsha, happly⟩ := hmerges.given r hr
    have hbase' := h.sound_concat hmerges base hbase
    exact .delta hlast hd ((take_concat packs pack).symm ▸ hbase') hsha happly

theorem Listed.mem_concat_iff (h : Listed C packs all entries)
    (hmerges : Merges C all pack all' resolved)
    (hinj : Set.InjOn (PackObject.sha1 C) (inOrder C (packs ++ [pack]))) (o : PackObject) :
    o ∈ all' ↔ o ∈ inOrder C (packs ++ [pack]) := by
  obtain ⟨hall, -⟩ := h.complete (hinj.mono (inOrder_subset_concat packs pack))
  have hbefore : {o | o ∈ all} = inOrder C packs :=
    Set.Subset.antisymm (fun o => h.sound o) fun o => hall o
  have hsat := hmerges.saturated
  rw [hbefore] at hsat
  rw [inOrder_concat] at hinj ⊢
  exact hsat.mem_iff hinj o

/-- A delta of the last pack is given what its base gives, once SHA-1 names that base alone. -/
theorem Listed.complete_concat (h : Listed C packs all entries)
    (hmerges : Merges C all pack all' resolved)
    (hinj : Set.InjOn (PackObject.sha1 C) (inOrder C (packs ++ [pack]))) {p : Place}
    {o : PackObject} (hp : StandsFor C (packs ++ [pack]) p o) :
    (p, o) ∈ entries ++ packEntries packs.length (parsed C pack).objects resolved := by
  have hlast : (packs ++ [pack])[packs.length]? = some pack := List.getElem?_concat_length
  obtain ⟨-, hentries⟩ := h.complete (hinj.mono (inOrder_subset_concat packs pack))
  rcases Nat.lt_succ_iff_lt_or_eq.mp (List.length_append ▸ hp.pack_lt) with hlt | heq
  · exact List.mem_append_left _ (hentries p o ((standsFor_concat_iff hlt).mp hp))
  · apply List.mem_append_right
    cases hp with
    | object hpack hobject =>
      cases heq
      cases hlast.symm.trans hpack
      exact mem_packEntries_object.mpr hobject
    | @delta i k pack' d base o hpack hdelta hbase hsha happly =>
      cases heq
      cases hlast.symm.trans hpack
      rw [take_concat] at hbase
      apply mem_packEntries_delta.mpr
      rcases hmerges.handled k d hdelta with hnone | ⟨base', hbase', hsha', hgives⟩
      · exact absurd hsha (hnone base ((h.mem_concat_iff hmerges hinj base).mpr hbase))
      · have hsame := hinj (h.sound_concat hmerges base' hbase') hbase (hsha'.trans hsha.symm)
        rw [hsame] at hgives
        exact hgives o happly

theorem Listed.concat (h : Listed C packs all entries)
    (hmerges : Merges C all pack all' resolved) :
    Listed C (packs ++ [pack]) all'
      (entries ++ packEntries packs.length (parsed C pack).objects resolved) where
  objects := by
    rw [List.map_append, h.objects, packEntries_objects, hmerges.objects, List.append_assoc]
  nodup := h.nodup_concat hmerges
  stands := h.stands_concat hmerges
  sound := h.sound_concat hmerges
  complete hinj := ⟨fun o ho => (h.mem_concat_iff hmerges hinj o).mpr ho,
    fun _ _ hp => h.complete_concat hmerges hinj hp⟩

end Concat

theorem exists_listed {packs : List Bytes} {all : List PackObject}
    (h : allObjects C packs = .ok all) : ∃ entries, Listed C packs all entries := by
  induction packs using List.reverseRecOn generalizing all with
  | nil =>
    cases h
    have hnowhere : ∀ p o, ¬ StandsFor C [] p o := fun p o hp => Nat.not_lt_zero _ hp.pack_lt
    refine ⟨[], rfl, List.nodup_nil, by simp, by simp, fun _ => ⟨by simp [inOrder], ?_⟩⟩
    exact fun p o hp => absurd hp (hnowhere p o)
  | append_singleton packs pack ih =>
    rw [allObjects, List.foldlM_append, ← allObjects] at h
    obtain ⟨before, hbefore, hmerge⟩ := Outcome.bind_eq_ok.mp h
    rw [List.foldlM_cons] at hmerge
    obtain ⟨after, hafter, hdone⟩ := Outcome.bind_eq_ok.mp hmerge
    cases hdone
    obtain ⟨entries, hlisted⟩ := ih hbefore
    obtain ⟨resolved, hmerges⟩ := exists_merges hafter
    exact ⟨_, hlisted.concat hmerges⟩

/-! ## Objects sent once -/

theorem Listed.nodup_of_storedOnce {packs : List Bytes} {all : List PackObject}
    {entries : List (Place × PackObject)} (h : Listed C packs all entries)
    (honce : StoredOnce C packs) : all.Nodup := by
  rw [← h.objects]
  refine List.Nodup.map_on (fun e he e' he' heq => ?_) (List.Nodup.of_map _ h.nodup)
  exact Prod.ext (honce _ _ _ (h.stands e he) (heq ▸ h.stands e' he')) heq

theorem Listed.storedOnce_of_nodup {packs : List Bytes} {all : List PackObject}
    {entries : List (Place × PackObject)} (h : Listed C packs all entries)
    (hinj : Set.InjOn (PackObject.sha1 C) (inOrder C packs)) (hnodup : all.Nodup) :
    StoredOnce C packs := by
  intro p q o hp hq
  rw [← h.objects] at hnodup
  have hentries := (h.complete hinj).2
  exact congrArg Prod.fst
    (List.inj_on_of_nodup_map hnodup (hentries p o hp) (hentries q o hq) rfl)

/-- The response holds each object once exactly if no object is stored twice; that nothing is sent
twice then does not depend on SHA-1. -/
theorem upload_sends_once_iff (C : Crates) (packs : List Bytes) (pack : Bytes)
    (hok : handleUploadPack C packs = .ok pack) :
    ∃ all, allObjects C packs = .ok all ∧ build .w64 C all = .ok pack ∧
      (C.Zlib → all.length < 2 ^ 32 → (∀ o ∈ all, o.data.length < 2 ^ 32) →
        parse .w64 C pack = .ok { objects := all.mergeSort sortsBefore, deltas := [] }) ∧
      (StoredOnce C packs → all.Nodup) ∧
      (Set.InjOn (PackObject.sha1 C) (inOrder C packs) → all.Nodup → StoredOnce C packs) := by
  obtain ⟨all, hall, hbuild⟩ := Outcome.bind_eq_ok.mp hok
  obtain ⟨entries, hlisted⟩ := exists_listed hall
  refine ⟨all, hall, hbuild, fun hC hcount hsizes => ?_, hlisted.nodup_of_storedOnce,
    hlisted.storedOnce_of_nodup⟩
  have htypes : ∀ o ∈ all, IsObjType o.objType := fun o ho =>
    Reconstructible.isObjType (inOrder_subset packs (hlisted.sound o ho))
  obtain ⟨pack', hbuild', hparse⟩ := parse_build hC hcount hsizes htypes
  rw [Outcome.ok.inj (hbuild.symm.trans hbuild')]
  exact hparse

/-! ## A blob in two packs -/

open NearGit.ServiceWorker (storedPack parse_storedPack)

theorem allObjects_twice :
    allObjects referenceCrates [storedPack, storedPack] = .ok [sampleBlob 40 1, sampleBlob 40 1] := by
  have hmerge (all : List PackObject) :
      mergePack referenceCrates all storedPack = .ok (all ++ [sampleBlob 40 1]) := by
    simp only [mergePack, parse_storedPack]
    rw [resolvePending, if_pos rfl]
    rfl
  rw [allObjects, List.foldlM_cons, hmerge, Outcome.ok_bind, List.foldlM_cons, hmerge]
  rfl

theorem build_twice : ∃ pack,
    build .w64 referenceCrates [sampleBlob 40 1, sampleBlob 40 1] = .ok pack ∧
    parse .w64 referenceCrates pack =
      .ok { objects := [sampleBlob 40 1, sampleBlob 40 1].mergeSort sortsBefore, deltas := [] } :=
  parse_build referenceCrates_zlib (by decide) (by decide) (by decide)

theorem upload_twice : ∃ pack, handleUploadPack referenceCrates [storedPack, storedPack] = .ok pack ∧
    build .w64 referenceCrates [sampleBlob 40 1, sampleBlob 40 1] = .ok pack := by
  obtain ⟨pack, hbuild, -⟩ := build_twice
  refine ⟨pack, ?_, hbuild⟩
  rw [handleUploadPack, allObjects_twice, Outcome.ok_bind, hbuild]

theorem blob_sent_twice : ∃ pack r,
    handleUploadPack referenceCrates [storedPack, storedPack] = .ok pack ∧
      parse .w64 referenceCrates pack = .ok r ∧ ¬ r.objects.Nodup := by
  obtain ⟨pack, hok, hbuild⟩ := upload_twice
  obtain ⟨pack', hbuild', hparse⟩ := build_twice
  cases hbuild.symm.trans hbuild'
  refine ⟨pack, _, hok, hparse, fun hnodup => ?_⟩
  have hperm := List.mergeSort_perm [sampleBlob 40 1, sampleBlob 40 1] sortsBefore
  exact absurd (hperm.nodup_iff.mp hnodup) (by simp)

theorem upload_sends_once_iff_twice : ∃ pack all,
    handleUploadPack referenceCrates [storedPack, storedPack] = .ok pack ∧
      allObjects referenceCrates [storedPack, storedPack] = .ok all ∧
      build .w64 referenceCrates all = .ok pack ∧
      (StoredOnce referenceCrates [storedPack, storedPack] → all.Nodup) := by
  obtain ⟨pack, hok, -⟩ := upload_twice
  obtain ⟨all, hall, hbuild, -, honce, -⟩ :=
    upload_sends_once_iff referenceCrates [storedPack, storedPack] pack hok
  exact ⟨pack, all, hok, hall, hbuild, honce⟩

end NearGit.GitServer
