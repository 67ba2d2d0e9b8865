import NearGit.Lib.Closure
import NearGit.Packfile.RoundTrip

/-! Which objects a list of packs stands for, when the deltas of one pack may have their bases
in another. -/

namespace NearGit.Packfile
open Lib

variable {C : Crates}

def deltaRules (C : Crates) : KeyedRules PackObject String UnresolvedDelta where
  key := PackObject.sha1 C
  needs := UnresolvedDelta.baseSha
  fire d base := (d.applyTo .w64 base).toOption

/-- The objects that the packs hold in full, or as deltas on one another inside a pack. -/
def parsedObjects (C : Crates) (packs : List Bytes) : Set PackObject :=
  {o | ∃ pack ∈ packs, ∃ r, parse .w64 C pack = .ok r ∧ o ∈ r.objects}

def parsedDeltas (C : Crates) (packs : List Bytes) : Set UnresolvedDelta :=
  {d | ∃ pack ∈ packs, ∃ r, parse .w64 C pack = .ok r ∧ d ∈ r.deltas}

def Reconstructible (C : Crates) (packs : List Bytes) : PackObject → Prop :=
  Derived (deltaRules C) (parsedObjects C packs) (parsedDeltas C packs)

def ReconstructibleWith (C : Crates) (packs : List Bytes) (objects : Set PackObject) :
    PackObject → Prop :=
  Derived (deltaRules C) (parsedObjects C packs ∪ objects) (parsedDeltas C packs)

def BasesStored (C : Crates) (log : List Bytes) (pack : Bytes) : Prop :=
  ∀ d ∈ parsedDeltas C [pack], ∃ base, Reconstructible C log base ∧ base.sha1 C = d.baseSha

theorem parsedObjects_mono {packs packs' : List Bytes} (h : packs ⊆ packs') :
    parsedObjects C packs ⊆ parsedObjects C packs' :=
  fun _ ⟨pack, hpack, r, hr, ho⟩ => ⟨pack, h hpack, r, hr, ho⟩

theorem parsedDeltas_mono {packs packs' : List Bytes} (h : packs ⊆ packs') :
    parsedDeltas C packs ⊆ parsedDeltas C packs' :=
  fun _ ⟨pack, hpack, r, hr, hd⟩ => ⟨pack, h hpack, r, hr, hd⟩

theorem Reconstructible.mono {packs packs' : List Bytes} (h : packs ⊆ packs') {o : PackObject}
    (ho : Reconstructible C packs o) : Reconstructible C packs' o :=
  Derived.mono (parsedObjects_mono h) (parsedDeltas_mono h) ho

theorem Reconstructible.withObjects {packs : List Bytes} {o : PackObject} (ho : Reconstructible C packs o)
    (objects : Set PackObject) : ReconstructibleWith C packs objects o :=
  Derived.mono Set.subset_union_left (le_refl _) ho

theorem mem_parsedObjects_append {packs packs' : List Bytes} {o : PackObject} :
    o ∈ parsedObjects C (packs ++ packs') ↔
      o ∈ parsedObjects C packs ∨ o ∈ parsedObjects C packs' := by
  simp only [parsedObjects, Set.mem_ofPred_eq, List.mem_append, or_and_right, exists_or]

theorem mem_parsedDeltas_append {packs packs' : List Bytes} {d : UnresolvedDelta} :
    d ∈ parsedDeltas C (packs ++ packs') ↔
      d ∈ parsedDeltas C packs ∨ d ∈ parsedDeltas C packs' := by
  simp only [parsedDeltas, Set.mem_ofPred_eq, List.mem_append, or_and_right, exists_or]

theorem mem_parsedObjects_singleton {pack : Bytes} {r : ParseResult}
    (hr : parse .w64 C pack = .ok r)
    {o : PackObject} : o ∈ parsedObjects C [pack] ↔ o ∈ r.objects := by
  simp [parsedObjects, hr]

theorem mem_parsedDeltas_singleton {pack : Bytes} {r : ParseResult} (hr : parse .w64 C pack = .ok r)
    {d : UnresolvedDelta} : d ∈ parsedDeltas C [pack] ↔ d ∈ r.deltas := by
  simp [parsedDeltas, hr]

/-! ## Object types -/

def ParsedEntry.Typed : ParsedEntry → Prop
  | .object obj => IsObjType obj.objType
  | _ => True

def Resolution.Typed : Resolution → Prop
  | .object obj => IsObjType obj.objType
  | .external _ _ => True

def ParseResult.Typed (r : ParseResult) : Prop := ∀ o ∈ r.objects, IsObjType o.objType

theorem parseEntry_typed {pos used : Nat} {rest : Bytes} {entry : ParsedEntry}
    (h : parseEntry .w64 C pos rest = .ok (entry, used)) : entry.Typed := by
  obtain ⟨⟨typeBits, size, headerUsed⟩, -, h⟩ := Outcome.bind_eq_ok.mp h
  simp only at h
  split at h
  · split_ifs at h
    obtain ⟨_, -, h⟩ := Outcome.bind_eq_ok.mp h
    cases h
    trivial
  · obtain ⟨⟨offset, ofsUsed⟩, -, h⟩ := Outcome.bind_eq_ok.mp h
    split_ifs at h
    obtain ⟨_, -, h⟩ := Outcome.bind_eq_ok.mp h
    cases h
    trivial
  · split at h
    · cases h
    · rename_i objType htype
      obtain ⟨_, -, h⟩ := Outcome.bind_eq_ok.mp h
      cases h
      exact typeFromBits_isObjType htype

theorem parseEntries_typed {n pos : Nat} {rest : Bytes} {entries : List (Nat × ParsedEntry)}
    (h : parseEntries .w64 C n pos rest = .ok entries) : ∀ e ∈ entries, e.2.Typed := by
  induction n generalizing pos rest entries with
  | zero =>
    cases h
    simp
  | succ n ih =>
    rw [parseEntries] at h
    split_ifs at h
    obtain ⟨⟨entry, used⟩, hentry, h⟩ := Outcome.bind_eq_ok.mp h
    obtain ⟨entries', hentries, h⟩ := Outcome.bind_eq_ok.mp h
    cases h
    intro e he
    rcases List.mem_cons.mp he with rfl | he
    · exact parseEntry_typed hentry
    · exact ih hentries e he

theorem Resolution.Typed.stack {delta : Bytes} {base r : Resolution} (hbase : base.Typed)
    (h : base.stack .w64 delta = .ok r) : r.Typed := by
  cases base with
  | object obj =>
    obtain ⟨data, -, h⟩ := Outcome.bind_eq_ok.mp h
    cases h
    exact hbase
  | external baseSha deltas =>
    cases h
    trivial

def CacheTyped (cache : List (Option Resolution)) : Prop :=
  ∀ (i : Nat) (r : Resolution), cache[i]? = some (some r) → r.Typed

theorem CacheTyped.set {cache : List (Option Resolution)} (h : CacheTyped cache) {r : Resolution}
    (hr : r.Typed) (i : Nat) : CacheTyped (cache.set i (some r)) := by
  intro j r' hj
  rw [List.getElem?_set] at hj
  split_ifs at hj with hij hlt
  · cases hj
    exact hr
  · exact h j r' hj

theorem resolve_typed {entries : List (Nat × ParsedEntry)} (hentries : ∀ e ∈ entries, e.2.Typed)
    {depth idx : Nat} {cache cache' : List (Option Resolution)} {r : Resolution}
    (hcache : CacheTyped cache) (h : resolve .w64 entries depth idx cache = .ok (r, cache')) :
    r.Typed ∧ CacheTyped cache' := by
  induction depth generalizing idx cache cache' r with
  | zero => cases h
  | succ depth ih =>
    rw [resolve] at h
    split at h
    · rename_i hcached
      cases h
      exact ⟨hcache idx r hcached, hcache⟩
    · rename_i hentry
      cases h
      have htyped : (Resolution.object _).Typed := hentries _ (List.mem_of_getElem? hentry)
      exact ⟨htyped, hcache.set htyped idx⟩
    · cases h
      have htyped (baseSha : String) (deltas : List Bytes) :
          (Resolution.external baseSha deltas).Typed := trivial
      exact ⟨trivial, hcache.set (htyped _ _) idx⟩
    · split at h
      · cases h
      · obtain ⟨⟨base, cache₁⟩, hbase, h⟩ := Outcome.bind_eq_ok.mp h
        obtain ⟨r', hstack, h⟩ := Outcome.bind_eq_ok.mp h
        cases h
        obtain ⟨hbaseTyped, hcache₁⟩ := ih hcache hbase
        have htyped := hbaseTyped.stack hstack
        exact ⟨htyped, hcache₁.set htyped idx⟩
    · cases h

theorem ParseResult.Typed.push {result result' : ParseResult} {r : Resolution}
    (hresult : result.Typed) (hr : r.Typed) (h : result.push r = .ok result') : result'.Typed := by
  unfold ParseResult.push at h
  split at h
  · cases h
    intro o ho
    rcases List.mem_append.mp ho with ho | ho
    · exact hresult o ho
    · rw [List.mem_singleton.mp ho]
      exact hr
  · cases h
  · cases h
    exact hresult

theorem parse_typed {data : Bytes} {r : ParseResult} (h : parse .w64 C data = .ok r) : r.Typed := by
  unfold parse at h
  split at h
  · simp only at h
    split_ifs at h
    obtain ⟨entries, hentries, h⟩ := Outcome.bind_eq_ok.mp h
    obtain ⟨⟨cache, result⟩, hfold, h⟩ := Outcome.bind_eq_ok.mp h
    cases h
    have htyped := parseEntries_typed hentries
    have hstart : CacheTyped (List.replicate entries.length none) := by
      intro i r hi
      simp [List.getElem?_replicate] at hi
    have hinv : CacheTyped cache ∧ r.Typed := by
      refine foldlM_invariant (P := fun acc => CacheTyped acc.1 ∧ acc.2.Typed) ?_
        ⟨hstart, fun o ho => absurd ho List.not_mem_nil⟩ hfold
      intro acc i acc' hacc hstep
      obtain ⟨⟨r, cache'⟩, hresolve, hstep⟩ := Outcome.bind_eq_ok.mp hstep
      obtain ⟨result', hpush, hstep⟩ := Outcome.bind_eq_ok.mp hstep
      cases hstep
      obtain ⟨hr, hcache'⟩ := resolve_typed htyped hacc.1 hresolve
      exact ⟨hcache', hacc.2.push hr hpush⟩
    exact hinv.2
  · cases h

theorem applyTo_objType {d : UnresolvedDelta} {base o : PackObject}
    (h : d.applyTo .w64 base = .ok o) :
    o.objType = base.objType := by
  obtain ⟨_, -, h⟩ := Outcome.bind_eq_ok.mp h
  obtain ⟨_, -, h⟩ := Outcome.bind_eq_ok.mp h
  cases h
  rfl

theorem Reconstructible.isObjType {packs : List Bytes} {o : PackObject}
    (h : Reconstructible C packs o) : IsObjType o.objType := by
  induction h with
  | seed hseed =>
    obtain ⟨pack, -, r, hr, ho⟩ := hseed
    exact parse_typed hr _ ho
  | rule _ _ _ hfire ih =>
    rw [applyTo_objType (Outcome.toOption_eq_some.mp hfire)]
    exact ih

/-! ## Appending a pack -/

/-- The pack gives `objects` over `bases`, some in full and some as deltas. -/
def Carries (C : Crates) (bases objects : List PackObject) (pack : Bytes) : Prop :=
  ∃ r resolved, parse .w64 C pack = .ok r ∧
    List.Forall₂ (fun (d : UnresolvedDelta) o => ∃ base ∈ bases,
      base.sha1 C = d.baseSha ∧ d.applyTo .w64 base = .ok o) r.deltas resolved ∧
    (r.objects ++ resolved).Perm objects

theorem exists_of_mem_right {α β : Type*} {R : α → β → Prop} {as : List α} {bs : List β}
    (h : List.Forall₂ R as bs) {b : β} (hb : b ∈ bs) : ∃ a ∈ as, R a b := by
  induction h with
  | nil => exact absurd hb List.not_mem_nil
  | cons hab _ ih =>
    rcases List.mem_cons.mp hb with rfl | hb
    · exact ⟨_, List.mem_cons_self .., hab⟩
    · obtain ⟨a, ha, hab⟩ := ih hb
      exact ⟨a, List.mem_cons_of_mem _ ha, hab⟩

theorem exists_of_mem_left {α β : Type*} {R : α → β → Prop} {as : List α} {bs : List β}
    (h : List.Forall₂ R as bs) {a : α} (ha : a ∈ as) : ∃ b ∈ bs, R a b := by
  obtain ⟨b, hb, hab⟩ := exists_of_mem_right h.flip ha
  exact ⟨b, hb, hab⟩

theorem parse_nil (C : Crates) : parse .w64 C [] = .err "packfile too short" := rfl

theorem Carries.ne_nil {bases objects : List PackObject} {pack : Bytes}
    (h : Carries C bases objects pack) : pack ≠ [] := by
  rintro rfl
  obtain ⟨r, -, hr, -⟩ := h
  rw [parse_nil] at hr
  cases hr

theorem Carries.delta {bases objects : List PackObject} {pack : Bytes}
    (h : Carries C bases objects pack) {d : UnresolvedDelta} (hd : d ∈ parsedDeltas C [pack]) :
    ∃ base ∈ bases, base.sha1 C = d.baseSha ∧ ∃ obj ∈ objects, d.applyTo .w64 base = .ok obj := by
  obtain ⟨r, resolved, hr, hdeltas, hperm⟩ := h
  obtain ⟨obj, hobj, base, hbase, hsha, happly⟩ :=
    exists_of_mem_left hdeltas ((mem_parsedDeltas_singleton hr).mp hd)
  exact ⟨base, hbase, hsha, obj, hperm.mem_iff.mp (List.mem_append_right _ hobj), happly⟩

theorem Carries.object {bases objects : List PackObject} {pack : Bytes}
    (h : Carries C bases objects pack) {o : PackObject} (ho : o ∈ parsedObjects C [pack]) :
    o ∈ objects := by
  obtain ⟨r, resolved, hr, -, hperm⟩ := h
  exact hperm.mem_iff.mp (List.mem_append_left _ ((mem_parsedObjects_singleton hr).mp ho))

theorem Carries.basesStored {bases objects : List PackObject} {pack : Bytes} {log : List Bytes}
    (h : Carries C bases objects pack) (hbases : ∀ b ∈ bases, Reconstructible C log b) :
    BasesStored C log pack := by
  intro d hd
  obtain ⟨base, hbase, hsha, -⟩ := h.delta hd
  exact ⟨base, hbases base hbase, hsha⟩

theorem Carries.objects_subset {bases objects : List PackObject} {pack : Bytes}
    (h : Carries C bases objects pack) {packs : List Bytes}
    (hbases : ∀ b ∈ bases, Reconstructible C packs b) {o : PackObject} (ho : o ∈ objects) :
    Reconstructible C (packs ++ [pack]) o := by
  obtain ⟨r, resolved, hr, hdeltas, hperm⟩ := h
  rcases List.mem_append.mp (hperm.mem_iff.mpr ho) with ho | ho
  · exact .seed (mem_parsedObjects_append.mpr (.inr ((mem_parsedObjects_singleton hr).mpr ho)))
  · obtain ⟨d, hd, base, hbase, hsha, happly⟩ := exists_of_mem_right hdeltas ho
    have hbase' : Reconstructible C (packs ++ [pack]) base :=
      (hbases base hbase).mono (List.subset_append_left ..)
    exact .rule (mem_parsedDeltas_append.mpr (.inr ((mem_parsedDeltas_singleton hr).mpr hd)))
      hbase' hsha (Outcome.toOption_eq_some.mpr happly)

/-- What a list of packs stands for once a pack is appended whose bases are among what they
stood for: as if the objects of the pack had been there in full. -/
theorem Carries.reconstructible_append {bases objects : List PackObject} {packs : List Bytes}
    {pack : Bytes} (h : Carries C bases objects pack)
    (hbases : ∀ b ∈ bases, Reconstructible C packs b)
    (hinj : Set.InjOn (PackObject.sha1 C) {o | ReconstructibleWith C packs {o | o ∈ objects} o})
    (o : PackObject) :
    Reconstructible C (packs ++ [pack]) o ↔ ReconstructibleWith C packs {o | o ∈ objects} o := by
  constructor
  · intro ho
    induction ho with
    | seed hseed =>
      rcases mem_parsedObjects_append.mp hseed with hseed | hseed
      · exact .seed (.inl hseed)
      · exact .seed (.inr (h.object hseed))
    | @rule d base o hd _ hkey hfire ih =>
      rcases mem_parsedDeltas_append.mp hd with hd | hd
      · exact .rule hd ih hkey hfire
      · -- the delta was made against one of the bases, and the SHA gives that base back
        obtain ⟨base', hbase', hsha, o', ho', happly⟩ := h.delta hd
        have hderived : ReconstructibleWith C packs {o | o ∈ objects} base' :=
          (hbases base' hbase').withObjects _
        have heq : base' = base := hinj hderived ih (hsha.trans hkey.symm)
        subst heq
        have hfire' : (d.applyTo .w64 base').toOption = some o := hfire
        rw [Outcome.toOption_eq_some, happly, Outcome.ok.injEq] at hfire'
        exact .seed (.inr (hfire' ▸ ho'))
  · intro ho
    refine Derived.of_seeds (fun a ha => ?_) (parsedDeltas_mono (List.subset_append_left ..)) ho
    rcases ha with ha | ha
    · exact .seed (parsedObjects_mono (List.subset_append_left ..) ha)
    · exact h.objects_subset hbases ha

/-! ## Maps from SHA to object -/

def shaMap (C : Crates) (objects : List PackObject) : String → Option PackObject :=
  objects.foldl (fun (map : String → Option PackObject) obj =>
    Function.update map (obj.sha1 C) (some obj)) fun _ => none

theorem shaMap_concat (objects : List PackObject) (obj : PackObject) :
    shaMap C (objects ++ [obj]) =
      Function.update (shaMap C objects) (obj.sha1 C) (some obj) := by
  unfold shaMap
  rw [List.foldl_append]
  rfl

theorem shaMap_eq_some {objects : List PackObject} {sha : String} {obj : PackObject}
    (h : shaMap C objects sha = some obj) : obj ∈ objects ∧ obj.sha1 C = sha := by
  induction objects using List.reverseRecOn with
  | nil => simp [shaMap] at h
  | append_singleton objects o ih =>
    rw [shaMap_concat] at h
    rcases eq_or_ne sha (o.sha1 C) with rfl | hne
    · have hobj : some o = some obj := by simpa using h
      cases hobj
      exact ⟨List.mem_append_right _ (List.mem_singleton_self _), rfl⟩
    · rw [Function.update_of_ne hne] at h
      obtain ⟨hmem, hsha⟩ := ih h
      exact ⟨List.mem_append_left _ hmem, hsha⟩

theorem exists_shaMap_eq {objects : List PackObject} {obj : PackObject} (h : obj ∈ objects) :
    ∃ other, shaMap C objects (obj.sha1 C) = some other := by
  induction objects using List.reverseRecOn with
  | nil => exact absurd h List.not_mem_nil
  | append_singleton objects o ih =>
    rw [shaMap_concat]
    rcases eq_or_ne (obj.sha1 C) (o.sha1 C) with heq | hne
    · exact ⟨o, by rw [heq, Function.update_self]⟩
    · have hne' : obj ≠ o := fun heq => hne (congrArg _ heq)
      have hmem : obj ∈ objects := by simpa [hne'] using h
      obtain ⟨other, hother⟩ := ih hmem
      exact ⟨other, by rw [Function.update_of_ne hne, hother]⟩

end NearGit.Packfile
