import NearGit.Packfile.Reconstruct

/-! The delta resolution loops of the service worker. Its plain objects used as maps are
functions from the SHA here, and an exception is an outcome that is not `ok`. The WASM module reads
packs and applies deltas as git-core does; what its `usize` of 32 bits changes, from declared sizes
and offsets of `2 ^ 31` on, is left to `WasmLib`. -/

namespace NearGit.ServiceWorker
open Lib NearGit.Packfile

/-- `localMap` or `baseMap`, with the array of objects that is filled next to it. -/
structure Known where
  map : String → Option PackObject
  objects : List PackObject

def Known.empty : Known := { map := fun _ => none, objects := [] }

def Known.add (C : Crates) (known : Known) (obj : PackObject) : Known :=
  match known.map (obj.sha1 C) with
  | some _ => known
  | none =>
    { map := Function.update known.map (obj.sha1 C) (some obj), objects := known.objects ++ [obj] }

/-- One run of the `for` loop over the pending deltas, from the last one down: the deltas that
are not spliced out, and what is known then. -/
def resolvePass (C : Crates) : List UnresolvedDelta → Known → Outcome (List UnresolvedDelta × Known)
  | [], known => .ok ([], known)
  | delta :: pending, known => do
    let (pending, known) ← resolvePass C pending known
    match known.map delta.baseSha with
    | none => return (delta :: pending, known)
    | some base =>
      let obj ← delta.applyTo .w64 base
      return (pending, known.add C obj)

/-- The `while (progress && pending.length > 0)` loop; there is progress when a delta has been
spliced out. -/
def resolvePending (C : Crates) (pending : List UnresolvedDelta) (known : Known) :
    Outcome (List UnresolvedDelta × Known) :=
  if pending = [] then .ok ([], known)
  else do
    let (pending', known) ← resolvePass C pending known
    if pending'.length < pending.length then resolvePending C pending' known
    else return (pending', known)
termination_by pending.length

/-- The loop that walks every stored pack: its objects go to what is known, its deltas to the
pending ones. -/
def loadPacks (C : Crates) : List Bytes → List UnresolvedDelta → Known →
    Outcome (List UnresolvedDelta × Known)
  | [], pending, known => .ok (pending, known)
  | packBytes :: packs, pending, known => do
    let p ← parse .w64 C packBytes
    loadPacks C packs (pending ++ p.deltas) (p.objects.foldl (Known.add C) known)

/-- Walk the packs, then resolve: `baseObjects` of `handleReceivePack` and `allObjects` of
`handleUploadPack`. -/
def collectObjects (C : Crates) (packs : List Bytes) : Outcome (List UnresolvedDelta × Known) := do
  let (pending, known) ← loadPacks C packs [] .empty
  resolvePending C pending known

/-! ## What is known -/

variable {C : Crates}

structure Known.Consistent (C : Crates) (known : Known) : Prop where
  mem : ∀ sha obj, known.map sha = some obj → obj ∈ known.objects ∧ obj.sha1 C = sha
  found : ∀ obj ∈ known.objects, ∃ other, known.map (obj.sha1 C) = some other

theorem Known.consistent_empty : Known.empty.Consistent C where
  mem _ _ h := absurd h (by simp [Known.empty])
  found _ h := absurd h List.not_mem_nil

theorem Known.add_cases (known : Known) (obj : PackObject) :
    ((∃ other, known.map (obj.sha1 C) = some other) ∧ known.add C obj = known) ∨
      (known.map (obj.sha1 C) = none ∧ known.add C obj =
        { map := Function.update known.map (obj.sha1 C) (some obj),
          objects := known.objects ++ [obj] }) := by
  unfold Known.add
  rcases h : known.map (obj.sha1 C) with _ | other
  · exact .inr ⟨rfl, rfl⟩
  · exact .inl ⟨⟨other, rfl⟩, rfl⟩

theorem Known.Consistent.add {known : Known} (h : known.Consistent C) (obj : PackObject) :
    (known.add C obj).Consistent C := by
  rcases known.add_cases (C := C) obj with ⟨-, heq⟩ | ⟨hnone, heq⟩
  · rw [heq]
    exact h
  · rw [heq]
    constructor
    · intro sha o ho
      rcases eq_or_ne sha (obj.sha1 C) with rfl | hne
      · have hobj : some obj = some o := by simpa using ho
        cases hobj
        exact ⟨List.mem_append_right _ (List.mem_singleton_self _), rfl⟩
      · have ho : known.map sha = some o := by simpa [hne] using ho
        obtain ⟨hmem, hsha⟩ := h.mem sha o ho
        exact ⟨List.mem_append_left _ hmem, hsha⟩
    · intro o ho
      rcases eq_or_ne (o.sha1 C) (obj.sha1 C) with heq | hne
      · exact ⟨obj, by rw [heq]; exact Function.update_self ..⟩
      · have hne' : o ≠ obj := fun heq => hne (congrArg _ heq)
        have hmem : o ∈ known.objects := by simpa [hne'] using ho
        obtain ⟨other, hother⟩ := h.found o hmem
        exact ⟨other, (Function.update_of_ne hne ..).trans hother⟩

theorem Known.mem_add {known : Known} {obj o : PackObject} (ho : o ∈ (known.add C obj).objects) :
    o ∈ known.objects ∨ o = obj := by
  rcases known.add_cases (C := C) obj with ⟨-, heq⟩ | ⟨-, heq⟩
  · rw [heq] at ho
    exact .inl ho
  · rw [heq] at ho
    simpa using ho

theorem Known.subset_add (known : Known) (obj : PackObject) :
    known.objects ⊆ (known.add C obj).objects := by
  rcases known.add_cases (C := C) obj with ⟨-, heq⟩ | ⟨-, heq⟩
  · rw [heq]
    exact List.Subset.refl _
  · rw [heq]
    exact List.subset_append_left ..

theorem Known.Consistent.exists_sha1_eq {known : Known} (h : known.Consistent C)
    (obj : PackObject) : ∃ o ∈ (known.add C obj).objects, o.sha1 C = obj.sha1 C := by
  rcases known.add_cases (C := C) obj with ⟨⟨other, hother⟩, heq⟩ | ⟨-, heq⟩
  · rw [heq]
    exact ⟨other, h.mem _ _ hother⟩
  · rw [heq]
    exact ⟨obj, List.mem_append_right _ (List.mem_singleton_self _), rfl⟩

/-! ## The loops -/

def Fired (C : Crates) (known : Known) (d : UnresolvedDelta) : Prop :=
  ∃ base ∈ known.objects, base.sha1 C = d.baseSha ∧ ∃ obj, d.applyTo .w64 base = .ok obj ∧
    ∃ o ∈ known.objects, o.sha1 C = obj.sha1 C

theorem Fired.mono {known known' : Known} {d : UnresolvedDelta} (h : Fired C known d)
    (hsub : known.objects ⊆ known'.objects) : Fired C known' d := by
  obtain ⟨base, hbase, hsha, obj, happly, o, ho, hsha'⟩ := h
  exact ⟨base, hsub hbase, hsha, obj, happly, o, hsub ho, hsha'⟩

def ClosedUnder (C : Crates) (pending : List UnresolvedDelta) (S : Set PackObject) : Prop :=
  ∀ d ∈ pending, ∀ base ∈ S, base.sha1 C = d.baseSha →
    ∀ obj, d.applyTo .w64 base = .ok obj → obj ∈ S

/-- What any stretch of a resolution loop does. -/
structure Advances (C : Crates) (pending : List UnresolvedDelta) (known : Known)
    (pending' : List UnresolvedDelta) (known' : Known) : Prop where
  consistent : known'.Consistent C
  subset : known.objects ⊆ known'.objects
  sublist : pending'.Sublist pending
  fired : ∀ d ∈ pending, d ∈ pending' ∨ Fired C known' d
  sound : ∀ S : Set PackObject, ClosedUnder C pending S → (∀ o ∈ known.objects, o ∈ S) →
    ∀ o ∈ known'.objects, o ∈ S

theorem Advances.refl {known : Known} (h : known.Consistent C) (pending : List UnresolvedDelta) :
    Advances C pending known pending known where
  consistent := h
  subset := List.Subset.refl _
  sublist := List.Sublist.refl _
  fired _ hd := .inl hd
  sound _ _ hS := hS

theorem Advances.trans {p₁ p₂ p₃ : List UnresolvedDelta} {k₁ k₂ k₃ : Known}
    (h : Advances C p₁ k₁ p₂ k₂) (h' : Advances C p₂ k₂ p₃ k₃) : Advances C p₁ k₁ p₃ k₃ where
  consistent := h'.consistent
  subset := List.Subset.trans h.subset h'.subset
  sublist := h'.sublist.trans h.sublist
  fired d hd := by
    rcases h.fired d hd with hd | hd
    · exact h'.fired d hd
    · exact .inr (hd.mono h'.subset)
  sound S hS hk := by
    apply h'.sound S (fun d hd => hS d (h.sublist.subset hd))
    exact h.sound S hS hk

theorem Advances.keep {pending rest : List UnresolvedDelta} {known k : Known}
    (h : Advances C pending known rest k) (delta : UnresolvedDelta) :
    Advances C (delta :: pending) known (delta :: rest) k where
  consistent := h.consistent
  subset := h.subset
  sublist := h.sublist.cons_cons delta
  fired d hd := by
    rcases List.mem_cons.mp hd with rfl | hd
    · exact .inl (List.mem_cons_self ..)
    · exact (h.fired d hd).imp_left (List.mem_cons_of_mem _)
  sound S hS := h.sound S fun d hd => hS d (List.mem_cons_of_mem _ hd)

theorem Advances.splice_of {pending rest : List UnresolvedDelta} {known k k' : Known}
    (h : Advances C pending known rest k) {delta : UnresolvedDelta} {base obj : PackObject}
    (hmap : k.map delta.baseSha = some base) (happly : delta.applyTo .w64 base = .ok obj)
    (hcons : k'.Consistent C) (hsub : k.objects ⊆ k'.objects)
    (hmem : ∀ o ∈ k'.objects, o ∈ k.objects ∨ o = obj)
    (hfound : ∃ o ∈ k'.objects, o.sha1 C = obj.sha1 C) :
    Advances C (delta :: pending) known rest k' := by
  obtain ⟨hbase, hsha⟩ := h.consistent.mem _ _ hmap
  refine ⟨hcons, List.Subset.trans h.subset hsub, h.sublist.cons delta, ?_, ?_⟩
  · intro d hd
    rcases List.mem_cons.mp hd with rfl | hd
    · obtain ⟨o, ho, hsha'⟩ := hfound
      exact .inr ⟨base, hsub hbase, hsha, obj, happly, o, ho, hsha'⟩
    · exact (h.fired d hd).imp_right fun hd => hd.mono hsub
  · intro S hS hk o ho
    have hkS : ∀ o ∈ k.objects, o ∈ S :=
      h.sound S (fun d hd => hS d (List.mem_cons_of_mem _ hd)) hk
    rcases hmem o ho with ho | rfl
    · exact hkS o ho
    · exact hS delta (List.mem_cons_self ..) base (hkS base hbase) hsha _ happly

theorem Advances.splice {pending rest : List UnresolvedDelta} {known k : Known}
    (h : Advances C pending known rest k) {delta : UnresolvedDelta} {base obj : PackObject}
    (hmap : k.map delta.baseSha = some base) (happly : delta.applyTo .w64 base = .ok obj) :
    Advances C (delta :: pending) known rest (k.add C obj) :=
  h.splice_of hmap happly (h.consistent.add obj) (k.subset_add obj) (fun _ => Known.mem_add)
    (h.consistent.exists_sha1_eq obj)

/-- A pass advances, and where it splices nothing out, no pending delta has its base. -/
theorem resolvePass_spec {pending pending' : List UnresolvedDelta} {known known' : Known}
    (hcons : known.Consistent C) (h : resolvePass C pending known = .ok (pending', known')) :
    Advances C pending known pending' known' ∧
      (pending'.length = pending.length → known' = known ∧
        ∀ d ∈ pending, known.map d.baseSha = none) := by
  induction pending generalizing pending' known' with
  | nil =>
    cases h
    exact ⟨.refl hcons [], fun _ => ⟨rfl, by simp⟩⟩
  | cons delta pending ih =>
    -- the deltas behind this one have had their turn
    obtain ⟨⟨rest, k⟩, hrest, h⟩ := Outcome.bind_eq_ok.mp h
    obtain ⟨hadv, hstuck⟩ := ih hrest
    have hle : rest.length ≤ pending.length := hadv.sublist.length_le
    rcases hmap : k.map delta.baseSha with _ | base
    · simp only [hmap] at h
      cases h
      refine ⟨hadv.keep delta, fun hlen => ?_⟩
      obtain ⟨rfl, hnone⟩ := hstuck (by simpa using hlen)
      exact ⟨rfl, List.forall_mem_cons.mpr ⟨hmap, hnone⟩⟩
    · simp only [hmap] at h
      obtain ⟨obj, happly, h⟩ := Outcome.bind_eq_ok.mp h
      cases h
      refine ⟨hadv.splice hmap happly, fun hlen => ?_⟩
      rw [List.length_cons] at hlen
      omega

theorem resolvePending_spec {pending pending' : List UnresolvedDelta} {known known' : Known}
    (hcons : known.Consistent C) (h : resolvePending C pending known = .ok (pending', known')) :
    Advances C pending known pending' known' ∧ ∀ d ∈ pending', known'.map d.baseSha = none := by
  induction hn : pending.length using Nat.strong_induction_on generalizing pending known with
  | _ n ih =>
    subst hn
    rw [resolvePending] at h
    split_ifs at h with hnil
    · cases h
      subst hnil
      exact ⟨.refl hcons [], by simp⟩
    · obtain ⟨⟨rest, k⟩, hpass, h⟩ := Outcome.bind_eq_ok.mp h
      obtain ⟨hadv, hstuck⟩ := resolvePass_spec hcons hpass
      simp only at h
      split_ifs at h with hlt
      · obtain ⟨hadv', hnone⟩ := ih _ hlt hadv.consistent h rfl
        exact ⟨hadv.trans hadv', hnone⟩
      · cases h
        -- a pass without progress has left every delta where it was
        have hlen : pending'.length = pending.length :=
          le_antisymm hadv.sublist.length_le (not_lt.mp hlt)
        obtain ⟨rfl, hnone⟩ := hstuck hlen
        exact ⟨hadv, fun d hd => hnone d (hadv.sublist.subset hd)⟩

def AppliesOn (C : Crates) (pending : List UnresolvedDelta) (S : Set PackObject) : Prop :=
  ∀ d ∈ pending, ∀ base ∈ S, base.sha1 C = d.baseSha → ∃ obj ∈ S, d.applyTo .w64 base = .ok obj

theorem AppliesOn.closedUnder {pending : List UnresolvedDelta} {S : Set PackObject}
    (h : AppliesOn C pending S) : ClosedUnder C pending S := by
  intro d hd base hbase hsha obj happly
  obtain ⟨obj', hobj', happly'⟩ := h d hd base hbase hsha
  rw [happly, Outcome.ok.injEq] at happly'
  exact happly' ▸ hobj'

theorem resolvePass_ok {pending : List UnresolvedDelta} {known : Known} {S : Set PackObject}
    (hcons : known.Consistent C) (hS : ∀ o ∈ known.objects, o ∈ S)
    (happlies : AppliesOn C pending S) :
    ∃ pending' known', resolvePass C pending known = .ok (pending', known') := by
  induction pending with
  | nil => exact ⟨[], known, rfl⟩
  | cons delta pending ih =>
    have happlies' : AppliesOn C pending S := fun d hd => happlies d (List.mem_cons_of_mem _ hd)
    obtain ⟨rest, k, hrest⟩ := ih happlies'
    obtain ⟨hadv, -⟩ := resolvePass_spec hcons hrest
    rw [resolvePass, hrest, Outcome.ok_bind]
    rcases hmap : k.map delta.baseSha with _ | base
    · exact ⟨_, _, by simp only [hmap]; rfl⟩
    · obtain ⟨hbase, hsha⟩ := hadv.consistent.mem _ _ hmap
      obtain ⟨obj, -, happly⟩ := happlies delta (List.mem_cons_self ..) base
        (hadv.sound S happlies'.closedUnder hS base hbase) hsha
      exact ⟨_, _, by simp only [hmap, happly]; rfl⟩

theorem resolvePending_ok {pending : List UnresolvedDelta} {known : Known} {S : Set PackObject}
    (hcons : known.Consistent C) (hS : ∀ o ∈ known.objects, o ∈ S)
    (happlies : AppliesOn C pending S) :
    ∃ pending' known', resolvePending C pending known = .ok (pending', known') := by
  induction hn : pending.length using Nat.strong_induction_on generalizing pending known with
  | _ n ih =>
    subst hn
    rw [resolvePending]
    split_ifs with hnil
    · exact ⟨[], known, rfl⟩
    · obtain ⟨rest, k, hpass⟩ := resolvePass_ok hcons hS happlies
      obtain ⟨hadv, -⟩ := resolvePass_spec hcons hpass
      rw [hpass, Outcome.ok_bind]
      simp only
      split_ifs with hlt
      · exact ih _ hlt hadv.consistent (hadv.sound S happlies.closedUnder hS)
          (fun d hd => happlies d (hadv.sublist.subset hd)) rfl
      · exact ⟨rest, k, rfl⟩

/-! ## Walking the packs -/

theorem Known.Consistent.foldl_add {known : Known} (h : known.Consistent C)
    (objs : List PackObject) :
    (objs.foldl (Known.add C) known).Consistent C ∧
      known.objects ⊆ (objs.foldl (Known.add C) known).objects ∧
      (∀ o ∈ (objs.foldl (Known.add C) known).objects, o ∈ known.objects ∨ o ∈ objs) ∧
      ∀ o ∈ objs, ∃ b ∈ (objs.foldl (Known.add C) known).objects, b.sha1 C = o.sha1 C := by
  induction objs generalizing known with
  | nil => exact ⟨h, List.Subset.refl _, fun o ho => .inl ho, by simp⟩
  | cons obj objs ih =>
    obtain ⟨hcons, hsub, hmem, hfound⟩ := ih (h.add obj)
    refine ⟨hcons, List.Subset.trans (known.subset_add obj) hsub, fun o ho => ?_, fun o ho => ?_⟩
    · rcases hmem o ho with ho | ho
      · rcases Known.mem_add ho with ho | rfl
        · exact .inl ho
        · exact .inr (List.mem_cons_self ..)
      · exact .inr (List.mem_cons_of_mem _ ho)
    · rcases List.mem_cons.mp ho with rfl | ho
      · obtain ⟨b, hb, hsha⟩ := h.exists_sha1_eq o
        exact ⟨b, hsub hb, hsha⟩
      · exact hfound o ho

structure Loaded (C : Crates) (packs : List Bytes) (pending : List UnresolvedDelta) (known : Known)
    (pending' : List UnresolvedDelta) (known' : Known) : Prop where
  consistent : known'.Consistent C
  subset : known.objects ⊆ known'.objects
  mem : ∀ o ∈ known'.objects, o ∈ known.objects ∨ o ∈ parsedObjects C packs
  found : ∀ o ∈ parsedObjects C packs, ∃ b ∈ known'.objects, b.sha1 C = o.sha1 C
  pending : ∀ d, d ∈ pending' ↔ d ∈ pending ∨ d ∈ parsedDeltas C packs

theorem loadPacks_spec {packs : List Bytes} {pending pending' : List UnresolvedDelta}
    {known known' : Known} (hcons : known.Consistent C)
    (h : loadPacks C packs pending known = .ok (pending', known')) :
    Loaded C packs pending known pending' known' := by
  induction packs generalizing pending known with
  | nil =>
    cases h
    exact ⟨hcons, List.Subset.refl _, fun o ho => .inl ho, fun o ho => by simp [parsedObjects] at ho,
      fun d => by simp [parsedDeltas]⟩
  | cons pack packs ih =>
    obtain ⟨p, hp, h⟩ := Outcome.bind_eq_ok.mp h
    obtain ⟨hcons', hsub, hmem, hfound⟩ := hcons.foldl_add p.objects
    have hrest := ih hcons' h
    have hobjects (o : PackObject) :
        o ∈ parsedObjects C (pack :: packs) ↔ o ∈ p.objects ∨ o ∈ parsedObjects C packs := by
      rw [← List.singleton_append, mem_parsedObjects_append, mem_parsedObjects_singleton hp]
    have hdeltas (d : UnresolvedDelta) :
        d ∈ parsedDeltas C (pack :: packs) ↔ d ∈ p.deltas ∨ d ∈ parsedDeltas C packs := by
      rw [← List.singleton_append, mem_parsedDeltas_append, mem_parsedDeltas_singleton hp]
    refine ⟨hrest.consistent, List.Subset.trans hsub hrest.subset, fun o ho => ?_, fun o ho => ?_,
      fun d => ?_⟩
    · rw [hobjects]
      rcases hrest.mem o ho with ho | ho
      · exact (hmem o ho).imp_right .inl
      · exact .inr (.inr ho)
    · rcases (hobjects o).mp ho with ho | ho
      · obtain ⟨b, hb, hsha⟩ := hfound o ho
        exact ⟨b, hrest.subset hb, hsha⟩
      · exact hrest.found o ho
    · rw [hrest.pending, List.mem_append, hdeltas, or_assoc]

theorem loadPacks_ok {packs : List Bytes} (hparse : ∀ pack ∈ packs, ∃ r, parse .w64 C pack = .ok r)
    (pending : List UnresolvedDelta) (known : Known) :
    ∃ pending' known', loadPacks C packs pending known = .ok (pending', known') := by
  induction packs generalizing pending known with
  | nil => exact ⟨pending, known, rfl⟩
  | cons pack packs ih =>
    obtain ⟨r, hr⟩ := hparse pack (List.mem_cons_self ..)
    rw [loadPacks, hr, Outcome.ok_bind]
    exact ih (fun p hp => hparse p (List.mem_cons_of_mem _ hp)) _ _

theorem Advances.saturated {seeds : Set PackObject} {rules : Set UnresolvedDelta}
    {pending pending' : List UnresolvedDelta} {known known' : Known}
    (hadv : Advances C pending known pending' known')
    (hnone : ∀ d ∈ pending', known'.map d.baseSha = none)
    (hmem : ∀ o ∈ known.objects, o ∈ seeds)
    (hfound : ∀ o ∈ seeds, ∃ b ∈ known.objects, b.sha1 C = o.sha1 C)
    (hpending : ∀ d, d ∈ pending ↔ d ∈ rules) :
    Saturated (deltaRules C) seeds rules {o | o ∈ known'.objects} := by
  refine ⟨?_, fun o ho => ?_, fun d hd => ?_⟩
  · apply hadv.sound {o | Derived (deltaRules C) seeds rules o}
    · intro d hd base hbase hsha obj happly
      exact .rule ((hpending d).mp hd) hbase hsha (Outcome.toOption_eq_some.mpr happly)
    · exact fun o ho => .seed (hmem o ho)
  · obtain ⟨b, hb, hsha⟩ := hfound o ho
    exact ⟨b, hadv.subset hb, hsha⟩
  · rcases hadv.fired d ((hpending d).mpr hd) with hd | ⟨base, hbase, hsha, obj, happly, o, ho, hsha'⟩
    · -- a delta that is still pending has no base
      refine .inl fun b hb hsha => ?_
      obtain ⟨other, hother⟩ := hadv.consistent.found b hb
      rw [show b.sha1 C = d.baseSha from hsha, hnone d hd] at hother
      cases hother
    · refine .inr ⟨base, hbase, hsha, fun a ha => ⟨o, ho, ?_⟩⟩
      have ha : (d.applyTo .w64 base).toOption = some a := ha
      rw [Outcome.toOption_eq_some, happly, Outcome.ok.injEq] at ha
      exact ha ▸ hsha'

theorem collectObjects_saturated {packs : List Bytes} {pending : List UnresolvedDelta}
    {known : Known} (h : collectObjects C packs = .ok (pending, known)) :
    known.Consistent C ∧
      Saturated (deltaRules C) (parsedObjects C packs) (parsedDeltas C packs)
        {o | o ∈ known.objects} := by
  obtain ⟨⟨pending₀, known₀⟩, hload, h⟩ := Outcome.bind_eq_ok.mp h
  have hloaded := loadPacks_spec Known.consistent_empty hload
  obtain ⟨hadv, hnone⟩ := resolvePending_spec hloaded.consistent h
  have hmem : ∀ o ∈ known₀.objects, o ∈ parsedObjects C packs :=
    fun o ho => (hloaded.mem o ho).resolve_left List.not_mem_nil
  have hpending (d : UnresolvedDelta) : d ∈ pending₀ ↔ d ∈ parsedDeltas C packs := by
    simp [hloaded.pending d]
  exact ⟨hadv.consistent, hadv.saturated hnone hmem hloaded.found hpending⟩

theorem collectObjects_mem_iff {packs : List Bytes} {pending : List UnresolvedDelta}
    {known : Known} (h : collectObjects C packs = .ok (pending, known))
    (hinj : Set.InjOn (PackObject.sha1 C) {o | Reconstructible C packs o}) (o : PackObject) :
    o ∈ known.objects ↔ Reconstructible C packs o :=
  (collectObjects_saturated h).2.mem_iff hinj o

theorem loadPacks_parses {packs : List Bytes} {pending pending' : List UnresolvedDelta}
    {known known' : Known} (h : loadPacks C packs pending known = .ok (pending', known')) :
    ∀ pack ∈ packs, ∃ r, parse .w64 C pack = .ok r := by
  induction packs generalizing pending known with
  | nil => simp
  | cons pack packs ih =>
    obtain ⟨r, hr, h⟩ := Outcome.bind_eq_ok.mp h
    exact List.forall_mem_cons.mpr ⟨⟨r, hr⟩, ih h⟩

theorem collectObjects_applies {packs : List Bytes} {pending : List UnresolvedDelta}
    {known : Known} (h : collectObjects C packs = .ok (pending, known))
    (hinj : Set.InjOn (PackObject.sha1 C) {o | Reconstructible C packs o}) :
    (∀ pack ∈ packs, ∃ r, parse .w64 C pack = .ok r) ∧
      ∀ d ∈ parsedDeltas C packs, ∀ base, Reconstructible C packs base →
        base.sha1 C = d.baseSha →
          ∃ obj, Reconstructible C packs obj ∧ d.applyTo .w64 base = .ok obj := by
  have hmem := collectObjects_mem_iff h hinj
  obtain ⟨⟨pending₀, known₀⟩, hload, h⟩ := Outcome.bind_eq_ok.mp h
  have hloaded := loadPacks_spec Known.consistent_empty hload
  obtain ⟨hadv, hnone⟩ := resolvePending_spec hloaded.consistent h
  refine ⟨loadPacks_parses hload, fun d hd base hbase hsha => ?_⟩
  rcases hadv.fired d ((hloaded.pending d).mpr (.inr hd)) with hstays | ⟨b, hb, hsha', obj, happly, -⟩
  · obtain ⟨other, hother⟩ := hadv.consistent.found base ((hmem base).mpr hbase)
    rw [hsha, hnone d hstays] at hother
    cases hother
  · have heq : b = base := hinj ((hmem b).mp hb) hbase (hsha'.trans hsha.symm)
    subst heq
    exact ⟨obj, .rule hd hbase hsha (Outcome.toOption_eq_some.mpr happly), happly⟩

theorem collectObjects_ok {packs : List Bytes} {S : Set PackObject}
    (hparse : ∀ pack ∈ packs, ∃ r, parse .w64 C pack = .ok r)
    (hobjects : ∀ o ∈ parsedObjects C packs, o ∈ S)
    (hdeltas : ∀ d ∈ parsedDeltas C packs, ∀ base ∈ S, base.sha1 C = d.baseSha →
      ∃ obj ∈ S, d.applyTo .w64 base = .ok obj) :
    ∃ pending known, collectObjects C packs = .ok (pending, known) := by
  obtain ⟨pending, known, hload⟩ := loadPacks_ok hparse [] .empty
  have hloaded := loadPacks_spec Known.consistent_empty hload
  have hS : ∀ o ∈ known.objects, o ∈ S :=
    fun o ho => hobjects o ((hloaded.mem o ho).resolve_left List.not_mem_nil)
  have happlies : AppliesOn C pending S := by
    intro d hd
    exact hdeltas d (((hloaded.pending d).mp hd).resolve_left List.not_mem_nil)
  rw [collectObjects, hload]
  exact resolvePending_ok hloaded.consistent hS happlies

end NearGit.ServiceWorker
