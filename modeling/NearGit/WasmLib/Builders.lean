import NearGit.Lib.Base64
import NearGit.Packfile.Reconstruct
import NearGit.ServiceWorker.ReceivePack

/-! The pack functions of the WASM module: packs from JSON texts, and what a pack holds as JSON. -/

namespace NearGit.WasmLib
open Lib NearGit.Packfile

/-! ## JSON values -/

/-- `serde_json::Value`. -/
inductive Json
  | null
  | bool (b : Bool)
  | number (text : String)
  | string (text : String)
  | array (values : List Json)
  | object (entries : List (String × Json))

/-- `v[key]`, which is null where there is nothing under the key. -/
def Json.index : Json → String → Json
  | .object entries, key => (entries.lookup key).getD .null
  | _, _ => .null

def Json.asStr : Json → Option String
  | .string text => some text
  | _ => none

/-- A `Vec<Value>`. The lengths of a vector and of a text are at most `isize::MAX`. -/
structure JsonArray where
  values : List Json
  values_lt : values.length < 2 ^ 31
  text_lt : ∀ v ∈ values, ∀ key text, v.index key = .string text → text.toList.length < 2 ^ 31

/-- What is used of the crate `serde_json`: the array a text stands for, or the error. -/
structure SerdeJson where
  fromStr : String → Except String JsonArray

/-! ## The builders -/

def packObject (obj : Json) : PackObject where
  objType := (obj.index "obj_type").asStr.getD "blob"
  data :=
    let dataB64 := (obj.index "data").asStr.getD ""
    -- `unwrap_or_default`
    (Base64.decodeStandard dataB64).getD []

def parseObjects (S : SerdeJson) (json : String) : Outcome (List PackObject) := do
  let values ← Outcome.ofExcept id (S.fromStr json)
  return values.values.map packObject

def buildPackfile (S : SerdeJson) (C : Crates) (objectsJson : String) : Outcome Bytes := do
  let objects ← parseObjects S objectsJson
  buildWithBases .w32 C objects []

def buildPackfileWithBases (S : SerdeJson) (C : Crates) (objectsJson basesJson : String) :
    Outcome Bytes := do
  let objects ← parseObjects S objectsJson
  let bases ← parseObjects S basesJson
  buildWithBases .w32 C objects bases

/-! ## Reading a pack -/

def objectJson (obj : PackObject) : Json :=
  .object [("obj_type", .string obj.objType), ("data", .string (Base64.encode obj.data))]

def deltaJson (d : UnresolvedDelta) : Json :=
  .object [("base_sha", .string d.baseSha),
    ("delta_data", .string (Base64.encode d.deltaData)),
    ("chain", .array (d.chain.map fun c => .string (Base64.encode c)))]

def resultJson (result : ParseResult) : Json :=
  .object [("objects", .array (result.objects.map objectJson)),
    ("deltas", .array (result.deltas.map deltaJson))]

/-- `parse_packfile`, up to the text that is made of the value. -/
def parsePackfile (W : Usize) (C : Crates) (data : Bytes) : Outcome Json := do
  let result ← parse W C data
  return resultJson result

/-! ## What the values stand for -/

structure Json.IsObject (v : Json) (obj : PackObject) : Prop where
  objType : v.index "obj_type" = .string obj.objType
  isObjType : IsObjType obj.objType
  data : ∃ text, v.index "data" = .string text ∧ Base64.decodeStandard text = some obj.data

def SerdeJson.Describes (S : SerdeJson) (json : String) (objects : List PackObject) : Prop :=
  ∃ array, S.fromStr json = .ok array ∧ List.Forall₂ Json.IsObject array.values objects

theorem Json.IsObject.packObject_eq {v : Json} {obj : PackObject} (h : v.IsObject obj) :
    packObject v = obj := by
  obtain ⟨text, htext, hdata⟩ := h.data
  have htype : (packObject v).objType = obj.objType := by
    rw [packObject, h.objType]
    rfl
  have hbytes : (packObject v).data = obj.data := by
    rw [packObject, htext]
    exact congrArg (fun d => Option.getD d []) hdata
  exact PackObject.mk.injEq .. ▸ ⟨htype, hbytes⟩

theorem SerdeJson.Describes.parseObjects_eq {S : SerdeJson} {json : String}
    {objects : List PackObject} (h : S.Describes json objects) :
    parseObjects S json = .ok objects := by
  obtain ⟨array, harray, hvalues⟩ := h
  have hobjects : array.values.map packObject = objects := by
    rw [← List.forall₂_eq_eq_eq, List.forall₂_map_left_iff]
    exact hvalues.imp fun v obj hobj => hobj.packObject_eq
  rw [parseObjects, harray, ← hobjects]
  rfl

theorem parseObjects_eq_err {S : SerdeJson} {json e : String} :
    parseObjects S json = .err e ↔ S.fromStr json = .error e := by
  rw [parseObjects]
  cases S.fromStr json with
  | error e' =>
    change Outcome.err e' = .err e ↔ _
    rw [Outcome.err.injEq, Except.error.injEq]
  | ok array => exact iff_of_false (fun h => by cases h) (fun h => by cases h)

theorem parseObjects_answers (S : SerdeJson) (json : String) :
    (∃ objects, parseObjects S json = .ok objects) ∨ ∃ e, parseObjects S json = .err e := by
  rw [parseObjects]
  cases S.fromStr json with
  | error e => exact .inr ⟨e, rfl⟩
  | ok array => exact .inl ⟨_, rfl⟩

structure Buildable (objects : List PackObject) : Prop where
  length_lt : objects.length < 2 ^ 32
  data_lt : ∀ o ∈ objects, o.data.length < 2 ^ 31
  isObjType : ∀ o ∈ objects, IsObjType o.objType

theorem Buildable.fits {objects : List PackObject} (h : Buildable objects) :
    ServiceWorker.Fits objects :=
  ⟨h.length_lt, fun o ho => (h.data_lt o ho).trans (by decide)⟩

theorem buildable_nil : Buildable [] where
  length_lt := by decide
  data_lt o ho := absurd ho List.not_mem_nil
  isObjType o ho := absurd ho List.not_mem_nil

theorem SerdeJson.Describes.buildable {S : SerdeJson} {json : String} {objects : List PackObject}
    (h : S.Describes json objects) : Buildable objects := by
  obtain ⟨array, -, hvalues⟩ := h
  have hof {o : PackObject} (ho : o ∈ objects) : ∃ v ∈ array.values, v.IsObject o :=
    exists_of_mem_right hvalues ho
  refine ⟨?_, fun o ho => ?_, fun o ho => ?_⟩
  · have hlt := array.values_lt
    rw [← hvalues.length_eq]
    omega
  · obtain ⟨v, hv, hobj⟩ := hof ho
    obtain ⟨text, htext, hdata⟩ := hobj.data
    have hlt := array.text_lt v hv "data" text htext
    have hle := Base64.length_le_of_decodeStandard hdata
    omega
  · obtain ⟨v, -, hobj⟩ := hof ho
    exact hobj.isObjType

/-! ## The products of the first pass -/

def IsLarge (obj : PackObject) : Prop := 2 ^ 32 ≤ obj.data.length * 9

/-- No large object has a base of its type, or shares its type with another large object. -/
def ProductsFit (objects bases : List PackObject) : Prop :=
  (∀ o ∈ objects, IsLarge o → ∀ base ∈ bases, base.objType ≠ o.objType) ∧
    objects.Pairwise fun a b => IsLarge a → IsLarge b → a.objType ≠ b.objType

/-- No large object of `objs` meets an object of its type among the candidates or before it. -/
def FitsAfter (candidates objs : List PackObject) : Prop :=
  (∀ o ∈ objs, IsLarge o → ∀ base ∈ candidates, base.objType ≠ o.objType) ∧
    objs.Pairwise fun a b => IsLarge b → a.objType ≠ b.objType

theorem fitsAfter_cons {candidates objs : List PackObject} {obj : PackObject} :
    FitsAfter candidates (obj :: objs) ↔
      (IsLarge obj → ∀ base ∈ candidates, base.objType ≠ obj.objType) ∧
        FitsAfter (obj :: candidates) objs := by
  rw [FitsAfter, FitsAfter, List.pairwise_cons]
  simp only [List.forall_mem_cons, forall_and]
  tauto

/-- In the sorted list the object before is at least as long as the object it is a candidate
for. -/
theorem fitsAfter_sorted {objects bases : List PackObject} :
    FitsAfter bases (objects.mergeSort sortsBefore) ↔ ProductsFit objects bases := by
  have hperm : (objects.mergeSort sortsBefore).Perm objects := List.mergeSort_perm _ _
  have hsorted := pairwise_mergeSort_sortsBefore objects
  -- the condition on pairs has to be symmetric to be carried to the order of the objects
  have hpairs : ((objects.mergeSort sortsBefore).Pairwise fun a b =>
        IsLarge b → a.objType ≠ b.objType) ↔
      objects.Pairwise fun a b => IsLarge a → IsLarge b → a.objType ≠ b.objType := by
    rw [← hperm.pairwise_iff fun h hb ha => (h ha hb).symm]
    constructor
    · exact List.Pairwise.imp fun h _ hb => h hb
    · intro h
      refine hsorted.imp₂ (fun a b hab h hb htype => ?_) h
      have hlen : b.data.length ≤ a.data.length := by
        rcases hab with hlt | ⟨-, hlen⟩
        · exact absurd htype hlt.ne
        · exact hlen
      exact h (hb.trans (Nat.mul_le_mul_right 9 hlen)) hb htype
  rw [FitsAfter, ProductsFit, hpairs]
  simp only [hperm.mem_iff]

section Products
variable {C : Crates} {obj : PackObject} {candidates objs : List PackObject}
  {basesByType : String → List PackObject} {lastByType : String → Option Nat}
  {entries : List BuildEntry}

theorem offer_w32_of_large (h : IsLarge obj) (best : BestDelta) (delta : Bytes)
    (baseSha : Option String) (ofsIdx : Option Nat) :
    best.offer .w32 obj.data.length delta baseSha ofsIdx = .panic .mulOverflow := by
  have hmul : Usize.w32.mul obj.data.length 9 = .panic .mulOverflow := Usize.mul_of_le h
  rw [BestDelta.offer, hmul, Outcome.panic_bind]

theorem offer_w32_eq (h : ¬ IsLarge obj) (best : BestDelta) (delta : Bytes)
    (baseSha : Option String) (ofsIdx : Option Nat) :
    best.offer .w32 obj.data.length delta baseSha ofsIdx =
      best.offer .w64 obj.data.length delta baseSha ofsIdx := by
  have hlt : obj.data.length * 9 < 2 ^ 32 := not_le.mp h
  have h32 : Usize.w32.mul obj.data.length 9 = .ok (obj.data.length * 9) := Usize.mul_of_lt hlt
  have h64 : Usize.w64.mul obj.data.length 9 = .ok (obj.data.length * 9) :=
    Usize.mul_of_lt (hlt.trans (by decide))
  rw [BestDelta.offer, BestDelta.offer, h32, h64]

/-- The state of the loop: an object of some type is among the candidates exactly if there is a
base of the type or an entry of it so far. -/
structure Offers (candidates : List PackObject) (basesByType : String → List PackObject)
    (lastByType : String → Option Nat) (entries : List BuildEntry) : Prop where
  iff : ∀ objType, (∃ base ∈ candidates, base.objType = objType) ↔
    basesByType objType ≠ [] ∨ ∃ j, lastByType objType = some j
  lt : ∀ objType j, lastByType objType = some j → j < entries.length

theorem Offers.step (h : Offers candidates basesByType lastByType entries) (obj : PackObject)
    (entry : BuildEntry) : Offers (obj :: candidates) basesByType
      (Function.update lastByType obj.objType (some entries.length)) (entries ++ [entry]) where
  iff objType := by
    rcases eq_or_ne objType obj.objType with rfl | hne
    · simp
    · rw [Function.update_of_ne hne, ← h.iff]
      simp [hne.symm]
  lt objType j hj := by
    rw [List.length_append, List.length_singleton]
    rcases eq_or_ne objType obj.objType with rfl | hne
    · rw [Function.update_self, Option.some.injEq] at hj
      omega
    · rw [Function.update_of_ne hne] at hj
      exact (h.lt objType j hj).trans (Nat.lt_succ_self _)

theorem Offers.none_of_large (h : Offers candidates basesByType lastByType entries)
    (hfit : ∀ base ∈ candidates, base.objType ≠ obj.objType) :
    basesByType obj.objType = [] ∧ lastByType obj.objType = none := by
  have hnone : ¬ (basesByType obj.objType ≠ [] ∨ ∃ j, lastByType obj.objType = some j) := by
    rw [← h.iff]
    rintro ⟨base, hbase, htype⟩
    exact hfit base hbase htype
  rw [not_or, not_not, not_exists] at hnone
  exact ⟨hnone.1, Option.eq_none_iff_forall_ne_some.mpr hnone.2⟩

theorem planEntries_w32_eq (h : Offers candidates basesByType lastByType entries)
    (hfit : FitsAfter candidates objs) :
    planEntries .w32 C basesByType objs lastByType entries =
      planEntries .w64 C basesByType objs lastByType entries := by
  induction objs generalizing candidates lastByType entries with
  | nil => rfl
  | cons obj objs ih =>
    obtain ⟨hobj, hrest⟩ := fitsAfter_cons.mp hfit
    have hoffers : offerBases .w32 C (basesByType obj.objType) obj =
          offerBases .w64 C (basesByType obj.objType) obj ∧
        ∀ best, offerPrevious .w32 entries (lastByType obj.objType) obj best =
          offerPrevious .w64 entries (lastByType obj.objType) obj best := by
      by_cases hlarge : IsLarge obj
      · obtain ⟨hbases, hlast⟩ := h.none_of_large (hobj hlarge)
        rw [hbases, hlast]
        exact ⟨rfl, fun _ => rfl⟩
      · simp only [offerBases, offerPrevious, offer_w32_eq hlarge, implies_true, and_self]
    rw [planEntries, planEntries, hoffers.1]
    simp only [hoffers.2]
    exact congrArg _ (funext fun best => congrArg _ (funext fun best' =>
      congrArg _ (funext fun entry => ih (h.step obj entry) hrest)))

theorem fitsAfter_of_planEntries (h : Offers candidates basesByType lastByType entries)
    {es : List BuildEntry}
    (hplan : planEntries .w32 C basesByType objs lastByType entries = .ok es) :
    FitsAfter candidates objs := by
  induction objs generalizing candidates lastByType entries with
  | nil => exact ⟨fun o ho => absurd ho List.not_mem_nil, .nil⟩
  | cons obj objs ih =>
    obtain ⟨best, hbases, hplan⟩ := Outcome.bind_eq_ok.mp hplan
    obtain ⟨best', hprevious, hplan⟩ := Outcome.bind_eq_ok.mp hplan
    obtain ⟨entry, -, hplan⟩ := Outcome.bind_eq_ok.mp hplan
    refine fitsAfter_cons.mpr ⟨fun hlarge base hbase htype => ?_, ih (h.step obj entry) hplan⟩
    -- the first candidate asks for the product
    rcases (h.iff obj.objType).mp ⟨base, hbase, htype⟩ with hne | ⟨j, hj⟩
    · obtain ⟨first, more, hfirst⟩ := List.exists_cons_of_ne_nil hne
      rw [offerBases, hfirst, List.foldlM_cons, offer_w32_of_large hlarge] at hbases
      cases hbases
    · have hentry := List.getElem?_eq_getElem (h.lt _ j hj)
      rw [hj] at hprevious
      simp only [offerPrevious, hentry, offer_w32_of_large hlarge] at hprevious
      cases hprevious

theorem offers_bases (bases : List PackObject) :
    Offers bases (group PackObject.objType bases) (fun _ => none) [] where
  iff objType := by
    rw [or_iff_left (by simp)]
    constructor
    · rintro ⟨base, hbase, htype⟩
      exact List.ne_nil_of_mem (mem_group.mpr ⟨hbase, htype⟩)
    · intro hne
      obtain ⟨base, hbase⟩ := List.exists_mem_of_ne_nil _ hne
      exact ⟨base, mem_group.mp hbase⟩
  lt _ _ h := by cases h

end Products

/-! ## Packs of exactly the objects -/

def Json.Lists {α : Type} (v : Json) (key : String) (R : Json → α → Prop) (as : List α) : Prop :=
  ∃ values, v.index key = .array values ∧ List.Forall₂ R values as

structure Json.IsDelta (v : Json) (d : UnresolvedDelta) : Prop where
  baseSha : v.index "base_sha" = .string d.baseSha
  deltaData : ∃ text, v.index "delta_data" = .string text ∧
    Base64.decodeStandard text = some d.deltaData
  chain : v.Lists "chain" (fun c delta => ∃ text, c = .string text ∧
    Base64.decodeStandard text = some delta) d.chain

/-- What is read from the pack: objects, and deltas that give the other objects on the bases. -/
def GivesBack (W : Usize) (C : Crates) (objects bases : List PackObject) (pack : Bytes) : Prop :=
  ∃ v entries deltas resolved, parsePackfile W C pack = .ok v ∧
    v.Lists "objects" Json.IsObject entries ∧ v.Lists "deltas" Json.IsDelta deltas ∧
    List.Forall₂ (fun (d : UnresolvedDelta) o => ∃ base ∈ bases,
      base.sha1 C = d.baseSha ∧ d.applyTo W base = .ok o) deltas resolved ∧
    (entries ++ resolved).Perm objects

theorem isObject_objectJson {obj : PackObject} (h : IsObjType obj.objType) :
    (objectJson obj).IsObject obj where
  objType := rfl
  isObjType := h
  data := ⟨_, rfl, Base64.decodeStandard_encode _⟩

theorem isDelta_deltaJson (d : UnresolvedDelta) : (deltaJson d).IsDelta d where
  baseSha := rfl
  deltaData := ⟨_, rfl, Base64.decodeStandard_encode _⟩
  chain := by
    refine ⟨_, rfl, ?_⟩
    rw [List.forall₂_map_left_iff, List.forall₂_same]
    exact fun c _ => ⟨_, rfl, Base64.decodeStandard_encode c⟩

theorem givesBack_of_parse {W : Usize} {C : Crates} {objects bases resolved : List PackObject}
    {pack : Bytes} {r : ParseResult} (htypes : ∀ o ∈ objects, IsObjType o.objType)
    (hparse : parse W C pack = .ok r)
    (hdeltas : List.Forall₂ (fun (d : UnresolvedDelta) o => ∃ base ∈ bases,
      base.sha1 C = d.baseSha ∧ d.applyTo W base = .ok o) r.deltas resolved)
    (hperm : (r.objects ++ resolved).Perm objects) : GivesBack W C objects bases pack := by
  refine ⟨resultJson r, r.objects, r.deltas, resolved, ?_, ⟨_, rfl, ?_⟩, ⟨_, rfl, ?_⟩, hdeltas,
    hperm⟩
  · rw [parsePackfile, hparse, Outcome.ok_bind]
    rfl
  · rw [List.forall₂_map_left_iff, List.forall₂_same]
    intro o ho
    exact isObject_objectJson (htypes o (hperm.subset (List.mem_append_left _ ho)))
  · rw [List.forall₂_map_left_iff, List.forall₂_same]
    exact fun d _ => isDelta_deltaJson d

section Build32
variable {C : Crates} {objects bases : List PackObject}

theorem buildWithBases_w32_eq (h : ProductsFit objects bases) :
    buildWithBases .w32 C objects bases = buildWithBases .w64 C objects bases := by
  rw [buildWithBases, buildWithBases,
    planEntries_w32_eq (offers_bases bases) (fitsAfter_sorted.mpr h)]

theorem productsFit_of_buildWithBases {pack : Bytes}
    (h : buildWithBases .w32 C objects bases = .ok pack) : ProductsFit objects bases := by
  obtain ⟨entries, hplan, -⟩ := Outcome.bind_eq_ok.mp h
  exact fitsAfter_sorted.mp (fitsAfter_of_planEntries (offers_bases bases) hplan)

/-- A pack that a 32-bit machine can hold gives its objects back on both. -/
theorem buildWithBases_givesBack (hC : C.Zlib) (hobjects : Buildable objects)
    (hbases : Buildable bases) :
    ∃ pack, buildWithBases .w64 C objects bases = .ok pack ∧
      ∀ W : Usize, W = .w64 ∨ pack.length < 2 ^ 32 → GivesBack W C objects bases pack := by
  obtain ⟨pack, hbuild, hreads⟩ := parse_buildWithBases_of_fits hC hobjects.length_lt
    hobjects.fits.2 hbases.fits.2 hobjects.isObjType
  refine ⟨pack, hbuild, fun W hW => ?_⟩
  obtain ⟨rs, hparse, hstands⟩ := hreads W (hW.imp_right fun hpack => ⟨hpack, hobjects.data_lt⟩)
  obtain ⟨resolved, hdeltas, hperm⟩ := ofResolutions_perm hstands
  exact givesBack_of_parse hobjects.isObjType hparse hdeltas
    (hperm.trans (List.mergeSort_perm _ _))

end Build32

/-- On texts that describe the objects and bases, the builder is what the service worker calls. -/
theorem buildPackfileWithBases_eq_serviceWorker {S : SerdeJson} {C : Crates}
    {objectsJson basesJson : String} {objects bases : List PackObject}
    (hobjects : S.Describes objectsJson objects) (hbases : S.Describes basesJson bases)
    (hfit : ProductsFit objects bases) :
    buildPackfileWithBases S C objectsJson basesJson =
      ServiceWorker.buildPackfileWithBases C objects bases := by
  have hfits : ServiceWorker.Fits objects ∧ ServiceWorker.Fits bases :=
    ⟨hobjects.buildable.fits, hbases.buildable.fits⟩
  rw [buildPackfileWithBases, hobjects.parseObjects_eq, Outcome.ok_bind, hbases.parseObjects_eq,
    Outcome.ok_bind, buildWithBases_w32_eq hfit, ServiceWorker.buildPackfileWithBases, if_pos hfits]

/-! ## No substitute for what is not there -/

/-- A call answers with a pack exactly if its texts describe objects and bases, and then with the
pack of these; otherwise with an error. -/
structure NeverSubstitutes (C : Crates) (call : Outcome Bytes)
    (describe : List PackObject → List PackObject → Prop) : Prop where
  sound : ∀ pack, call = .ok pack → ∃ objects bases, describe objects bases ∧
    (∀ W : Usize, buildWithBases W C objects bases = .ok pack) ∧
    ∀ W : Usize, W = .w64 ∨ pack.length < 2 ^ 32 → GivesBack W C objects bases pack
  accepts : ∀ objects bases, describe objects bases → ∃ pack, call = .ok pack
  rejects : (∀ objects bases, ¬ describe objects bases) → ∃ text, call = .err text
  answers : (∃ pack, call = .ok pack) ∨ ∃ text, call = .err text

theorem NeverSubstitutes.of_err {C : Crates} {call : Outcome Bytes}
    {describe : List PackObject → List PackObject → Prop} {text : String}
    (hcall : call = .err text) (hnone : ∀ objects bases, ¬ describe objects bases) :
    NeverSubstitutes C call describe where
  sound pack hpack := by
    rw [hcall] at hpack
    cases hpack
  accepts objects bases h := absurd h (hnone objects bases)
  rejects _ := ⟨text, hcall⟩
  answers := .inr ⟨text, hcall⟩

theorem neverSubstitutes_build_iff {C : Crates} (hC : C.Zlib) {objects bases : List PackObject}
    {describe : List PackObject → List PackObject → Prop}
    (hsame : ∀ os bs, describe os bs → os = objects ∧ bs = bases)
    (hbuildable : ∀ os bs, describe os bs → Buildable os ∧ Buildable bs) :
    NeverSubstitutes C (buildWithBases .w32 C objects bases) describe ↔
      ∃ os bs, describe os bs ∧ ProductsFit os bs := by
  constructor
  · intro h
    -- an error is what is asked for otherwise, and the builder has none
    have hdescribed : ∃ os bs, describe os bs := by
      by_contra hnone
      push Not at hnone
      obtain ⟨text, htext⟩ := h.rejects hnone
      exact buildWithBases_neverErr .w32 C objects bases text htext
    obtain ⟨os, bs, hos⟩ := hdescribed
    obtain ⟨rfl, rfl⟩ := hsame os bs hos
    obtain ⟨pack, hpack⟩ := h.accepts os bs hos
    exact ⟨os, bs, hos, productsFit_of_buildWithBases hpack⟩
  · rintro ⟨os, bs, hos, hfit⟩
    obtain ⟨rfl, rfl⟩ := hsame os bs hos
    obtain ⟨hobjects, hbases⟩ := hbuildable os bs hos
    obtain ⟨pack, hbuild, hback⟩ := buildWithBases_givesBack hC hobjects hbases
    have hcall : buildWithBases .w32 C os bs = .ok pack := (buildWithBases_w32_eq hfit).trans hbuild
    refine ⟨fun pack' hpack' => ?_, fun _ _ _ => ⟨pack, hcall⟩, fun hnone => ?_,
      .inl ⟨pack, hcall⟩⟩
    · obtain rfl : pack = pack' := Outcome.ok.inj (hcall.symm.trans hpack')
      refine ⟨os, bs, hos, fun W => ?_, hback⟩
      cases W with
      | w32 => exact hcall
      | w64 => exact hbuild
    · exact absurd hos (hnone os bs)

theorem neverSubstitutes_parsed_iff {C : Crates} (hC : C.Zlib)
    {parsed parsedBases : Outcome (List PackObject)}
    {describe : List PackObject → List PackObject → Prop}
    (hparsed : (∃ objects, parsed = .ok objects) ∨ ∃ e, parsed = .err e)
    (hbases : (∃ bases, parsedBases = .ok bases) ∨ ∃ e, parsedBases = .err e)
    (hsame : ∀ os bs, describe os bs → parsed = .ok os ∧ parsedBases = .ok bs)
    (hbuildable : ∀ os bs, describe os bs → Buildable os ∧ Buildable bs) :
    NeverSubstitutes C
        (parsed >>= fun objects => parsedBases >>= fun bases => buildWithBases .w32 C objects bases)
        describe ↔
      (∃ e, parsed = .err e ∨ parsedBases = .err e) ∨
        ∃ os bs, describe os bs ∧ ProductsFit os bs := by
  rcases hparsed with ⟨objects, rfl⟩ | ⟨e, rfl⟩
  swap
  · refine iff_of_true (.of_err (Outcome.err_bind e _) fun os bs h => ?_) (.inl ⟨e, .inl rfl⟩)
    cases (hsame os bs h).1
  rw [Outcome.ok_bind]
  rcases hbases with ⟨bases, rfl⟩ | ⟨e, rfl⟩
  swap
  · refine iff_of_true (.of_err (Outcome.err_bind e _) fun os bs h => ?_) (.inl ⟨e, .inr rfl⟩)
    cases (hsame os bs h).2
  have hsame' (os bs : List PackObject) (h : describe os bs) : os = objects ∧ bs = bases :=
    ⟨(Outcome.ok.inj (hsame os bs h).1).symm, (Outcome.ok.inj (hsame os bs h).2).symm⟩
  rw [Outcome.ok_bind, neverSubstitutes_build_iff hC hsame' hbuildable, or_iff_right]
  rintro ⟨e, he | he⟩
  · cases he
  · cases he

/-- The builders substitute nothing where a text is no array, and where every element has a type
and data and the products of the first pass fit; nowhere else. -/
theorem builders_never_substitute_iff (S : SerdeJson) (C : Crates) (hC : C.Zlib)
    (objectsJson basesJson : String) :
    (NeverSubstitutes C (buildPackfile S C objectsJson)
        (fun objects bases => S.Describes objectsJson objects ∧ bases = []) ↔
      (∃ e, S.fromStr objectsJson = .error e) ∨
        ∃ objects, S.Describes objectsJson objects ∧ ProductsFit objects []) ∧
    (NeverSubstitutes C (buildPackfileWithBases S C objectsJson basesJson)
        (fun objects bases => S.Describes objectsJson objects ∧ S.Describes basesJson bases) ↔
      (∃ e, S.fromStr objectsJson = .error e ∨ S.fromStr basesJson = .error e) ∨
        ∃ objects bases, (S.Describes objectsJson objects ∧ S.Describes basesJson bases) ∧
          ProductsFit objects bases) := by
  have hanswers := parseObjects_answers S
  simp only [← parseObjects_eq_err]
  constructor
  · have hsame (os bs : List PackObject) (h : S.Describes objectsJson os ∧ bs = []) :
        parseObjects S objectsJson = .ok os ∧ (.ok [] : Outcome (List PackObject)) = .ok bs :=
      ⟨h.1.parseObjects_eq, congrArg Outcome.ok h.2.symm⟩
    have hbuildable (os bs : List PackObject) (h : S.Describes objectsJson os ∧ bs = []) :
        Buildable os ∧ Buildable bs := ⟨h.1.buildable, h.2 ▸ buildable_nil⟩
    refine (neverSubstitutes_parsed_iff hC (hanswers _) (.inl ⟨[], rfl⟩) hsame hbuildable).trans ?_
    refine or_congr (exists_congr fun e => or_iff_left fun h => by cases h) ?_
    exact exists_congr fun os => by simp only [and_assoc, exists_and_left, exists_eq_left]
  · exact neverSubstitutes_parsed_iff hC (hanswers _) (hanswers _)
      (fun os bs h => ⟨h.1.parseObjects_eq, h.2.parseObjects_eq⟩)
      fun os bs h => ⟨h.1.buildable, h.2.buildable⟩

/-! ## Data that is not base64 -/

def blobValue (data : String) : Json :=
  .object [("obj_type", .string "blob"), ("data", .string data)]

def blobArray (data : String) (hdata : data.toList.length < 2 ^ 31) : JsonArray where
  values := [blobValue data]
  values_lt := by
    rw [List.length_singleton]
    decide
  text_lt v hv key text h := by
    obtain rfl := List.mem_singleton.mp hv
    rw [blobValue, Json.index, List.lookup_cons, List.lookup_cons, List.lookup_nil] at h
    split at h
    · cases h
      decide
    · split at h
      · cases h
        exact hdata
      · cases h

def blobJson : String := "[\x7b\"obj_type\":\"blob\",\"data\":\"aGk=\"\x7d]"

def brokenJson : String := "[\x7b\"obj_type\":\"blob\",\"data\":\"!\"\x7d]"

def sampleFromStr (json : String) : Except String JsonArray :=
  if json = blobJson then .ok (blobArray "aGk=" (by decide))
  else if json = brokenJson then .ok (blobArray "!" (by decide))
  else .error "expected value at line 1 column 1"

def sampleSerde : SerdeJson where
  fromStr := sampleFromStr

theorem describes_blobJson :
    sampleSerde.Describes blobJson [{ objType := "blob", data := [0x68, 0x69] }] := by
  have hjson : sampleFromStr blobJson = .ok (blobArray "aGk=" (by decide)) := if_pos rfl
  have hdata : Base64.decodeStandard "aGk=" = some [0x68, 0x69] :=
    Base64.decodeStandard_eq_some.mpr (by decide)
  exact ⟨_, hjson, .cons ⟨rfl, .inr (.inr (.inl rfl)), ⟨"aGk=", rfl, hdata⟩⟩ .nil⟩

theorem builders_never_substitute_blob :
    NeverSubstitutes referenceCrates (buildPackfile sampleSerde referenceCrates blobJson)
      fun objects bases => sampleSerde.Describes blobJson objects ∧ bases = [] := by
  refine (builders_never_substitute_iff sampleSerde referenceCrates referenceCrates_zlib blobJson
    blobJson).1.mpr (.inr ⟨_, describes_blobJson, ?_, ?_⟩)
  · exact fun o _ _ base hbase => absurd hbase List.not_mem_nil
  · exact List.pairwise_singleton _ _

def emptyBlob : PackObject where
  objType := "blob"
  data := []

/-- The pack holds an empty blob. -/
theorem brokenJson_built :
    (∃ pack, buildPackfile sampleSerde referenceCrates brokenJson = .ok pack ∧
      parse .w64 referenceCrates pack = .ok { objects := [emptyBlob], deltas := [] }) ∧
    ¬ ∀ (S : SerdeJson) (C : Crates), C.Zlib → ∀ objectsJson,
      NeverSubstitutes C (buildPackfile S C objectsJson) fun objects bases =>
        S.Describes objectsJson objects ∧ bases = [] := by
  have hjson : sampleSerde.fromStr brokenJson = .ok (blobArray "!" (by decide)) := by
    change sampleFromStr brokenJson = _
    rw [sampleFromStr, if_neg (by decide), if_pos rfl]
  have hfit : ProductsFit [emptyBlob] [] :=
    ⟨fun o _ _ base hbase => absurd hbase List.not_mem_nil, List.pairwise_singleton _ _⟩
  obtain ⟨pack, hpack, hparse⟩ : ∃ pack, build .w64 referenceCrates [emptyBlob] = .ok pack ∧
      parse .w64 referenceCrates pack =
        .ok { objects := [emptyBlob].mergeSort sortsBefore, deltas := [] } :=
    parse_build referenceCrates_zlib (by decide) (by decide) (by decide)
  have hcall : buildPackfile sampleSerde referenceCrates brokenJson = .ok pack := by
    have hvalue : [blobValue "!"].map packObject = [emptyBlob] := by decide
    have hparsed : parseObjects sampleSerde brokenJson = .ok [emptyBlob] := by
      rw [parseObjects, hjson, ← hvalue]
      rfl
    rw [buildPackfile, hparsed, Outcome.ok_bind, buildWithBases_w32_eq hfit]
    exact hpack
  refine ⟨⟨pack, hcall, by simpa using hparse⟩, fun hall => ?_⟩
  obtain ⟨objects, bases, ⟨⟨array, harray, hvalues⟩, -⟩, -, -⟩ :=
    (hall sampleSerde referenceCrates referenceCrates_zlib brokenJson).sound pack hcall
  obtain rfl := Except.ok.inj (hjson.symm.trans harray)
  obtain _ | ⟨hobj, -⟩ := hvalues
  obtain ⟨text, htext, hdata⟩ := hobj.data
  obtain rfl : "!" = text := Json.string.inj htext
  have hnone : Base64.decodeStandard "!" = none := by decide
  rw [hnone] at hdata
  cases hdata

end NearGit.WasmLib
