import NearGit.Packfile.ParseCorrect
import NearGit.Packfile.Reference

/-! `parse` is right on every well-formed pack: what it keeps of each entry is what the entry's
chain resolves to. -/

namespace NearGit.Packfile
open Lib

variable {W : Usize} {entries : List Entry}

/-! ## Chains -/

theorem EntriesLayout.base_lt {C : Crates} {starts : List Nat} {pos : Nat} {es : List Entry}
    {body : Bytes} (h : EntriesLayout W C starts pos es body) {i base : Nat} {delta : Bytes}
    (hi : es[i]? = some (.ofsDelta base delta)) : base < starts.length + i := by
  induction h generalizing i with
  | nil => simp at hi
  | cons he _ ih =>
    cases i with
    | zero =>
      simp only [List.getElem?_cons_zero, Option.some.injEq] at hi
      subst hi
      cases he with
      | ofsDelta hstart _ _ _ _ _ => simpa using (List.getElem?_eq_some_iff.mp hstart).1
    | succ i =>
      have := ih hi
      rw [List.length_append, List.length_singleton] at this
      omega

theorem ChainRoot.unique {i : Nat} {root root' : Entry} (h : ChainRoot entries i root)
    (h' : ChainRoot entries i root') : root = root' := by
  induction h with
  | full hi => cases h' <;> simp_all
  | refDelta hi => cases h' <;> simp_all
  | ofsDelta hi _ ih =>
    cases h' with
    | full hi' => simp_all
    | refDelta hi' => simp_all
    | ofsDelta hi' hbase' =>
      rw [hi, Option.some.injEq, Entry.ofsDelta.injEq] at hi'
      obtain ⟨rfl, rfl⟩ := hi'
      exact ih hbase'

theorem EndsFull.not_endsRef {i : Nat} (h : EndsFull entries i) (baseSha : Vector UInt8 20) :
    ¬ EndsRef entries i baseSha := by
  rintro ⟨delta, href⟩
  obtain ⟨objType, data, hfull⟩ := h
  exact Entry.noConfusion (hfull.unique href)

theorem resolves_full_iff {foreign : String → Option PackObject} {i : Nat} {o : PackObject}
    {objType : String} {data : Bytes} (hi : entries[i]? = some (.full objType data)) :
    Resolves W entries foreign i o ↔ o = ⟨objType, data⟩ := by
  constructor
  · intro h
    cases h with
    | full hi' =>
      rw [hi, Option.some.injEq, Entry.full.injEq] at hi'
      obtain ⟨rfl, rfl⟩ := hi'
      rfl
    | refDelta hi' _ _ => simp [hi] at hi'
    | ofsDelta hi' _ _ => simp [hi] at hi'
  · rintro rfl
    exact .full hi

theorem resolves_refDelta_iff {foreign : String → Option PackObject} {i : Nat} {o : PackObject}
    {baseSha : Vector UInt8 20} {delta : Bytes} (hi : entries[i]? = some (.refDelta baseSha delta)) :
    Resolves W entries foreign i o ↔ ∃ b, foreign (Hex.ofBytes baseSha.toList) = some b ∧
      ∃ data, applyDelta W b.data delta = .ok data ∧ o = ⟨b.objType, data⟩ := by
  constructor
  · intro h
    cases h with
    | full hi' => simp [hi] at hi'
    | refDelta hi' hforeign happly =>
      rw [hi, Option.some.injEq, Entry.refDelta.injEq] at hi'
      obtain ⟨rfl, rfl⟩ := hi'
      exact ⟨_, hforeign, _, happly, rfl⟩
    | ofsDelta hi' _ _ => simp [hi] at hi'
  · rintro ⟨b, hforeign, data, happly, rfl⟩
    exact .refDelta hi hforeign happly

theorem resolves_ofsDelta_iff {foreign : String → Option PackObject} {i j : Nat} {o : PackObject}
    {delta : Bytes} (hi : entries[i]? = some (.ofsDelta j delta)) :
    Resolves W entries foreign i o ↔ ∃ b, Resolves W entries foreign j b ∧
      ∃ data, applyDelta W b.data delta = .ok data ∧ o = ⟨b.objType, data⟩ := by
  constructor
  · intro h
    cases h with
    | full hi' => simp [hi] at hi'
    | refDelta hi' _ _ => simp [hi] at hi'
    | ofsDelta hi' hbase happly =>
      rw [hi, Option.some.injEq, Entry.ofsDelta.injEq] at hi'
      obtain ⟨rfl, rfl⟩ := hi'
      exact ⟨_, hbase, _, happly, rfl⟩
  · rintro ⟨b, hbase, data, happly, rfl⟩
    exact .ofsDelta hi hbase happly

theorem Resolves.unique {foreign : String → Option PackObject} {i : Nat} {o o' : PackObject}
    (h : Resolves W entries foreign i o) (h' : Resolves W entries foreign i o') : o = o' := by
  induction h generalizing o' with
  | full hi => exact ((resolves_full_iff hi).mp h').symm
  | refDelta hi hforeign happly =>
    obtain ⟨b, hb, data', happly', rfl⟩ := (resolves_refDelta_iff hi).mp h'
    rw [hforeign, Option.some.injEq] at hb
    subst hb
    rw [happly, Outcome.ok.injEq] at happly'
    rw [happly']
  | ofsDelta hi _ happly ih =>
    obtain ⟨b, hb, data', happly', rfl⟩ := (resolves_ofsDelta_iff hi).mp h'
    obtain rfl := ih hb
    rw [happly, Outcome.ok.injEq] at happly'
    rw [happly']

/-! ## From resolutions to the meaning of entries -/

def applyStack (W : Usize) (base : PackObject) (deltas : List Bytes) : Outcome PackObject := do
  let data ← deltas.foldlM (applyDelta W) base.data
  return { objType := base.objType, data }

theorem applyTo_eq (baseSha : String) (head : Bytes) (chain : List Bytes) (base : PackObject) :
    UnresolvedDelta.applyTo W { baseSha, deltaData := head, chain } base =
      applyStack W base (head :: chain) := by
  rw [UnresolvedDelta.applyTo, applyStack, List.foldlM_cons, bind_assoc]

theorem applyStack_concat_eq_ok {base o : PackObject} {deltas : List Bytes} {delta : Bytes} :
    applyStack W base (deltas ++ [delta]) = .ok o ↔
      ∃ b, applyStack W base deltas = .ok b ∧ ∃ data, applyDelta W b.data delta = .ok data ∧
        o = ⟨b.objType, data⟩ := by
  simp only [applyStack, List.foldlM_append, List.foldlM_cons, List.foldlM_nil, Outcome.bind_eq_ok,
    Outcome.pure_eq, Outcome.ok.injEq]
  constructor
  · rintro ⟨data, ⟨data', hdata', ⟨data'', happly, rfl⟩⟩, rfl⟩
    exact ⟨⟨base.objType, data'⟩, ⟨data', hdata', rfl⟩, data'', happly, rfl⟩
  · rintro ⟨b, ⟨data', hdata', rfl⟩, data, happly, rfl⟩
    exact ⟨data, ⟨data', hdata', data, happly, rfl⟩, rfl⟩

def Resolution.Means (W : Usize) (entries : List Entry) (i : Nat) : Resolution → Prop
  | .object o => EndsFull entries i ∧ ∀ foreign, Resolves W entries foreign i o
  | .external baseSha deltas => ∃ sha, baseSha = Hex.ofBytes sha.toList ∧ EndsRef entries i sha ∧
      ∀ (foreign : String → Option PackObject) (base : PackObject), foreign baseSha = some base →
        ∀ o, applyStack W base deltas = .ok o ↔ Resolves W entries foreign i o

theorem ResolvesTo.means {i : Nat} {r : Resolution} (h : ResolvesTo W entries i r) :
    r.Means W entries i := by
  induction h with
  | full hi => exact ⟨⟨_, _, .full hi⟩, fun _ => .full hi⟩
  | @refDelta i baseSha delta hi =>
    refine ⟨baseSha, rfl, ⟨delta, .refDelta hi⟩, fun foreign base hforeign o => ?_⟩
    have hempty (b : PackObject) : applyStack W base [] = .ok b ↔
        foreign (Hex.ofBytes baseSha.toList) = some b := by
      rw [hforeign, show applyStack W base [] = .ok base from rfl, Outcome.ok.injEq,
        Option.some.injEq]
    rw [← List.nil_append [delta], applyStack_concat_eq_ok, resolves_refDelta_iff hi]
    exact exists_congr fun b => and_congr_left' (hempty b)
  | @ofsDelta i j delta base r hi _ hstack ih =>
    cases base with
    | object b =>
      obtain ⟨⟨objType, data, hroot⟩, hres⟩ := ih
      obtain ⟨data', happly, hr⟩ := Outcome.bind_eq_ok.mp hstack
      simp only [Outcome.pure_eq, Outcome.ok.injEq] at hr
      subst hr
      exact ⟨⟨objType, data, .ofsDelta hi hroot⟩,
        fun foreign => Resolves.ofsDelta hi (hres foreign) happly⟩
    | external baseSha deltas =>
      obtain ⟨sha, hsha, ⟨delta', hroot⟩, hres⟩ := ih
      simp only [Resolution.stack, Outcome.ok.injEq] at hstack
      subst hstack
      refine ⟨sha, hsha, ⟨delta', .ofsDelta hi hroot⟩, fun foreign base hforeign o => ?_⟩
      -- the new delta goes on top of what the base of the chain already gives
      rw [applyStack_concat_eq_ok, resolves_ofsDelta_iff hi]
      exact exists_congr fun b => and_congr_left' (hres foreign base hforeign b)

theorem exists_resolvesTo
    (hbase : ∀ (i base : Nat) (delta : Bytes), entries[i]? = some (.ofsDelta base delta) → base < i)
    (happlies : ∀ i, EndsFull entries i → ∃ o, Resolves W entries (fun _ => none) i o) {i : Nat}
    (hi : i < entries.length) : ∃ r, ResolvesTo W entries i r := by
  induction i using Nat.strong_induction_on with
  | _ i ih =>
    have hget := List.getElem?_eq_getElem hi
    rcases he : entries[i] with ⟨objType, data⟩ | ⟨baseSha, delta⟩ | ⟨j, delta⟩ <;> rw [he] at hget
    · exact ⟨_, .full hget⟩
    · exact ⟨_, .refDelta hget⟩
    · have hj := hbase i j delta hget
      obtain ⟨rj, hrj⟩ := ih j hj (hj.trans hi)
      cases rj with
      | external baseSha deltas => exact ⟨_, .ofsDelta hget hrj rfl⟩
      | object b =>
        obtain ⟨⟨objType, data, hroot⟩, hb⟩ := hrj.means
        obtain ⟨o, ho⟩ := happlies i ⟨objType, data, .ofsDelta hget hroot⟩
        obtain ⟨b', hb', data', happly, rfl⟩ := (resolves_ofsDelta_iff hget).mp ho
        obtain rfl := (hb _).unique hb'
        have hstack : (Resolution.object b).stack W delta = .ok (.object ⟨b.objType, data'⟩) := by
          rw [Resolution.stack, happly]
          rfl
        exact ⟨_, .ofsDelta hget hrj hstack⟩

section Kept
variable {i : Nat} {r : Resolution}

theorem ResolvesTo.not_endsFull (h : ResolvesTo W entries i r) (hr : r.object? = none) :
    ¬ EndsFull entries i := by
  cases r with
  | object o => simp [Resolution.object?] at hr
  | external baseSha deltas =>
    obtain ⟨sha, -, href, -⟩ := h.means
    exact fun hfull => hfull.not_endsRef sha href

theorem ResolvesTo.of_object? {o : PackObject} (h : ResolvesTo W entries i r)
    (hr : r.object? = some o) :
    EndsFull entries i ∧ ∀ foreign, Resolves W entries foreign i o := by
  cases r with
  | object o' =>
    simp only [Resolution.object?, Option.some.injEq] at hr
    subst hr
    exact h.means
  | external baseSha deltas => simp [Resolution.object?] at hr

theorem ResolvesTo.not_endsRef (h : ResolvesTo W entries i r) (hr : r.delta? = none) :
    ¬ ∃ sha, EndsRef entries i sha := by
  cases r with
  | object o =>
    rintro ⟨sha, href⟩
    exact h.means.1.not_endsRef sha href
  | external baseSha deltas =>
    obtain ⟨head, chain, rfl⟩ := List.exists_cons_of_ne_nil h.external_ne_nil
    simp [Resolution.delta?] at hr

theorem ResolvesTo.of_delta? {d : UnresolvedDelta} (h : ResolvesTo W entries i r)
    (hr : r.delta? = some d) :
    ∃ sha, EndsRef entries i sha ∧ d.baseSha = Hex.ofBytes sha.toList ∧
      ∀ (foreign : String → Option PackObject) (base : PackObject),
        foreign d.baseSha = some base →
          ∀ o, d.applyTo W base = .ok o ↔ Resolves W entries foreign i o := by
  cases r with
  | object o => simp [Resolution.delta?] at hr
  | external baseSha deltas =>
    obtain ⟨head, chain, rfl⟩ := List.exists_cons_of_ne_nil h.external_ne_nil
    simp only [Resolution.delta?, Option.some.injEq] at hr
    subst hr
    obtain ⟨sha, hsha, href, hres⟩ := h.means
    refine ⟨sha, href, hsha, fun foreign base hforeign o => ?_⟩
    rw [applyTo_eq]
    exact hres foreign base hforeign o

end Kept

/-! ## Well-formed packs -/

noncomputable def indicesWhere (p : ℕ → Prop) (n : ℕ) : List ℕ :=
  letI : DecidablePred p := Classical.decPred p
  (List.range n).filter fun i => p i

theorem indicesWhere_eq (p : ℕ → Prop) [DecidablePred p] (n : ℕ) :
    indicesWhere p n = (List.range n).filter fun i => p i := by
  unfold indicesWhere
  exact List.filter_congr fun i _ => decide_eq_decide.mpr Iff.rfl

theorem forall₂_filterMap {α β : Type*} {f : α → Option β} {p : ℕ → Prop}
    {R : ℕ → β → Prop} {l : List α} (hnone : ∀ i a, l[i]? = some a → f a = none → ¬ p i)
    (hsome : ∀ i a b, l[i]? = some a → f a = some b → p i ∧ R i b) :
    List.Forall₂ R (indicesWhere p l.length) (l.filterMap f) := by
  classical
  rw [indicesWhere_eq]
  induction l using List.reverseRecOn with
  | nil => exact .nil
  | append_singleton l a ih =>
    have hlast : (l ++ [a])[l.length]? = some a := List.getElem?_concat_length
    have hmem {i : ℕ} {b : α} (hi : l[i]? = some b) : (l ++ [a])[i]? = some b := by
      rw [List.getElem?_append_left (List.getElem?_eq_some_iff.mp hi).1, hi]
    have ih := ih (fun i b hi => hnone i b (hmem hi)) (fun i b c hi => hsome i b c (hmem hi))
    rw [List.length_append, List.length_singleton, List.range_succ, List.filter_append,
      List.filterMap_append]
    refine List.rel_append ih ?_
    rcases hf : f a with _ | b
    · simp [hf, hnone _ a hlast hf]
    · obtain ⟨hp, hR⟩ := hsome _ a b hlast hf
      simp [hf, hp, hR]

theorem exists_resolutions
    (hbase : ∀ (i base : Nat) (delta : Bytes), entries[i]? = some (.ofsDelta base delta) → base < i)
    (happlies : ∀ i, EndsFull entries i → ∃ o, Resolves W entries (fun _ => none) i o) :
    ∃ rs : List Resolution, rs.length = entries.length ∧
      ∀ i r, rs[i]? = some r → ResolvesTo W entries i r :=
  exists_list_of_lt fun _ hi => exists_resolvesTo hbase happlies hi

theorem object?_add_delta? {rs : List Resolution}
    (hrs : ∀ i r, rs[i]? = some r → ResolvesTo W entries i r) :
    (rs.filterMap Resolution.object?).length + (rs.filterMap Resolution.delta?).length =
      rs.length := by
  induction rs using List.reverseRecOn with
  | nil => rfl
  | append_singleton rs r ih =>
    have hr : ResolvesTo W entries rs.length r := hrs _ r List.getElem?_concat_length
    have ih := ih fun i q hi => hrs i q (by
      rw [List.getElem?_append_left (List.getElem?_eq_some_iff.mp hi).1, hi])
    simp only [List.filterMap_append, List.length_append, List.length_singleton]
    cases r with
    | object o =>
      simp only [Resolution.object?, Resolution.delta?, List.filterMap_cons, List.filterMap_nil,
        List.length_singleton, List.length_nil]
      omega
    | external baseSha deltas =>
      obtain ⟨head, chain, rfl⟩ := List.exists_cons_of_ne_nil hr.external_ne_nil
      simp only [Resolution.object?, Resolution.delta?, List.filterMap_cons, List.filterMap_nil,
        List.length_singleton, List.length_nil]
      omega

/-- `parse` is right on every well-formed pack, not only on those built here. The objects are,
in entry order, the contents of the entries whose chain ends in a full object; there is one
unresolved delta, in entry order, for every other entry, and on any base it gives what the
entry resolves to over that base. -/
theorem parse_wellFormed {C : Crates} {data : Bytes} (hpack : PackLayout W C entries data)
    (happlies : ∀ i, EndsFull entries i → ∃ o, Resolves W entries (fun _ => none) i o) :
    ∃ r, parse W C data = .ok r ∧ r.objects.length + r.deltas.length = entries.length ∧
      List.Forall₂ (fun i o => Resolves W entries (fun _ => none) i o)
        (indicesWhere (EndsFull entries) entries.length) r.objects ∧
      List.Forall₂ (fun i (d : UnresolvedDelta) => ∃ sha, EndsRef entries i sha ∧
          d.baseSha = Hex.ofBytes sha.toList ∧
          ∀ (foreign : String → Option PackObject) (base : PackObject),
            foreign d.baseSha = some base →
              ∀ o, d.applyTo W base = .ok o ↔ Resolves W entries foreign i o)
        (indicesWhere (fun i => ∃ sha, EndsRef entries i sha) entries.length) r.deltas := by
  have hbase : ∀ (i base : Nat) (delta : Bytes),
      entries[i]? = some (.ofsDelta base delta) → base < i := by
    obtain ⟨-, -, body, -, -, hlayout, -⟩ := hpack
    intro i base delta hi
    simpa using hlayout.base_lt hi
  obtain ⟨rs, hlen, hrs⟩ := exists_resolutions hbase happlies
  have hcount : (rs.filterMap Resolution.object?).length + (rs.filterMap Resolution.delta?).length =
      entries.length := (object?_add_delta? hrs).trans hlen
  refine ⟨_, parse_packLayout hpack hlen hrs, hcount, ?_, ?_⟩
  · rw [← hlen]
    refine forall₂_filterMap (fun i r hi hnone => (hrs i r hi).not_endsFull hnone)
      (fun i r o hi hsome => ?_)
    obtain ⟨hfull, hres⟩ := (hrs i r hi).of_object? hsome
    exact ⟨hfull, hres _⟩
  · rw [← hlen]
    refine forall₂_filterMap (fun i r hi hnone => (hrs i r hi).not_endsRef hnone)
      (fun i r d hi hsome => ?_)
    have hdelta := (hrs i r hi).of_delta? hsome
    have hroot : ∃ sha, EndsRef entries i sha := hdelta.imp fun _ h => h.1
    exact ⟨hroot, hdelta⟩

theorem isZlib_deflate {C : Crates} (hC : C.Zlib) {x : Bytes} (hx : x.length ≤ W.isizeMax) :
    IsZlib W C x (C.deflate x) :=
  ⟨hx, hC.inflate_deflate x⟩

def sampleEntries : List Entry :=
  [.full "blob" [0x61], .ofsDelta 0 [1, 2, 0x90, 1, 1, 0x62],
    .refDelta (Vector.replicate 20 0) [1, 2, 0x90, 1, 1, 0x62],
    .ofsDelta 2 [2, 3, 0x90, 2, 1, 0x62]]

def samplePack : Bytes :=
  let z := referenceCrates.deflate
  magic ++ be32 3 ++ be32 4 ++
    (([0x31] ++ z [0x61]) ++ (([0x66] ++ ([13] ++ z [1, 2, 0x90, 1, 1, 0x62])) ++
      (([0x76] ++ (List.replicate 20 0 ++ z [1, 2, 0x90, 1, 1, 0x62])) ++
        (([0x66] ++ ([38] ++ z [2, 3, 0x90, 2, 1, 0x62])) ++ []))) ++ [])

theorem parse_wellFormed_samplePack :
    ∃ r, parse .w64 referenceCrates samplePack = .ok r ∧
      r.objects.length + r.deltas.length = 4 := by
  have hz (x : Bytes) (hx : x.length ≤ Usize.w64.isizeMax) := isZlib_deflate referenceCrates_zlib hx
  have hheader (typeBits size : Nat) (b : UInt8) (hlt : b.toNat < 128)
      (htype : b.toNat / 16 % 8 = typeBits) (hsize : b.toNat % 16 = size) :
      IsEntryHeader typeBits size [b] :=
    ⟨b, [], rfl, hlt, by simp, htype, by simpa [Varint.leValue] using hsize⟩
  have hlayout : PackLayout .w64 referenceCrates sampleEntries samplePack := by
    refine ⟨by decide, 3, _, [], .inr rfl, ?_, rfl⟩
    refine .cons (.full rfl (hheader 3 _ _ (by decide) rfl rfl) (hz _ (by decide))) ?_
    refine .cons (.ofsDelta rfl (hheader _ _ _ (by decide) rfl rfl) (Nat.le_add_right _ _) (by decide +kernel)
      ⟨by decide, ?_, ?_⟩ (hz _ (by decide))) ?_
    · decide +kernel
    · decide +kernel
    refine .cons (.refDelta (hheader _ _ _ (by decide) rfl rfl) (hz _ (by decide))) ?_
    refine .cons (.ofsDelta rfl (hheader _ _ _ (by decide) rfl rfl) (Nat.le_add_right _ _) (by decide +kernel)
      ⟨by decide, ?_, ?_⟩ (hz _ (by decide))) .nil
    · decide +kernel
    · decide +kernel
  have happlies : ∀ i, EndsFull sampleEntries i →
      ∃ o, Resolves .w64 sampleEntries (fun _ => none) i o := by
    rintro i ⟨objType, data, hroot⟩
    have happly : applyDelta .w64 [0x61] [1, 2, 0x90, 1, 1, 0x62] = .ok [0x61, 0x62] := by
      decide +kernel
    rcases i with _ | _ | _ | _ | i
    · exact ⟨_, .full rfl⟩
    · exact ⟨_, .ofsDelta rfl (.full rfl) happly⟩
    · exact Entry.noConfusion (hroot.unique (.refDelta rfl))
    · exact Entry.noConfusion (hroot.unique (.ofsDelta rfl (.refDelta rfl)))
    · cases hroot <;> simp_all [sampleEntries]
  obtain ⟨r, hparse, hlen, -⟩ := parse_wellFormed hlayout happlies
  exact ⟨r, hparse, hlen⟩

end NearGit.Packfile
