import NearGit.Packfile.Format
import Mathlib.Data.List.Induction
import Mathlib.Data.List.Nodup
import Mathlib.Data.List.OfFn
import Mathlib.Data.List.Forall2

/-! `parse` on any pack that is laid out well: the entry loop reads the entries back, and the
cached recursion resolves each one as its chain says. -/

namespace NearGit.Packfile
open Lib

variable {W : Usize}

/-! ## The entry loop -/

/-- The entry loop read `entries`: the starts are distinct, and the base of an OFS_DELTA is the
start of an earlier entry. -/
structure ReadPack (entries : List Entry) (ps : List (Nat × ParsedEntry)) : Prop where
  length_eq : ps.length = entries.length
  nodup : (ps.map Prod.fst).Nodup
  readAs : ∀ i e, entries[i]? = some e →
    ∃ p, ps[i]? = some p ∧ ReadAs ((ps.map Prod.fst).take i) e p.2

theorem EntryLayout.length_pos {C : Crates} {starts : List Nat} {pos : Nat} {e : Entry}
    {bs : Bytes} (h : EntryLayout W C starts pos e bs) : 0 < bs.length := by
  cases h with
  | full _ hheader _ =>
    obtain ⟨_, _, rfl, _⟩ := hheader
    simp
  | refDelta hheader _ =>
    obtain ⟨_, _, rfl, _⟩ := hheader
    simp
  | ofsDelta _ hheader _ _ _ =>
    obtain ⟨_, _, rfl, _⟩ := hheader
    simp

theorem parseEntries_append {C : Crates} {starts : List Nat} {pos : Nat} {es : List Entry}
    {body : Bytes} (h : EntriesLayout W C starts pos es body) (rest : Bytes) :
    ∃ ps, parseEntries W C es.length pos (body ++ rest) = .ok ps ∧ ps.length = es.length ∧
      (ps.map Prod.fst).Pairwise (· < ·) ∧ (∀ p ∈ ps, pos ≤ p.1) ∧
      ∀ i e, es[i]? = some e → ∃ p, ps[i]? = some p ∧
        ReadAs ((starts ++ ps.map Prod.fst).take (starts.length + i)) e p.2 := by
  induction h with
  | nil => exact ⟨[], rfl, rfl, .nil, by simp, by simp⟩
  | @cons starts pos e es bs body he _ ih =>
    obtain ⟨ps, hparse, hlen, hsorted, hge, hread⟩ := ih
    obtain ⟨p, hp, hpread⟩ := parseEntry_append he (body ++ rest)
    have hpos := he.length_pos
    refine ⟨(pos, p) :: ps, ?_, by simp [hlen], ?_, ?_, ?_⟩
    · have hne : bs ++ body ++ rest ≠ [] := by
        intro hnil
        simp_all
      rw [List.length_cons, parseEntries, if_neg hne, List.append_assoc, hp, Outcome.ok_bind]
      simp only [List.drop_left]
      rw [hparse]
      rfl
    · rw [List.map_cons, List.pairwise_cons]
      refine ⟨fun q hq => ?_, hsorted⟩
      obtain ⟨p', hp', rfl⟩ := List.mem_map.mp hq
      exact lt_of_lt_of_le (by simp only; omega) (hge p' hp')
    · intro q hq
      rcases List.mem_cons.mp hq with rfl | hq
      · exact le_rfl
      · exact le_trans (Nat.le_add_right _ _) (hge q hq)
    · intro i e' hi
      cases i with
      | zero =>
        simp only [List.getElem?_cons_zero, Option.some.injEq] at hi
        subst hi
        exact ⟨(pos, p), rfl, by simpa using hpread⟩
      | succ i =>
        obtain ⟨q, hq, hqread⟩ := hread i e' hi
        refine ⟨q, hq, ?_⟩
        rw [List.append_assoc, List.length_append] at hqread
        simpa [Nat.add_assoc, Nat.add_comm 1] using hqread

theorem readPack_of_layout {C : Crates} {entries : List Entry} {body : Bytes}
    (h : EntriesLayout W C [] 12 entries body) (rest : Bytes) :
    ∃ ps, parseEntries W C entries.length 12 (body ++ rest) = .ok ps ∧ ReadPack entries ps := by
  obtain ⟨ps, hparse, hlen, hsorted, -, hread⟩ := parseEntries_append h rest
  refine ⟨ps, hparse, hlen, hsorted.imp ne_of_lt, fun i e hi => ?_⟩
  simpa using hread i e hi

/-! ## The position map -/

theorem posToIdx_concat (ps : List (Nat × ParsedEntry)) (p : Nat × ParsedEntry) (pos : Nat) :
    posToIdx (ps ++ [p]) pos = if p.1 = pos then some ps.length else posToIdx ps pos := by
  rw [posToIdx, List.zipIdx_append, List.foldl_append]
  simp [posToIdx]

theorem posToIdx_eq_some {ps : List (Nat × ParsedEntry)} (hnodup : (ps.map Prod.fst).Nodup)
    {i pos : Nat} (hi : (ps.map Prod.fst)[i]? = some pos) : posToIdx ps pos = some i := by
  induction ps using List.reverseRecOn with
  | nil => simp at hi
  | append_singleton ps p ih =>
    rw [List.map_append, List.map_singleton] at hnodup hi
    have hlen : (ps.map Prod.fst).length = ps.length := List.length_map ..
    rw [posToIdx_concat]
    rcases lt_or_ge i ps.length with hlt | hge
    · rw [List.getElem?_append_left (by omega)] at hi
      have hmem : pos ∈ ps.map Prod.fst := List.mem_of_getElem? hi
      have hne : p.1 ≠ pos := by
        rintro rfl
        exact (List.nodup_append.mp hnodup).2.2 _ hmem _ (List.mem_singleton_self _) rfl
      rw [if_neg hne]
      exact ih (List.nodup_append.mp hnodup).1 hi
    · rw [List.getElem?_append_right (by omega), List.getElem?_singleton] at hi
      split_ifs at hi with h
      rw [if_pos (by simpa using hi)]
      congr 1
      omega

/-! ## Resolution -/

theorem ResolvesTo.unique {entries : List Entry} {i : Nat} {r r' : Resolution}
    (h : ResolvesTo W entries i r) (h' : ResolvesTo W entries i r') : r = r' := by
  induction h generalizing r' with
  | full hi => cases h' <;> simp_all
  | refDelta hi => cases h' <;> simp_all
  | ofsDelta hi _ hstack ih =>
    cases h' with
    | full hi' => simp_all
    | refDelta hi' => simp_all
    | ofsDelta hi' hbase' hstack' =>
      rw [hi, Option.some.injEq, Entry.ofsDelta.injEq] at hi'
      obtain ⟨rfl, rfl⟩ := hi'
      rw [ih hbase', hstack', Outcome.ok.injEq] at hstack
      exact hstack.symm

def CacheSound (W : Usize) (entries : List Entry) (cache : List (Option Resolution)) : Prop :=
  cache.length = entries.length ∧
    ∀ i r, cache[i]? = some (some r) → ResolvesTo W entries i r

theorem CacheSound.set {entries : List Entry} {cache : List (Option Resolution)}
    (h : CacheSound W entries cache) {i : Nat} {r : Resolution} (hr : ResolvesTo W entries i r) :
    CacheSound W entries (cache.set i (some r)) := by
  refine ⟨by rw [List.length_set, h.1], fun j r' hj => ?_⟩
  rw [List.getElem?_set] at hj
  split_ifs at hj with hij hlt
  · simp only [Option.some.injEq] at hj
    exact hij ▸ hj ▸ hr
  · exact h.2 j r' hj

theorem ResolvesTo.lt_length {entries : List Entry} {i : Nat} {r : Resolution}
    (h : ResolvesTo W entries i r) : i < entries.length := by
  cases h with
  | full hi => exact (List.getElem?_eq_some_iff.mp hi).1
  | refDelta hi => exact (List.getElem?_eq_some_iff.mp hi).1
  | ofsDelta hi _ _ => exact (List.getElem?_eq_some_iff.mp hi).1

/-- With enough depth the cached recursion gives the resolution of the entry; the depth need
not exceed its index, since bases come earlier. -/
theorem resolve_spec {entries : List Entry} {ps : List (Nat × ParsedEntry)}
    (hps : ReadPack entries ps) {idx : Nat} {r : Resolution} (hr : ResolvesTo W entries idx r) :
    ∀ {depth : Nat} {cache : List (Option Resolution)}, idx < depth → CacheSound W entries cache →
      ∃ cache', resolve W ps depth idx cache = .ok (r, cache') ∧ CacheSound W entries cache' := by
  induction idx using Nat.strong_induction_on generalizing r with
  | _ idx ih =>
    intro depth cache hdepth hcache
    obtain ⟨depth, rfl⟩ : ∃ d, depth = d + 1 := ⟨depth - 1, by omega⟩
    have hlt : idx < cache.length := hcache.1 ▸ hr.lt_length
    rcases hcached : cache[idx] with _ | r'
    · -- an empty slot: the entry is resolved and the slot filled
      have hnone : cache[idx]? = some none := by rw [List.getElem?_eq_getElem hlt, hcached]
      cases hr with
      | full hi =>
        obtain ⟨⟨pos, p⟩, hp, hread⟩ := hps.readAs idx _ hi
        cases hread
        exact ⟨_, by rw [resolve, hnone, hp], hcache.set (.full hi)⟩
      | refDelta hi =>
        obtain ⟨⟨pos, p⟩, hp, hread⟩ := hps.readAs idx _ hi
        cases hread
        exact ⟨_, by rw [resolve, hnone, hp], hcache.set (.refDelta hi)⟩
      | @ofsDelta _ j delta base _ hi hbase hstack =>
        obtain ⟨⟨pos, p⟩, hp, hread⟩ := hps.readAs idx _ hi
        cases hread with
        | ofsDelta hstart =>
          rw [List.getElem?_take] at hstart
          split_ifs at hstart with hj
          obtain ⟨cache', hresolve, hcache'⟩ := ih j hj hbase (by omega : j < depth) hcache
          refine ⟨cache'.set idx (some r), ?_, hcache'.set (.ofsDelta hi hbase hstack)⟩
          rw [resolve, hnone, hp]
          simp only [posToIdx_eq_some hps.nodup hstart]
          rw [hresolve, Outcome.ok_bind, hstack]
          rfl
    · -- a filled slot is sound, and an entry resolves to one thing only
      have hsome : cache[idx]? = some (some r') := by rw [List.getElem?_eq_getElem hlt, hcached]
      have heq : r = r' := hr.unique (hcache.2 idx r' hsome)
      exact ⟨cache, by rw [resolve, hsome, heq], hcache⟩

/-! ## The resolution loop -/

def Resolution.object? : Resolution → Option PackObject
  | .object obj => some obj
  | .external _ _ => none

def Resolution.delta? : Resolution → Option UnresolvedDelta
  | .external baseSha (head :: chain) => some { baseSha, deltaData := head, chain }
  | _ => none

def ParseResult.ofResolutions (rs : List Resolution) : ParseResult :=
  { objects := rs.filterMap Resolution.object?, deltas := rs.filterMap Resolution.delta? }

theorem ResolvesTo.external_ne_nil {entries : List Entry} {i : Nat} {baseSha : String}
    {deltas : List Bytes} (h : ResolvesTo W entries i (.external baseSha deltas)) : deltas ≠ [] := by
  cases h with
  | refDelta _ => simp
  | @ofsDelta _ _ delta base _ _ _ hstack =>
    cases base with
    | object obj =>
      obtain ⟨data, -, h⟩ := Outcome.bind_eq_ok.mp hstack
      simp at h
    | external sha ds =>
      simp only [Resolution.stack, Outcome.ok.injEq, Resolution.external.injEq] at hstack
      simp [← hstack.2]

theorem exists_list_of_lt {α : Type} {P : Nat → α → Prop} {k : Nat} (h : ∀ i < k, ∃ a, P i a) :
    ∃ as : List α, as.length = k ∧ ∀ i a, as[i]? = some a → P i a := by
  choose a ha using fun i : Fin k => h i i.isLt
  refine ⟨List.ofFn a, List.length_ofFn, fun i b hi => ?_⟩
  obtain ⟨hlt, rfl⟩ := List.getElem?_eq_some_iff.mp hi
  rw [List.getElem_ofFn]
  exact ha ⟨i, by simpa using hlt⟩

theorem push_ofResolutions {r : Resolution} (hr : ∀ baseSha, r ≠ .external baseSha [])
    (rs : List Resolution) :
    (ParseResult.ofResolutions rs).push r = .ok (ParseResult.ofResolutions (rs ++ [r])) := by
  cases r with
  | object obj => simp [ParseResult.push, ParseResult.ofResolutions, Resolution.object?,
      Resolution.delta?]
  | external baseSha deltas =>
    have hne : deltas ≠ [] := by
      rintro rfl
      exact hr baseSha rfl
    obtain ⟨head, chain, rfl⟩ := List.exists_cons_of_ne_nil hne
    simp [ParseResult.push, ParseResult.ofResolutions, Resolution.object?, Resolution.delta?]

theorem resolveAll_spec {entries : List Entry} {ps : List (Nat × ParsedEntry)}
    (hps : ReadPack entries ps) {rs : List Resolution} (hlen : rs.length = entries.length)
    (hrs : ∀ i r, rs[i]? = some r → ResolvesTo W entries i r) :
    resolveAll W ps = .ok (ParseResult.ofResolutions rs) := by
  -- after k entries the cache is sound and the result is that of the first k resolutions
  have key : ∀ k ≤ rs.length, ∃ cache, CacheSound W entries cache ∧
      (List.range k).foldlM (resolveStep W ps)
        (List.replicate ps.length none, { objects := [], deltas := [] }) =
      .ok (cache, ParseResult.ofResolutions (rs.take k)) := by
    intro k hk
    induction k with
    | zero =>
      refine ⟨List.replicate ps.length none, ⟨by simp [hps.length_eq], ?_⟩, rfl⟩
      intro i r hi
      simp [List.getElem?_replicate] at hi
    | succ k ih =>
      obtain ⟨cache, hcache, hfold⟩ := ih (by omega)
      have hklt : k < rs.length := by omega
      have hr : rs[k]? = some rs[k] := List.getElem?_eq_getElem hklt
      have hresolves := hrs k _ hr
      have hdepth : k < ps.length := by
        rw [hps.length_eq, ← hlen]
        omega
      obtain ⟨cache', hresolve, hcache'⟩ := resolve_spec hps hresolves hdepth hcache
      refine ⟨cache', hcache', ?_⟩
      rw [List.range_succ, List.foldlM_append, hfold, Outcome.ok_bind, List.foldlM_cons,
        resolveStep, hresolve, Outcome.ok_bind]
      have hpush : ∀ baseSha, rs[k] ≠ .external baseSha [] := fun baseSha heq =>
        (heq ▸ hresolves).external_ne_nil rfl
      simp only [push_ofResolutions hpush, Outcome.ok_bind]
      rw [List.take_add_one, hr]
      rfl
  obtain ⟨cache, -, hfold⟩ := key rs.length le_rfl
  rw [List.take_length, hlen, ← hps.length_eq] at hfold
  rw [resolveAll, hfold]
  rfl

theorem parse_packLayout {C : Crates} {entries : List Entry} {data : Bytes}
    (hpack : PackLayout W C entries data) {rs : List Resolution} (hlen : rs.length = entries.length)
    (hrs : ∀ i r, rs[i]? = some r → ResolvesTo W entries i r) :
    parse W C data = .ok (ParseResult.ofResolutions rs) := by
  obtain ⟨hcount, version, body, trailer, hversion, hlayout, rfl⟩ := hpack
  obtain ⟨ps, hparse, hps⟩ := readPack_of_layout hlayout trailer
  have hversionLt : version < 2 ^ 32 := by
    rcases hversion with rfl | rfl <;> decide
  simp only [be32, magic, List.cons_append, List.nil_append]
  rw [parse, if_neg (show ¬ [0x50, 0x41, 0x43, 0x4b] ≠ magic from not_not.mpr rfl),
    fromBe32_be32 hversionLt]
  simp only
  rw [if_neg (by omega), fromBe32_be32 hcount, hparse, Outcome.ok_bind, resolveAll_spec hps hlen hrs]

end NearGit.Packfile
