import NearGit.Packfile.DeltaFormat
import NearGit.Packfile.EntryLoop
import NearGit.Packfile.ParseCorrect

/-! The resolution loop on any entries the entry loop has read: each entry is resolved when all
before it are, and a base lies in front of its delta unless it is the delta itself. -/

namespace NearGit.Packfile
open Lib

variable {W : Usize} {ps : List (Nat × ParsedEntry)} {cache : List (Option Resolution)} {i j : Nat}

/-! ## What an entry yields -/

def Stacks (W : Usize) (deltaData : Bytes) : Resolution → Resolution → Prop
  | .object base, r => ∃ data, DeltaMeans W base.data deltaData data ∧
      r = .object { objType := base.objType, data }
  | .external baseSha deltas, r => r = .external baseSha (deltas ++ [deltaData])

/-- What entry `i` stands for, the bases found by their positions. -/
inductive Yields (W : Usize) (ps : List (Nat × ParsedEntry)) : Nat → Resolution → Prop
  | object {i start : Nat} {obj : PackObject} :
      ps[i]? = some (start, .object obj) → Yields W ps i (.object obj)
  | refDelta {i start : Nat} {d : UnresolvedDelta} :
      ps[i]? = some (start, .refDelta d) → Yields W ps i (.external d.baseSha [d.deltaData])
  | ofsDelta {i j start basePos : Nat} {deltaData : Bytes} {e : ParsedEntry}
      {base r : Resolution} : ps[i]? = some (start, .ofsDelta basePos deltaData) →
      ps[j]? = some (basePos, e) → Yields W ps j base → Stacks W deltaData base r → Yields W ps i r

/-- The delta has offset 0: it is its own base. -/
def SelfBased (ps : List (Nat × ParsedEntry)) (i : Nat) : Prop :=
  ∃ start deltaData, ps[i]? = some (start, .ofsDelta start deltaData)

def HostileOnBase (W : Usize) (ps : List (Nat × ParsedEntry)) (i : Nat) : Prop :=
  ∃ start basePos deltaData j e base, ps[i]? = some (start, .ofsDelta basePos deltaData) ∧
    ps[j]? = some (basePos, e) ∧ Yields W ps j (.object base) ∧ HostileDelta W base.data deltaData

def ReachedEntry (W : Usize) (ps : List (Nat × ParsedEntry)) (i : Nat) : Prop :=
  i < ps.length ∧ ∀ j < i, ∃ r, Yields W ps j r

theorem stack_eq_ok_iff {base r : Resolution} {deltaData : Bytes} :
    base.stack W deltaData = .ok r ↔ Stacks W deltaData base r := by
  cases base with
  | object obj =>
    rw [Resolution.stack, Outcome.bind_eq_ok]
    constructor
    · rintro ⟨data, hdata, hr⟩
      exact ⟨data, applyDelta_eq_ok_iff.mp hdata, (Outcome.ok.inj hr).symm⟩
    · rintro ⟨data, hdata, rfl⟩
      exact ⟨data, applyDelta_eq_ok_iff.mpr hdata, rfl⟩
  | external baseSha deltas =>
    rw [Resolution.stack, Outcome.ok.injEq]
    exact eq_comm

theorem Yields.external_ne_nil {baseSha : String} {deltas : List Bytes}
    (h : Yields W ps i (.external baseSha deltas)) : deltas ≠ [] := by
  cases h with
  | refDelta _ => simp
  | @ofsDelta _ _ _ _ deltaData _ base _ _ _ _ hstack =>
    cases base with
    | object obj =>
      obtain ⟨data, -, hr⟩ := hstack
      exact absurd hr (by simp)
    | external sha ds =>
      have hr : Resolution.external baseSha deltas = .external sha (ds ++ [deltaData]) := hstack
      obtain ⟨-, rfl⟩ := Resolution.external.inj hr
      simp

/-! ## Positions -/

theorem EntryStarts.start_lt (hps : EntryStarts ps) {p q : Nat × ParsedEntry} (hi : ps[i]? = some p)
    (hj : ps[j]? = some q) (hlt : i < j) : p.1 < q.1 := by
  obtain ⟨hi', rfl⟩ := List.getElem?_eq_some_iff.mp hi
  obtain ⟨hj', rfl⟩ := List.getElem?_eq_some_iff.mp hj
  have h := List.pairwise_iff_getElem.mp hps.increasing i j (by simpa using hi')
    (by simpa using hj') hlt
  simpa using h

theorem EntryStarts.nodup (hps : EntryStarts ps) : (ps.map Prod.fst).Nodup :=
  hps.increasing.imp ne_of_lt

theorem EntryStarts.base_le_self (hps : EntryStarts ps) {start basePos : Nat} {deltaData : Bytes}
    {e : ParsedEntry} (hi : ps[i]? = some (start, .ofsDelta basePos deltaData))
    (hj : ps[j]? = some (basePos, e)) : j ≤ i := by
  by_contra hlt
  have hstart : start < basePos := hps.start_lt hi hj (not_le.mp hlt)
  exact absurd (hps.base_le _ _ _ (List.mem_of_getElem? hi)) hstart.not_ge

theorem EntryStarts.base_lt (hps : EntryStarts ps) (hself : ¬ SelfBased ps i) {start basePos : Nat}
    {deltaData : Bytes} {e : ParsedEntry} (hi : ps[i]? = some (start, .ofsDelta basePos deltaData))
    (hj : ps[j]? = some (basePos, e)) : j < i := by
  refine lt_of_le_of_ne (hps.base_le_self hi hj) ?_
  rintro rfl
  have heq := hj
  rw [hi, Option.some.injEq, Prod.mk.injEq] at heq
  exact hself ⟨start, deltaData, by rw [hi, heq.1]⟩

theorem posToIdx_of_getElem? (hps : EntryStarts ps) {pos : Nat} {e : ParsedEntry}
    (hj : ps[j]? = some (pos, e)) : posToIdx ps pos = some j :=
  posToIdx_eq_some hps.nodup (by simp [hj])

theorem EntryStarts.index_unique (hps : EntryStarts ps) {pos : Nat} {e e' : ParsedEntry}
    {j j' : Nat} (hj : ps[j]? = some (pos, e)) (hj' : ps[j']? = some (pos, e')) : j = j' := by
  have hidx : posToIdx ps pos = some j' := posToIdx_of_getElem? hps hj'
  rw [posToIdx_of_getElem? hps hj, Option.some.injEq] at hidx
  exact hidx

theorem getElem?_of_posToIdx {pos : Nat} (h : posToIdx ps pos = some j) :
    ∃ e, ps[j]? = some (pos, e) := by
  induction ps using List.reverseRecOn with
  | nil => simp [posToIdx] at h
  | append_singleton ps p ih =>
    rw [posToIdx_concat] at h
    split_ifs at h with hpos
    · cases h
      exact ⟨p.2, by simp [← hpos]⟩
    · obtain ⟨e, he⟩ := ih h
      have hlt : j < ps.length := (List.getElem?_eq_some_iff.mp he).1
      exact ⟨e, by rw [List.getElem?_append_left hlt, he]⟩

theorem Stacks.unique {deltaData : Bytes} {base r r' : Resolution} (h : Stacks W deltaData base r)
    (h' : Stacks W deltaData base r') : r = r' := by
  have hstack := (stack_eq_ok_iff.mpr h).symm.trans (stack_eq_ok_iff.mpr h')
  exact Outcome.ok.inj hstack

theorem Yields.unique (hps : EntryStarts ps) {r r' : Resolution} (h : Yields W ps i r)
    (h' : Yields W ps i r') : r = r' := by
  induction h generalizing r' with
  | object hi => cases h' <;> simp_all
  | refDelta hi => cases h' <;> simp_all
  | @ofsDelta i j start basePos deltaData e base r hi hj _ hstack ih =>
    cases h' with
    | object hi' => simp_all
    | refDelta hi' => simp_all
    | @ofsDelta _ j' _ _ _ _ base' _ hi' hj' hbase' hstack' =>
      rw [hi, Option.some.injEq, Prod.mk.injEq, ParsedEntry.ofsDelta.injEq] at hi'
      obtain ⟨-, rfl, rfl⟩ := hi'
      obtain rfl := hps.index_unique hj hj'
      exact hstack.unique (ih hbase' ▸ hstack')

/-! ## One round -/

structure CacheUpTo (W : Usize) (ps : List (Nat × ParsedEntry)) (i : Nat)
    (cache : List (Option Resolution)) :
    Prop where
  length_eq : cache.length = ps.length
  filled : ∀ j < i, ∃ r, cache[j]? = some (some r) ∧ Yields W ps j r
  empty : ∀ j, i ≤ j → j < ps.length → cache[j]? = some none

theorem CacheUpTo.reached (h : CacheUpTo W ps i cache) (hi : i < ps.length) : ReachedEntry W ps i :=
  ⟨hi, fun j hj => (h.filled j hj).imp fun _ hr => hr.2⟩

theorem CacheUpTo.set (h : CacheUpTo W ps i cache) (hi : i < ps.length) {r : Resolution}
    (hr : Yields W ps i r) : CacheUpTo W ps (i + 1) (cache.set i (some r)) := by
  have hlt : i < cache.length := h.length_eq ▸ hi
  refine ⟨by rw [List.length_set, h.length_eq], fun j hj => ?_, fun j hij hj => ?_⟩
  · rcases Nat.lt_succ_iff_lt_or_eq.mp hj with hj | rfl
    · rw [List.getElem?_set_ne (Nat.ne_of_gt hj)]
      exact h.filled j hj
    · exact ⟨r, by rw [List.getElem?_set_self hlt], hr⟩
  · rw [List.getElem?_set_ne (Nat.ne_of_lt hij)]
    exact h.empty j (Nat.le_of_succ_le hij) hj

theorem resolve_cached {r : Resolution} (depth : Nat) (h : cache[j]? = some (some r)) :
    resolve W ps (depth + 1) j cache = .ok (r, cache) := by
  rw [resolve, h]

/-- A base in front of its delta is cached, so the recursion goes no deeper. -/
theorem CacheUpTo.resolve_ofsDelta (hps : EntryStarts ps) (h : CacheUpTo W ps i cache)
    {start basePos : Nat} {deltaData : Bytes} {e : ParsedEntry} {base : Resolution}
    (hi : ps[i]? = some (start, .ofsDelta basePos deltaData)) (hj : ps[j]? = some (basePos, e))
    (hlt : j < i) (hbase : Yields W ps j base) (depth : Nat) :
    resolve W ps (depth + 2) i cache = (do
      let r ← base.stack W deltaData
      return (r, cache.set i (some r))) := by
  have hlen : i < ps.length := (List.getElem?_eq_some_iff.mp hi).1
  obtain ⟨base', hcached, hbase'⟩ := h.filled j hlt
  obtain rfl := hbase'.unique hps hbase
  rw [resolve, h.empty i le_rfl hlen, hi]
  simp only [posToIdx_of_getElem? hps hj, resolve_cached depth hcached, Outcome.ok_bind]

theorem CacheUpTo.resolve_selfBased (hps : EntryStarts ps) (h : CacheUpTo W ps i cache)
    (hself : SelfBased ps i) (depth : Nat) : resolve W ps depth i cache = .diverge := by
  obtain ⟨start, deltaData, hi⟩ := hself
  have hlen : i < ps.length := (List.getElem?_eq_some_iff.mp hi).1
  induction depth with
  | zero => rfl
  | succ depth ih =>
    rw [resolve, h.empty i le_rfl hlen, hi]
    simp only [posToIdx_of_getElem? hps hi, ih, Outcome.diverge_bind]

theorem SelfBased.not_yields (hps : EntryStarts ps) (hself : SelfBased ps i) (r : Resolution) :
    ¬ Yields W ps i r := by
  intro h
  obtain ⟨start, deltaData, hi⟩ := hself
  induction h with
  | object hi' => simp_all
  | refDelta hi' => simp_all
  | @ofsDelta i j _ _ _ _ _ _ hi' hj _ _ ih =>
    rw [hi, Option.some.injEq, Prod.mk.injEq, ParsedEntry.ofsDelta.injEq] at hi'
    obtain ⟨rfl, rfl, rfl⟩ := hi'
    exact ih (hps.index_unique hi hj ▸ hi)

theorem HostileOnBase.not_selfBased (hps : EntryStarts ps) (h : HostileOnBase W ps i) :
    ¬ SelfBased ps i := by
  intro hself
  obtain ⟨start, basePos, deltaData, j, e, base, hi, hj, hbase, -⟩ := h
  obtain ⟨start', deltaData', hi'⟩ := hself
  rw [hi, Option.some.injEq, Prod.mk.injEq, ParsedEntry.ofsDelta.injEq] at hi'
  obtain ⟨rfl, rfl, rfl⟩ := hi'
  have hyields : Yields W ps i (.object base) := hps.index_unique hi hj ▸ hbase
  exact SelfBased.not_yields hps ⟨basePos, deltaData, hi⟩ _ hyields

/-- With a base in front of it an entry is not the first one, so the depth is enough. -/
theorem CacheUpTo.resolve_panics (hps : EntryStarts ps) (h : CacheUpTo W ps i cache)
    (hhostile : HostileOnBase W ps i) : ∃ why, resolve W ps ps.length i cache = .panic why := by
  have hself := hhostile.not_selfBased hps
  obtain ⟨start, basePos, deltaData, j, e, base, hi, hj, hbase, hdelta⟩ := hhostile
  have hlt : j < i := hps.base_lt hself hi hj
  have hlen : i < ps.length := (List.getElem?_eq_some_iff.mp hi).1
  obtain ⟨depth, hdepth⟩ : ∃ d, ps.length = d + 2 := ⟨ps.length - 2, by omega⟩
  obtain ⟨why, hwhy⟩ := hdelta.applyDelta_eq
  refine ⟨why, ?_⟩
  rw [hdepth, h.resolve_ofsDelta hps hi hj hlt hbase, Resolution.stack, hwhy]
  rfl

theorem CacheUpTo.resolve_yields (hps : EntryStarts ps) (h : CacheUpTo W ps i cache)
    {r : Resolution} (hr : Yields W ps i r) :
    resolve W ps ps.length i cache = .ok (r, cache.set i (some r)) := by
  have hself : ¬ SelfBased ps i := fun hself => hself.not_yields hps r hr
  cases hr with
  | object hi =>
    have hlen : i < ps.length := (List.getElem?_eq_some_iff.mp hi).1
    obtain ⟨depth, hdepth⟩ : ∃ d, ps.length = d + 1 := ⟨ps.length - 1, by omega⟩
    rw [hdepth, resolve, h.empty i le_rfl hlen, hi]
  | refDelta hi =>
    have hlen : i < ps.length := (List.getElem?_eq_some_iff.mp hi).1
    obtain ⟨depth, hdepth⟩ : ∃ d, ps.length = d + 1 := ⟨ps.length - 1, by omega⟩
    rw [hdepth, resolve, h.empty i le_rfl hlen, hi]
  | @ofsDelta _ j start basePos deltaData e base _ hi hj hbase hstack =>
    have hlt : j < i := hps.base_lt hself hi hj
    have hlen : i < ps.length := (List.getElem?_eq_some_iff.mp hi).1
    obtain ⟨depth, hdepth⟩ : ∃ d, ps.length = d + 2 := ⟨ps.length - 2, by omega⟩
    rw [hdepth, h.resolve_ofsDelta hps hi hj hlt hbase, stack_eq_ok_iff.mpr hstack]
    rfl

theorem CacheUpTo.resolve_or (hps : EntryStarts ps) (h : CacheUpTo W ps i cache)
    (hlen : i < ps.length) :
    (∃ r, Yields W ps i r) ∨ SelfBased ps i ∨ HostileOnBase W ps i ∨
      ∃ e, resolve W ps ps.length i cache = .err e := by
  rcases hp : ps[i] with ⟨start, entry⟩
  have hi : ps[i]? = some (start, entry) := by rw [List.getElem?_eq_getElem hlen, hp]
  cases entry with
  | object obj => exact .inl ⟨_, .object hi⟩
  | refDelta d => exact .inl ⟨_, .refDelta hi⟩
  | ofsDelta basePos deltaData =>
    by_cases hself : SelfBased ps i
    · exact .inr (.inl hself)
    rcases hidx : posToIdx ps basePos with _ | j
    · obtain ⟨depth, hdepth⟩ : ∃ d, ps.length = d + 1 := ⟨ps.length - 1, by omega⟩
      refine .inr (.inr (.inr ?_))
      rw [hdepth, resolve, h.empty i le_rfl hlen, hi]
      simp only [hidx]
      exact ⟨_, rfl⟩
    · obtain ⟨e, hj⟩ := getElem?_of_posToIdx hidx
      have hlt : j < i := hps.base_lt hself hi hj
      obtain ⟨base, -, hbase⟩ := h.filled j hlt
      obtain ⟨depth, hdepth⟩ : ∃ d, ps.length = d + 2 := ⟨ps.length - 2, by omega⟩
      have hrun := h.resolve_ofsDelta hps hi hj hlt hbase depth
      cases base with
      | external baseSha deltas => exact .inl ⟨_, .ofsDelta hi hj hbase rfl⟩
      | object base =>
        rcases deltaMeans_or W base.data deltaData with ⟨data, hdata⟩ | hhostile | ⟨err, herr⟩
        · exact .inl ⟨_, .ofsDelta hi hj hbase ⟨data, hdata, rfl⟩⟩
        · exact .inr (.inr (.inl ⟨start, basePos, deltaData, j, e, base, hi, hj, hbase, hhostile⟩))
        · refine .inr (.inr (.inr ⟨err, ?_⟩))
          rw [hdepth, hrun, Resolution.stack, herr]
          rfl

/-! ## The loop -/

def LoopReaches (W : Usize) (ps : List (Nat × ParsedEntry)) (i : Nat)
    (cache : List (Option Resolution)) :
    Prop :=
  i < ps.length ∧ ∃ result, (List.range i).foldlM (resolveStep W ps)
    (List.replicate ps.length none, { objects := [], deltas := [] }) = .ok (cache, result)

theorem cacheUpTo_zero (ps : List (Nat × ParsedEntry)) :
    CacheUpTo W ps 0 (List.replicate ps.length none) where
  length_eq := List.length_replicate
  filled j hj := absurd hj (Nat.not_lt_zero j)
  empty j _ hj := by rw [List.getElem?_replicate, if_pos hj]

theorem loop_of_yields (hps : EntryStarts ps) {rs : List Resolution}
    (hrs : ∀ j r, rs[j]? = some r → Yields W ps j r) (hlen : rs.length ≤ ps.length) {k : Nat}
    (hk : k ≤ rs.length) :
    ∃ cache, (List.range k).foldlM (resolveStep W ps)
      (List.replicate ps.length none, { objects := [], deltas := [] }) =
        .ok (cache, ParseResult.ofResolutions (rs.take k)) ∧ CacheUpTo W ps k cache := by
  induction k with
  | zero => exact ⟨_, rfl, cacheUpTo_zero ps⟩
  | succ k ih =>
    obtain ⟨cache, hloop, hcache⟩ := ih (Nat.le_of_succ_le hk)
    have hget : rs[k]? = some rs[k] := List.getElem?_eq_getElem hk
    have hr : Yields W ps k rs[k] := hrs k _ hget
    have hpush : ∀ baseSha, rs[k] ≠ .external baseSha [] := fun baseSha heq =>
      (heq ▸ hr).external_ne_nil rfl
    refine ⟨_, ?_, hcache.set (hk.trans hlen) hr⟩
    rw [List.range_succ, List.foldlM_append, hloop, Outcome.ok_bind, List.foldlM_cons, resolveStep,
      hcache.resolve_yields hps hr, Outcome.ok_bind]
    simp only [push_ofResolutions hpush, Outcome.ok_bind]
    rw [List.take_add_one, hget]
    rfl

theorem LoopReaches.cacheUpTo (hps : EntryStarts ps) (h : LoopReaches W ps i cache) :
    CacheUpTo W ps i cache := by
  obtain ⟨hlen, result, hloop⟩ := h
  induction i generalizing cache result with
  | zero =>
    obtain ⟨rfl, -⟩ := Prod.mk.inj (Outcome.ok.inj hloop)
    exact cacheUpTo_zero ps
  | succ i ih =>
    rw [List.range_succ, List.foldlM_append, Outcome.bind_eq_ok] at hloop
    obtain ⟨⟨before, result'⟩, hbefore, hround⟩ := hloop
    have hi : i < ps.length := Nat.lt_of_succ_lt hlen
    have hcache := ih hi result' hbefore
    obtain ⟨⟨cache', result''⟩, hstep, hend⟩ := Outcome.bind_eq_ok.mp hround
    obtain ⟨⟨r, cache''⟩, hresolve, hpush⟩ := Outcome.bind_eq_ok.mp hstep
    obtain ⟨_, -, hpair⟩ := Outcome.bind_eq_ok.mp hpush
    obtain ⟨rfl, rfl⟩ := Prod.mk.inj (Outcome.ok.inj hend)
    obtain ⟨rfl, -⟩ := Prod.mk.inj (Outcome.ok.inj hpair)
    rcases hcache.resolve_or hps hi with ⟨r', hr'⟩ | hself | hhostile | ⟨e, he⟩
    · rw [hcache.resolve_yields hps hr', Outcome.ok.injEq, Prod.mk.injEq] at hresolve
      obtain ⟨rfl, rfl⟩ := hresolve
      exact hcache.set hi hr'
    · rw [hcache.resolve_selfBased hps hself] at hresolve
      exact absurd hresolve (by simp)
    · obtain ⟨why, hwhy⟩ := hcache.resolve_panics hps hhostile
      rw [hwhy] at hresolve
      exact absurd hresolve (by simp)
    · rw [he] at hresolve
      exact absurd hresolve (by simp)

theorem ReachedEntry.loopReaches (hps : EntryStarts ps) (h : ReachedEntry W ps i) :
    ∃ cache, LoopReaches W ps i cache := by
  obtain ⟨rs, hlen, hrs⟩ := exists_list_of_lt h.2
  obtain ⟨cache, hloop, -⟩ := loop_of_yields hps hrs (hlen ▸ h.1.le) hlen.ge
  exact ⟨cache, h.1, _, hloop⟩

theorem LoopReaches.resolveAll_eq (h : LoopReaches W ps i cache) :
    ∃ rounds : Resolution × List (Option Resolution) → Outcome ParseResult,
      resolveAll W ps = resolve W ps ps.length i cache >>= rounds := by
  obtain ⟨hlen, result, hloop⟩ := h
  obtain ⟨m, hm⟩ : ∃ m, ps.length = i + 1 + m := ⟨ps.length - (i + 1), by omega⟩
  refine ⟨fun resolved => do
    let result ← result.push resolved.1
    let acc ← ((List.range m).map (i + 1 + ·)).foldlM (resolveStep W ps) (resolved.2, result)
    return acc.2, ?_⟩
  have hrange : List.range ps.length = List.range i ++ i :: (List.range m).map (i + 1 + ·) := by
    rw [hm, List.range_add, List.range_succ, List.append_assoc, List.singleton_append]
  rw [resolveAll, hrange, List.foldlM_append, hloop, Outcome.ok_bind, List.foldlM_cons]
  simp only [resolveStep, bind_assoc, pure_bind]

theorem resolveAll_of_yields (hps : EntryStarts ps) {rs : List Resolution}
    (hlen : rs.length = ps.length) (hrs : ∀ j r, rs[j]? = some r → Yields W ps j r) :
    resolveAll W ps = .ok (ParseResult.ofResolutions rs) := by
  obtain ⟨cache, hloop, -⟩ := loop_of_yields hps hrs hlen.le le_rfl
  rw [List.take_length, hlen] at hloop
  rw [resolveAll, hloop]
  rfl

theorem yields_or (ps : List (Nat × ParsedEntry)) : (∀ j < ps.length, ∃ r, Yields W ps j r) ∨
    ∃ i, ReachedEntry W ps i ∧ ∀ r, ¬ Yields W ps i r := by
  by_cases h : ∃ i, i < ps.length ∧ ∀ r, ¬ Yields W ps i r
  · classical
    have hfirst := Nat.find_spec h
    refine .inr ⟨Nat.find h, ⟨hfirst.1, fun j hj => ?_⟩, hfirst.2⟩
    by_contra hnone
    exact Nat.find_min h hj ⟨hj.trans hfirst.1, fun r hr => hnone ⟨r, hr⟩⟩
  · refine .inl fun j hj => ?_
    by_contra hnone
    exact h ⟨j, hj, fun r hr => hnone ⟨r, hr⟩⟩

theorem resolveAll_or (hps : EntryStarts ps) :
    (∃ result, resolveAll W ps = .ok result) ∨
      (∃ i, ReachedEntry W ps i ∧ (SelfBased ps i ∨ HostileOnBase W ps i)) ∨
      ∃ e, resolveAll W ps = .err e := by
  rcases yields_or ps with hall | ⟨i, hreached, hnone⟩
  · obtain ⟨rs, hlen, hrs⟩ := exists_list_of_lt hall
    exact .inl ⟨_, resolveAll_of_yields hps hlen hrs⟩
  · obtain ⟨cache, hloop⟩ := hreached.loopReaches hps
    rcases (hloop.cacheUpTo hps).resolve_or hps hreached.1 with ⟨r, hr⟩ | hself | hhostile | ⟨e, he⟩
    · exact absurd hr (hnone r)
    · exact .inr (.inl ⟨i, hreached, .inl hself⟩)
    · exact .inr (.inl ⟨i, hreached, .inr hhostile⟩)
    · obtain ⟨rounds, hrun⟩ := hloop.resolveAll_eq
      exact .inr (.inr ⟨e, by rw [hrun, he, Outcome.err_bind]⟩)

theorem ReachedEntry.resolveAll_selfBased (hps : EntryStarts ps) (h : ReachedEntry W ps i)
    (hself : SelfBased ps i) : resolveAll W ps = .diverge := by
  obtain ⟨cache, hloop⟩ := h.loopReaches hps
  obtain ⟨rounds, hrun⟩ := hloop.resolveAll_eq
  rw [hrun, (hloop.cacheUpTo hps).resolve_selfBased hps hself, Outcome.diverge_bind]

theorem ReachedEntry.resolveAll_hostileOnBase (hps : EntryStarts ps) (h : ReachedEntry W ps i)
    (hhostile : HostileOnBase W ps i) : ∃ why, resolveAll W ps = .panic why := by
  obtain ⟨cache, hloop⟩ := h.loopReaches hps
  obtain ⟨rounds, hrun⟩ := hloop.resolveAll_eq
  obtain ⟨why, hwhy⟩ := (hloop.cacheUpTo hps).resolve_panics hps hhostile
  exact ⟨why, by rw [hrun, hwhy, Outcome.panic_bind]⟩

end NearGit.Packfile
