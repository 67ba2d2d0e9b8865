import NearGit.Packfile.Reference
import NearGit.Packfile.ResolveLoop

/-! Which bytes `parse` does not answer with `Ok` or `Err`, and on which packs its recursion does
not end. -/

namespace NearGit.Packfile
open Lib

variable {W : Usize} {C : Crates}

def PackHeader (data : Bytes) (count : Nat) (body : Bytes) : Prop :=
  ∃ version, (version = 2 ∨ version = 3) ∧ count < 2 ^ 32 ∧
    data = magic ++ be32 version ++ be32 count ++ body

theorem PackHeader.parse_eq {data body : Bytes} {count : Nat} (h : PackHeader data count body) :
    parse W C data = parseEntries W C count 12 body >>= resolveAll W := by
  obtain ⟨version, hversion, hcount, rfl⟩ := h
  have hversionLt : version < 2 ^ 32 := by
    rcases hversion with rfl | rfl <;> decide
  simp only [be32, magic, List.cons_append, List.nil_append]
  rw [parse, if_neg (show ¬ [0x50, 0x41, 0x43, 0x4b] ≠ magic from not_not.mpr rfl),
    fromBe32_be32 hversionLt]
  simp only
  rw [if_neg (by omega), fromBe32_be32 hcount]

theorem packHeader_or (W : Usize) (C : Crates) (data : Bytes) :
    (∃ count body, PackHeader data count body) ∨ ∃ e, parse W C data = .err e := by
  unfold parse
  split
  · rename_i m₀ m₁ m₂ m₃ v₀ v₁ v₂ v₃ n₀ n₁ n₂ n₃ body
    rcases ne_or_eq [m₀, m₁, m₂, m₃] magic with hmagic | hmagic
    · rw [if_pos hmagic]
      exact .inr ⟨_, rfl⟩
    by_cases hversion : fromBe32 v₀ v₁ v₂ v₃ ≠ 2 ∧ fromBe32 v₀ v₁ v₂ v₃ ≠ 3
    · simp only [if_neg (not_not.mpr hmagic), if_pos hversion]
      exact .inr ⟨_, rfl⟩
    · refine .inl ⟨fromBe32 n₀ n₁ n₂ n₃, body, fromBe32 v₀ v₁ v₂ v₃, by omega, fromBe32_lt .., ?_⟩
      rw [be32_fromBe32, be32_fromBe32, ← hmagic]
      rfl
  · exact .inr ⟨_, rfl⟩

theorem ReadsEntries.parse_eq {data body bs' : Bytes} {count pos' : Nat}
    {ps : List (Nat × ParsedEntry)} (hheader : PackHeader data count body)
    (hreads : ReadsEntries W C 12 body ps pos' bs') (hlen : ps.length = count) :
    parse W C data = resolveAll W ps := by
  rw [hheader.parse_eq, parseEntries_eq_ok_iff.mpr ⟨hlen, pos', bs', hreads⟩, Outcome.ok_bind]

/-! ## Packs that are not answered -/

/-- One of the entries is hostile; or all are read, and the first delta that does not resolve is
its own base or is hostile to its base. -/
def HostilePack (W : Usize) (C : Crates) (data : Bytes) : Prop :=
  ∃ count body, PackHeader data count body ∧
    (HostileEntries W C count 12 body ∨
      ∃ ps pos' bs', ReadsEntries W C 12 body ps pos' bs' ∧ ps.length = count ∧
        ∃ i, ReachedEntry W ps i ∧ (SelfBased ps i ∨ HostileOnBase W ps i))

theorem HostilePack.parse_eq {data : Bytes} (h : HostilePack W C data) :
    parse W C data = .diverge ∨ ∃ why, parse W C data = .panic why := by
  obtain ⟨count, body, hheader, hentries | hresolution⟩ := h
  · obtain ⟨why, hwhy⟩ := hentries.parseEntries_eq
    exact .inr ⟨why, by rw [hheader.parse_eq, hwhy, Outcome.panic_bind]⟩
  · obtain ⟨ps, pos', bs', hreads, hlen, i, hreached, hfails⟩ := hresolution
    have hps : EntryStarts ps := hreads.entryStarts
    rw [hreads.parse_eq hheader hlen]
    rcases hfails with hself | hbase
    · exact .inl (hreached.resolveAll_selfBased hps hself)
    · exact .inr (hreached.resolveAll_hostileOnBase hps hbase)

theorem parse_or (W : Usize) (C : Crates) (data : Bytes) :
    ((∃ r, parse W C data = .ok r) ∨ ∃ e, parse W C data = .err e) ∨ HostilePack W C data := by
  rcases packHeader_or W C data with ⟨count, body, hheader⟩ | herr
  · rcases readsEntries_or (W := W) (C := C) count 12 body with
      ⟨ps, pos', bs', hreads, hlen⟩ | hhostile | ⟨e, he⟩
    · rw [hreads.parse_eq hheader hlen]
      rcases resolveAll_or hreads.entryStarts with hok | hhostile | herr
      · exact .inl (.inl hok)
      · exact .inr ⟨count, body, hheader, .inr ⟨ps, pos', bs', hreads, hlen, hhostile⟩⟩
      · exact .inl (.inr herr)
    · exact .inr ⟨count, body, hheader, .inl hhostile⟩
    · exact .inl (.inr ⟨e, by rw [hheader.parse_eq, he, Outcome.err_bind]⟩)
  · exact .inl (.inr herr)

/-- `parse` returns `Ok` or `Err` on exactly the bytes that are no hostile pack. -/
theorem parse_answers_iff (W : Usize) (C : Crates) (data : Bytes) :
    ((∃ r, parse W C data = .ok r) ∨ ∃ e, parse W C data = .err e) ↔ ¬ HostilePack W C data := by
  refine ⟨fun hanswer hhostile => ?_, (parse_or W C data).resolve_right⟩
  obtain ⟨hreturns, hnoPanic⟩ := Outcome.answers_iff.mp hanswer
  rcases hhostile.parse_eq with hdiverge | ⟨why, hpanic⟩
  · exact hreturns hdiverge
  · exact hnoPanic why hpanic

def cutPack : Bytes := magic ++ be32 2 ++ be32 1 ++ [0x60]

theorem parse_panics :
    ¬ ((∃ r, parse .w64 referenceCrates cutPack = .ok r) ∨
      ∃ e, parse .w64 referenceCrates cutPack = .err e) := by
  have hpanic : parse .w64 referenceCrates cutPack = .panic .indexOutOfBounds := by
    decide +kernel
  intro hanswer
  exact (Outcome.answers_iff.mp hanswer).2 _ hpanic

/-! ## Recursion -/

/-- Every call of `resolve` that the loop makes returns exactly if no entry that the loop gets to
is a delta with offset 0. -/
theorem resolve_returns_iff (W : Usize) (C : Crates) (data body : Bytes) (count : Nat)
    (ps : List (Nat × ParsedEntry)) (hheader : PackHeader data count body)
    (hread : parseEntries W C count 12 body = .ok ps) :
    ((∀ i cache, LoopReaches W ps i cache → ∃ depth, resolve W ps depth i cache ≠ .diverge) ↔
      ∀ i, ReachedEntry W ps i → ¬ SelfBased ps i) ∧
    (parse W C data ≠ .diverge ↔ ∀ i, ReachedEntry W ps i → ¬ SelfBased ps i) := by
  obtain ⟨hlen, pos', bs', hreads⟩ := parseEntries_eq_ok_iff.mp hread
  have hps : EntryStarts ps := hreads.entryStarts
  refine ⟨⟨fun h i hreached hself => ?_, fun h i cache hloop => ⟨ps.length, ?_⟩⟩, ?_⟩
  · obtain ⟨cache, hloop⟩ := hreached.loopReaches hps
    obtain ⟨depth, hdepth⟩ := h i cache hloop
    exact hdepth ((hloop.cacheUpTo hps).resolve_selfBased hps hself depth)
  · have hcache := hloop.cacheUpTo hps
    have hreached : ReachedEntry W ps i := hcache.reached hloop.1
    rcases hcache.resolve_or hps hloop.1 with ⟨r, hr⟩ | hself | hhostile | ⟨e, he⟩
    · rw [hcache.resolve_yields hps hr]
      simp
    · exact absurd hself (h i hreached)
    · obtain ⟨why, hwhy⟩ := hcache.resolve_panics hps hhostile
      rw [hwhy]
      simp
    · rw [he]
      simp
  · rw [hreads.parse_eq hheader hlen]
    constructor
    · exact fun hret i hreached hself => hret (hreached.resolveAll_selfBased hps hself)
    · intro h
      rcases resolveAll_or (W := W) hps with ⟨r, hr⟩ | ⟨i, hreached, hself | hbase⟩ | ⟨e, he⟩
      · simp [hr]
      · exact absurd hself (h i hreached)
      · obtain ⟨why, hwhy⟩ := hreached.resolveAll_hostileOnBase hps hbase
        simp [hwhy]
      · simp [he]

def zeroOffsetBody : Bytes := [0x60, 0x00] ++ referenceCrates.deflate []

def zeroOffsetPack : Bytes := magic ++ be32 2 ++ be32 1 ++ zeroOffsetBody

theorem packHeader_zeroOffsetPack : PackHeader zeroOffsetPack 1 zeroOffsetBody :=
  ⟨2, .inl rfl, by decide, rfl⟩

theorem parseEntries_zeroOffset :
    parseEntries .w64 referenceCrates 1 12 zeroOffsetBody = .ok [(12, .ofsDelta 12 [])] := by
  decide +kernel

theorem resolve_zeroOffset_diverges : ∃ ps cache,
    PackHeader zeroOffsetPack 1 zeroOffsetBody ∧
      parseEntries .w64 referenceCrates 1 12 zeroOffsetBody = .ok ps ∧ LoopReaches .w64 ps 0 cache ∧
      (∀ depth, resolve .w64 ps depth 0 cache = .diverge) ∧
      parse .w64 referenceCrates zeroOffsetPack = .diverge := by
  obtain ⟨hlen, pos', bs', hreads⟩ := parseEntries_eq_ok_iff.mp parseEntries_zeroOffset
  have hps := hreads.entryStarts
  have hself : SelfBased [(12, .ofsDelta 12 [])] 0 := ⟨12, [], rfl⟩
  have hreached : ReachedEntry .w64 [(12, .ofsDelta 12 [])] 0 :=
    ⟨Nat.zero_lt_one, fun j hj => absurd hj (Nat.not_lt_zero j)⟩
  obtain ⟨cache, hloop⟩ := hreached.loopReaches hps
  refine ⟨_, cache, packHeader_zeroOffsetPack, parseEntries_zeroOffset, hloop,
    (hloop.cacheUpTo hps).resolve_selfBased hps hself, ?_⟩
  rw [hreads.parse_eq packHeader_zeroOffsetPack hlen]
  exact hreached.resolveAll_selfBased hps hself

theorem resolve_returns_iff_zeroOffset : ∃ ps,
    parseEntries .w64 referenceCrates 1 12 zeroOffsetBody = .ok ps ∧
      ((∀ i cache, LoopReaches .w64 ps i cache → ∃ depth, resolve .w64 ps depth i cache ≠ .diverge) ↔
        ∀ i, ReachedEntry .w64 ps i → ¬ SelfBased ps i) :=
  ⟨_, parseEntries_zeroOffset,
    (resolve_returns_iff .w64 referenceCrates zeroOffsetPack zeroOffsetBody 1
    _ packHeader_zeroOffsetPack parseEntries_zeroOffset).1⟩

end NearGit.Packfile
