import NearGit.Packfile.FormatCorrect
import NearGit.Packfile.Hostile

/-! Which packs `parse` accepts. The checksum, the declared sizes of the entries and the source
sizes of the deltas have no part in it. -/

namespace NearGit.Packfile
open Lib

variable {W : Usize} {C : Crates} {ps : List (Nat × ParsedEntry)}

/-! ## Accepted packs -/

def AcceptedAs (W : Usize) (C : Crates) (data : Bytes) (r : ParseResult) : Prop :=
  ∃ count body ps pos' bs' rs, PackHeader data count body ∧
    ReadsEntries W C 12 body ps pos' bs' ∧ ps.length = count ∧ rs.length = ps.length ∧
    (∀ i x, rs[i]? = some x → Yields W ps i x) ∧ r = ParseResult.ofResolutions rs

theorem resolveAll_eq_ok_iff (hps : EntryStarts ps) {r : ParseResult} :
    resolveAll W ps = .ok r ↔ ∃ rs, rs.length = ps.length ∧
      (∀ i x, rs[i]? = some x → Yields W ps i x) ∧ r = ParseResult.ofResolutions rs := by
  constructor
  · intro h
    rcases yields_or ps with hall | ⟨i, hreached, hnone⟩
    · obtain ⟨rs, hlen, hrs⟩ := exists_list_of_lt hall
      rw [resolveAll_of_yields hps hlen hrs, Outcome.ok.injEq] at h
      exact ⟨rs, hlen, hrs, h.symm⟩
    · obtain ⟨cache, hloop⟩ := hreached.loopReaches hps
      rcases (hloop.cacheUpTo hps).resolve_or hps hreached.1 with
        ⟨x, hx⟩ | hself | hhostile | ⟨e, he⟩
      · exact absurd hx (hnone x)
      · have hrun := hreached.resolveAll_selfBased hps hself
        exact absurd (hrun.symm.trans h) (by simp)
      · obtain ⟨why, hrun⟩ := hreached.resolveAll_hostileOnBase hps hhostile
        exact absurd (hrun.symm.trans h) (by simp)
      · obtain ⟨rounds, hrun⟩ := hloop.resolveAll_eq
        rw [he, Outcome.err_bind] at hrun
        exact absurd (hrun.symm.trans h) (by simp)
  · rintro ⟨rs, hlen, hrs, rfl⟩
    exact resolveAll_of_yields hps hlen hrs

theorem parse_eq_ok_iff {data : Bytes} {r : ParseResult} :
    parse W C data = .ok r ↔ AcceptedAs W C data r := by
  constructor
  · intro h
    rcases packHeader_or W C data with ⟨count, body, hheader⟩ | ⟨e, he⟩
    · have hrun := h
      rw [hheader.parse_eq, Outcome.bind_eq_ok] at hrun
      obtain ⟨ps, hentries, hresolve⟩ := hrun
      obtain ⟨hcount, pos', bs', hreads⟩ := parseEntries_eq_ok_iff.mp hentries
      obtain ⟨rs, hlen, hrs, hr⟩ := (resolveAll_eq_ok_iff hreads.entryStarts).mp hresolve
      exact ⟨count, body, ps, pos', bs', rs, hheader, hreads, hcount, hlen, hrs, hr⟩
    · exact absurd (he.symm.trans h) (by simp)
  · rintro ⟨count, body, ps, pos', bs', rs, hheader, hreads, hcount, hlen, hrs, hr⟩
    rw [hreads.parse_eq hheader hcount]
    exact (resolveAll_eq_ok_iff hreads.entryStarts).mpr ⟨rs, hlen, hrs, hr⟩

/-! ## Behind the entries -/

/-- A pack as far as its last entry. -/
def PackFront (W : Usize) (C : Crates) (entries : List Entry) (front : Bytes) : Prop :=
  entries.length < 2 ^ 32 ∧ ∃ version body, (version = 2 ∨ version = 3) ∧
    EntriesLayout W C [] 12 entries body ∧
    front = magic ++ be32 version ++ be32 entries.length ++ body

theorem ReadAs.unique {starts : List Nat} {e : Entry} {p p' : ParsedEntry}
    (h : ReadAs starts e p) (h' : ReadAs starts e p') : p = p' := by
  cases h with
  | full => cases h' with | full => rfl
  | refDelta => cases h' with | refDelta => rfl
  | ofsDelta hstart =>
    cases h' with
    | ofsDelta hstart' =>
      rw [hstart, Option.some.injEq] at hstart'
      rw [hstart']

theorem EntriesLayout.parseEntries_eq {starts : List Nat} {pos : Nat} {es : List Entry}
    {body : Bytes} (h : EntriesLayout W C starts pos es body) (rest rest' : Bytes) :
    parseEntries W C es.length pos (body ++ rest) = parseEntries W C es.length pos (body ++ rest') := by
  induction h with
  | nil => rfl
  | @cons starts pos e es bs body he _ ih =>
    obtain ⟨p, hp, hread⟩ := parseEntry_append he (body ++ rest)
    obtain ⟨p', hp', hread'⟩ := parseEntry_append he (body ++ rest')
    obtain rfl := hread.unique hread'
    have hne (tail : Bytes) : bs ++ body ++ tail ≠ [] := by
      have hpos := he.length_pos
      intro hnil
      simp_all
    rw [List.length_cons, parseEntries_succ (hne rest), parseEntries_succ (hne rest'),
      List.append_assoc, List.append_assoc, hp, hp', Outcome.ok_bind, Outcome.ok_bind]
    simp only [List.drop_left, ih]

theorem PackFront.packHeader {entries : List Entry} {front : Bytes}
    (h : PackFront W C entries front) : ∃ body, EntriesLayout W C [] 12 entries body ∧
      ∀ trailer, PackHeader (front ++ trailer) entries.length (body ++ trailer) := by
  obtain ⟨hcount, version, body, hversion, hlayout, rfl⟩ := h
  exact ⟨body, hlayout, fun trailer => ⟨version, hversion, hcount, by rw [List.append_assoc]⟩⟩

theorem PackFront.parse_append {entries : List Entry} {front : Bytes}
    (h : PackFront W C entries front) (trailer : Bytes) :
    parse W C (front ++ trailer) = parse W C front := by
  obtain ⟨body, hlayout, hheader⟩ := h.packHeader
  have hfront : PackHeader front entries.length body := by
    simpa using hheader []
  have hentries := hlayout.parseEntries_eq trailer []
  rw [List.append_nil] at hentries
  rw [(hheader trailer).parse_eq, hfront.parse_eq, hentries]

/-- A result is given exactly for the entries at the front, and on a pack laid out by the format
what comes behind them changes nothing. -/
theorem parse_accepts_iff (W : Usize) (C : Crates) :
    (∀ data r, parse W C data = .ok r ↔ AcceptedAs W C data r) ∧
      ∀ entries front trailer, PackFront W C entries front →
        parse W C (front ++ trailer) = parse W C front :=
  ⟨fun _ _ => parse_eq_ok_iff, fun _ _ trailer hfront => hfront.parse_append trailer⟩

def blobFront : Bytes := magic ++ be32 2 ++ be32 1 ++ ([0x31] ++ referenceCrates.deflate [97])

theorem parse_accepts_iff_blobFront : ∀ trailer,
    parse .w64 referenceCrates (blobFront ++ trailer) = parse .w64 referenceCrates blobFront := by
  have hheader : IsEntryHeader 3 1 [0x31] :=
    ⟨0x31, [], rfl, by decide, by decide, by decide, by simp [Varint.leValue]⟩
  have hfront : PackFront .w64 referenceCrates [.full "blob" [97]] blobFront :=
    ⟨by decide, 2, _, .inl rfl,
      .cons (.full rfl hheader (isZlib_deflate referenceCrates_zlib (by decide))) .nil,
      by rw [List.append_nil]; rfl⟩
  exact fun trailer => (parse_accepts_iff .w64 referenceCrates).2 _ _ trailer hfront

/-! ## The integrity fields -/

def ParsedEntry.inflated : ParsedEntry → Bytes
  | .object obj => obj.data
  | .refDelta d => d.deltaData
  | .ofsDelta _ deltaData => deltaData

def EnforcesChecksum (C : Crates) : Prop :=
  ∀ data r, parse .w64 C data = .ok r → ∃ front, data = front ++ (C.sha1 front).toList

/-- The size in front of an entry is the length of what its stream inflates to. -/
def EnforcesDeclaredSizes (C : Crates) : Prop :=
  ∀ data r count body ps, parse .w64 C data = .ok r → PackHeader data count body →
    parseEntries .w64 C count 12 body = .ok ps → ∀ start e, (start, e) ∈ ps →
      ∃ typeBits used, readEntryHeader (data.drop start) = .ok (typeBits, e.inflated.length, used)

/-- A delta that is applied inside the pack declares the length of its base. -/
def EnforcesSourceSizes (C : Crates) : Prop :=
  ∀ data r count body ps, parse .w64 C data = .ok r → PackHeader data count body →
    parseEntries .w64 C count 12 body = .ok ps →
      ∀ (i start basePos : Nat) (deltaData : Bytes) (j : Nat) (e : ParsedEntry) (base : PackObject),
        ps[i]? = some (start, .ofsDelta basePos deltaData) → ps[j]? = some (basePos, e) →
          Yields .w64 ps j (.object base) →
            ∃ used, readDeltaSize deltaData = .ok (base.data.length, used)

def RefusesPrefixes (C : Crates) : Prop :=
  ∀ data r, parse .w64 C data = .ok r → ∀ front, front <+: data → front ≠ data →
    ∀ r', parse .w64 C front ≠ .ok r'

def flipBit (data : Bytes) (i bit : Nat) : Bytes := data.modify i (· ^^^ (1 <<< bit.toUInt8))

def RefusesFlips (C : Crates) : Prop :=
  ∀ data r, parse .w64 C data = .ok r → ∀ i bit, i < data.length → bit < 8 →
    ∀ r', parse .w64 C (flipBit data i bit) ≠ .ok r'

/-- A blob of one byte that declares nine, then a delta for a source of nine bytes; no checksum. -/
def laxBody : Bytes :=
  [0x39] ++ referenceCrates.deflate [97] ++ ([0x64, 13] ++ referenceCrates.deflate [9, 1, 1, 7])

def laxPack : Bytes := magic ++ be32 2 ++ be32 2 ++ laxBody

def laxEntries : List (Nat × ParsedEntry) :=
  [(12, .object { objType := "blob", data := [97] }), (25, .ofsDelta 12 [9, 1, 1, 7])]

def laxResult : ParseResult where
  objects := [{ objType := "blob", data := [97] }, { objType := "blob", data := [7] }]
  deltas := []

theorem parse_skips_integrity : ¬ EnforcesChecksum referenceCrates ∧
    ¬ EnforcesDeclaredSizes referenceCrates ∧ ¬ EnforcesSourceSizes referenceCrates ∧
    ¬ RefusesPrefixes referenceCrates ∧ ¬ RefusesFlips referenceCrates := by
  obtain ⟨hentries, hparse, hlonger, hflipped, hsha⟩ :
      parseEntries .w64 referenceCrates 2 12 laxBody = .ok laxEntries ∧
        parse .w64 referenceCrates laxPack = .ok laxResult ∧
        parse .w64 referenceCrates (laxPack ++ [0]) = .ok laxResult ∧
        parse .w64 referenceCrates (flipBit laxPack 12 0) = .ok laxResult ∧
        laxPack.drop (laxPack.length - 20) ≠
          (referenceCrates.sha1 (laxPack.take (laxPack.length - 20))).toList := by
    decide +kernel
  have hheader : PackHeader laxPack 2 laxBody := ⟨2, .inl rfl, by decide, rfl⟩
  refine ⟨fun h => ?_, fun h => ?_, fun h => ?_, fun h => ?_, fun h => ?_⟩
  · obtain ⟨front, hdata⟩ := h _ _ hparse
    have hcut : laxPack.length - 20 = front.length := by
      simp [hdata]
    refine hsha ?_
    rw [hcut, hdata, List.drop_left, List.take_left]
  · obtain ⟨typeBits, used, hread⟩ := h _ _ _ _ _ hparse hheader hentries 12 _ (.head _)
    have hsize : readEntryHeader (laxPack.drop 12) = .ok (3, 9, 1) := rfl
    rw [hsize] at hread
    simp [ParsedEntry.inflated] at hread
  · have hbase : Yields .w64 laxEntries 0 (.object { objType := "blob", data := [97] }) := .object rfl
    obtain ⟨used, hread⟩ := h _ _ _ _ _ hparse hheader hentries 1 25 12 _ 0 _ _ rfl rfl hbase
    have hsize : readDeltaSize [9, 1, 1, 7] = .ok (9, 1) := rfl
    rw [hsize] at hread
    simp at hread
  · exact h _ _ hlonger laxPack (List.prefix_append ..) (by simp) _ hparse
  · exact h _ _ hparse 12 0 (by decide) (by decide) _ hflipped

end NearGit.Packfile
