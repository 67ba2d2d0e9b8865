import NearGit.ServiceWorker.ReceivePack

/-! What becomes of the objects of an incoming pack. A delta whose base is only on chain stays
pending in the first loop of the handler, and nothing looks at it again. -/

namespace NearGit.ServiceWorker
open Lib NearGit.Packfile NearGit.Contract

/-- The objects of an incoming pack, when the bases of its deltas are in the pack or among the
objects that the stored packs give. -/
inductive IncomingObject (C : Crates) (stored : List Bytes) (rest : Bytes) : PackObject → Prop
  | full {o : PackObject} : o ∈ parsedObjects C [rest] → IncomingObject C stored rest o
  | onStored {d : UnresolvedDelta} {base o : PackObject} : d ∈ parsedDeltas C [rest] →
      Reconstructible C stored base → base.sha1 C = d.baseSha → d.applyTo .w64 base = .ok o →
      IncomingObject C stored rest o
  | onIncoming {d : UnresolvedDelta} {base o : PackObject} : d ∈ parsedDeltas C [rest] →
      IncomingObject C stored rest base → base.sha1 C = d.baseSha → d.applyTo .w64 base = .ok o →
      IncomingObject C stored rest o

def BasesAtHand (C : Crates) (stored : List Bytes) (rest : Bytes) : Prop :=
  ∀ d ∈ parsedDeltas C [rest], ∃ base o,
    (Reconstructible C stored base ∨ IncomingObject C stored rest base) ∧
      base.sha1 C = d.baseSha ∧ d.applyTo .w64 base = .ok o

/-- Every delta of an incoming pack has its base among the objects that the pack gives by
itself, and then its object is one of these, or else stands for an object that is to be had without
it. -/
def NothingDropped (C : Crates) (stored : List Bytes) (rest : Bytes) : Prop :=
  ∀ d ∈ parsedDeltas C [rest], ∀ base o,
    Reconstructible C stored base ∨ IncomingObject C stored rest base →
      base.sha1 C = d.baseSha → d.applyTo .w64 base = .ok o →
        Reconstructible C [rest] base ∨
          ReconstructibleWith C stored {o | Reconstructible C [rest] o} o

variable {C : Crates} {stored : List Bytes} {rest : Bytes}

/-- A pack that has all its bases in it loses nothing. -/
theorem nothingDropped_of_basesInPack (h : ∀ d ∈ parsedDeltas C [rest], ∀ base,
    Reconstructible C stored base ∨ IncomingObject C stored rest base →
      base.sha1 C = d.baseSha → Reconstructible C [rest] base) : NothingDropped C stored rest :=
  fun d hd base _ hbase hsha _ => .inl (h d hd base hbase hsha)

theorem nothingDropped_iff : NothingDropped C stored rest ↔
    ∀ o, IncomingObject C stored rest o →
      ReconstructibleWith C stored {o | Reconstructible C [rest] o} o := by
  constructor
  · intro h o ho
    have hself {o : PackObject} (ho : Reconstructible C [rest] o) :
        ReconstructibleWith C stored {o | Reconstructible C [rest] o} o := .seed (.inr ho)
    have hdelta {d : UnresolvedDelta} {base o : PackObject} (hd : d ∈ parsedDeltas C [rest])
        (hbase : Reconstructible C stored base ∨ IncomingObject C stored rest base)
        (hsha : base.sha1 C = d.baseSha) (happly : d.applyTo .w64 base = .ok o) :
        ReconstructibleWith C stored {o | Reconstructible C [rest] o} o := by
      rcases h d hd base o hbase hsha happly with hin | hwith
      · exact hself (.rule hd hin hsha (Outcome.toOption_eq_some.mpr happly))
      · exact hwith
    cases ho with
    | full ho => exact hself (.seed ho)
    | onStored hd hbase hsha happly => exact hdelta hd (.inl hbase) hsha happly
    | onIncoming hd hbase hsha happly => exact hdelta hd (.inr hbase) hsha happly
  · intro h d hd base o hbase hsha happly
    rcases hbase with hbase | hbase
    · exact .inr (h o (.onStored hd hbase hsha happly))
    · exact .inr (h o (.onIncoming hd hbase hsha happly))

theorem not_incomingObject_nil (o : PackObject) : ¬ IncomingObject C stored [] o := by
  intro ho
  induction ho with
  | full ho => simp [parsedObjects, parse_nil] at ho
  | onStored hd => simp [parsedDeltas, parse_nil] at hd
  | onIncoming hd => simp [parsedDeltas, parse_nil] at hd

theorem reconstructible_of_with {o : PackObject}
    (ho : ReconstructibleWith C stored {o | Reconstructible C [rest] o} o) :
    Reconstructible C (stored ++ [rest]) o := by
  refine Derived.of_seeds ?_ (parsedDeltas_mono (List.subset_append_left ..)) ho
  rintro a (ha | ha)
  · exact .seed (parsedObjects_mono (List.subset_append_left ..) ha)
  · exact Reconstructible.mono (List.subset_append_right ..) ha

/-- After a push that is reported as ok, the incoming objects can all be put together from the
stored packs exactly when no delta of the incoming pack was dropped that mattered. -/
theorem push_keeps_objects_iff (C : Crates) (hC : C.Zlib) (owner : String) (txs : List Tx)
    (accountId : String) (refUpdates : List RefUpdate) (rest : Bytes) (s' : GitStorage)
    (hok : handleReceivePack C (stateAfter owner txs) accountId refUpdates rest = .ok (s', .ok))
    (hinj : Set.InjOn (PackObject.sha1 C)
      {o | Reconstructible C ((stateAfter owner txs).getPacks 0 ++ [rest]) o}) :
    (∀ o, IncomingObject C ((stateAfter owner txs).getPacks 0) rest o →
      Reconstructible C (s'.getPacks 0) o) ↔
    NothingDropped C ((stateAfter owner txs).getPacks 0) rest := by
  obtain ⟨repo, htracks⟩ := exists_tracks owner txs
  rw [nothingDropped_iff]
  set s := stateAfter owner txs
  unfold handleReceivePack at hok
  split_ifs at hok with hrest
  · obtain ⟨pack, hpack, hok⟩ := Outcome.bind_eq_ok.mp hok
    rcases hpush : s.push accountId pack refUpdates with e | s₁
    · simp [hpush] at hok
    · simp only [hpush, Outcome.pure_eq, Outcome.ok.injEq, Prod.mk.injEq] at hok
      obtain ⟨rfl, -⟩ := hok
      have hinj' := hinj.mono fun o ho => reconstructible_of_with ho
      rw [getPacks_push htracks.represents (packData_ne_nil hC hpack) hpush]
      exact forall₂_congr fun o _ =>
        reconstructible_after_push hC (List.Subset.refl _) hpack hinj' o
  · -- without pack bytes there are no incoming objects
    rw [not_not] at hrest
    subst hrest
    have hnone : ∀ o, ¬ IncomingObject C (s.getPacks 0) [] o := not_incomingObject_nil
    exact ⟨fun _ o ho => absurd ho (hnone o), fun _ o ho => absurd ho (hnone o)⟩

/-! ## A thin pack -/

def storedPack : Bytes := (build .w64 referenceCrates [sampleBlob 40 1]).toOption.getD []

def thinPack : Bytes :=
  (buildWithBases .w64 referenceCrates [sampleBlob 40 2] [sampleBlob 40 1]).toOption.getD []

def secondPack : Bytes := (build .w64 referenceCrates [sampleBlob 40 2]).toOption.getD []

def emptyPack : Bytes := (build .w64 referenceCrates []).toOption.getD []

def blobContract : GitStorage :=
  stateAfter "alice" [{ predecessor := "alice", call := .push storedPack [] }]

def createMain : RefUpdate where
  name := "refs/heads/main"
  oldSha := none
  newSha := "3b18e512dba79e4c8300dd08aeb37f8e728b8dad"

def thinDelta : UnresolvedDelta where
  baseSha := (sampleBlob 40 1).sha1 referenceCrates
  deltaData := computeDelta (sampleBlob 40 1).data (sampleBlob 40 2).data
  chain := []

theorem parse_built {objects : List PackObject} (hcount : objects.length < 2 ^ 32)
    (hobjects : ∀ o ∈ objects, o.data.length < 2 ^ 32) (htypes : ∀ o ∈ objects, IsObjType o.objType)
    (hsorted : objects.mergeSort sortsBefore = objects) :
    parse .w64 referenceCrates ((build .w64 referenceCrates objects).toOption.getD []) =
      .ok { objects, deltas := [] } := by
  obtain ⟨pack, hbuild, hparse⟩ := parse_build referenceCrates_zlib hcount hobjects htypes
  rw [hbuild, ← hsorted, ← hparse]
  rfl

theorem parse_storedPack : parse .w64 referenceCrates storedPack =
    .ok { objects := [sampleBlob 40 1], deltas := [] } :=
  parse_built (by decide) (by decide) (by decide) (List.mergeSort_singleton _)

theorem parse_secondPack : parse .w64 referenceCrates secondPack =
    .ok { objects := [sampleBlob 40 2], deltas := [] } :=
  parse_built (by decide) (by decide) (by decide) (List.mergeSort_singleton _)

theorem parse_emptyPack :
    parse .w64 referenceCrates emptyPack = .ok { objects := [], deltas := [] } :=
  parse_built (by decide) (by decide) (by decide) List.mergeSort_nil

theorem parse_thinPack : parse .w64 referenceCrates thinPack =
    .ok { objects := [], deltas := [thinDelta] } := by
  decide +kernel

theorem ne_nil_of_parse {pack : Bytes} {r : ParseResult}
    (h : parse .w64 referenceCrates pack = .ok r) : pack ≠ [] := by
  rintro rfl
  simp [parse_nil] at h

theorem sha1_sampleBlob_ne :
    (sampleBlob 40 1).sha1 referenceCrates ≠ (sampleBlob 40 2).sha1 referenceCrates := by
  decide +kernel

theorem thinDelta_applyTo : thinDelta.applyTo .w64 (sampleBlob 40 1) = .ok (sampleBlob 40 2) := by
  rw [UnresolvedDelta.applyTo, thinDelta, applyDelta_computeDelta (by decide) (by decide)]
  rfl

def oneStored : GitStorage :=
  { GitStorage.new "alice" with
    packs := (∅ : AList fun _ : Nat => Bytes).insert 0 storedPack
    packCount := 1 }

theorem push_storedPack {refUpdates : List RefUpdate} {s : GitStorage}
    (h : refUpdates.foldlM GitStorage.applyUpdate oneStored = .ok s) :
    (GitStorage.new "alice").push "alice" storedPack refUpdates = .ok s :=
  GitStorage.push_eq_ok.mpr ⟨rfl, _, GitStorage.storePack_eq_ok.mpr
    (.inr ⟨ne_nil_of_parse parse_storedPack, by decide, rfl⟩), h⟩

theorem getPacks_of_push_storedPack {refUpdates : List RefUpdate} {s : GitStorage}
    (h : (GitStorage.new "alice").push "alice" storedPack refUpdates = .ok s) :
    s.getPacks 0 = [storedPack] :=
  getPacks_push (represents_new "alice") (ne_nil_of_parse parse_storedPack) h

theorem getPacks_blobContract : blobContract.getPacks 0 = [storedPack] := by
  have hpush : (GitStorage.new "alice").push "alice" storedPack [] = .ok oneStored :=
    push_storedPack rfl
  rw [blobContract, stateAfter_push hpush]
  exact getPacks_of_push_storedPack hpush

theorem packData_secondPack :
    packData referenceCrates { packCount := 1, existingPacks := [storedPack] } secondPack =
      .ok thinPack := by
  decide +kernel

theorem handleReceivePack_thinPack :
    ∃ s', handleReceivePack referenceCrates blobContract "alice" [createMain] thinPack =
        .ok (s', .ok) ∧ s'.getPacks 0 = [storedPack, emptyPack] := by
  have hrun : (handleReceivePack referenceCrates blobContract "alice" [createMain]
      thinPack).toOption.map (fun r => (r.1.getPacks 0, r.2)) =
        some ([storedPack, emptyPack], .ok) := by
    decide +kernel
  obtain ⟨⟨s', report⟩, hs', heq⟩ := Option.map_eq_some_iff.mp hrun
  simp only [Prod.mk.injEq] at heq
  obtain ⟨hpacks, rfl⟩ := heq
  exact ⟨s', Outcome.toOption_eq_some.mp hs', hpacks⟩

theorem reconstructible_of_no_deltas {packs : List Bytes} {S : Set PackObject}
    (hobjects : parsedObjects C packs ⊆ S) (hdeltas : parsedDeltas C packs ⊆ ∅) {o : PackObject}
    (ho : Reconstructible C packs o) : o ∈ S :=
  Derived.mem_of_closed hobjects (fun d hd => absurd (hdeltas hd) (Set.notMem_empty d)) ho

theorem parsedObjects_pair {pack pack' : Bytes} {r r' : ParseResult} (hr : parse .w64 C pack = .ok r)
    (hr' : parse .w64 C pack' = .ok r') (o : PackObject) :
    o ∈ parsedObjects C [pack, pack'] ↔ o ∈ r.objects ∨ o ∈ r'.objects := by
  rw [← List.singleton_append, mem_parsedObjects_append, mem_parsedObjects_singleton hr,
    mem_parsedObjects_singleton hr']

theorem parsedDeltas_pair {pack pack' : Bytes} {r r' : ParseResult} (hr : parse .w64 C pack = .ok r)
    (hr' : parse .w64 C pack' = .ok r') (d : UnresolvedDelta) :
    d ∈ parsedDeltas C [pack, pack'] ↔ d ∈ r.deltas ∨ d ∈ r'.deltas := by
  rw [← List.singleton_append, mem_parsedDeltas_append, mem_parsedDeltas_singleton hr,
    mem_parsedDeltas_singleton hr']

theorem reconstructible_thinPack {o : PackObject}
    (ho : Reconstructible referenceCrates [storedPack, thinPack] o) :
    o = sampleBlob 40 1 ∨ o = sampleBlob 40 2 := by
  apply Derived.mem_of_closed (S := {o | o = sampleBlob 40 1 ∨ o = sampleBlob 40 2}) _ _ ho
  · intro o ho
    have hmem := (parsedObjects_pair parse_storedPack parse_thinPack o).mp ho
    exact .inl (by simpa using hmem)
  · intro d hd base hbase o hsha hfire
    have hmem := (parsedDeltas_pair parse_storedPack parse_thinPack d).mp hd
    have hd : d = thinDelta := by simpa using hmem
    have hfire : (d.applyTo .w64 base).toOption = some o := hfire
    subst hd
    rcases hbase with rfl | rfl
    · rw [thinDelta_applyTo] at hfire
      exact .inr (Option.some.inj hfire).symm
    · exact absurd hsha sha1_sampleBlob_ne.symm

theorem injOn_thinPack : Set.InjOn (PackObject.sha1 referenceCrates)
    {o | Reconstructible referenceCrates (blobContract.getPacks 0 ++ [thinPack]) o} := by
  rw [getPacks_blobContract]
  intro a ha b hb hsha
  rcases reconstructible_thinPack ha with rfl | rfl <;>
    rcases reconstructible_thinPack hb with rfl | rfl
  · rfl
  · exact absurd hsha sha1_sampleBlob_ne
  · exact absurd hsha.symm sha1_sampleBlob_ne
  · rfl

theorem mem_parsedDeltas_thinPack {d : UnresolvedDelta} :
    d ∈ parsedDeltas referenceCrates [thinPack] ↔ d = thinDelta := by
  rw [mem_parsedDeltas_singleton parse_thinPack, List.mem_singleton]

theorem reconstructible_storedPack :
    Reconstructible referenceCrates [storedPack] (sampleBlob 40 1) :=
  .seed ((mem_parsedObjects_singleton parse_storedPack).mpr (List.mem_singleton_self _))

/-- A legal thin pack on the stored blob is reported as ok, and its object is gone. -/
theorem push_loses_object : ∃ s',
    handleReceivePack referenceCrates blobContract "alice" [createMain] thinPack = .ok (s', .ok) ∧
    Set.InjOn (PackObject.sha1 referenceCrates)
      {o | Reconstructible referenceCrates (blobContract.getPacks 0 ++ [thinPack]) o} ∧
    BasesAtHand referenceCrates (blobContract.getPacks 0) thinPack ∧
    IncomingObject referenceCrates (blobContract.getPacks 0) thinPack (sampleBlob 40 2) ∧
    ¬ Reconstructible referenceCrates (s'.getPacks 0) (sampleBlob 40 2) := by
  obtain ⟨s', hrun, hpacks⟩ := handleReceivePack_thinPack
  refine ⟨s', hrun, injOn_thinPack, ?_, ?_, ?_⟩
  · intro d hd
    rw [mem_parsedDeltas_thinPack.mp hd, getPacks_blobContract]
    exact ⟨_, _, .inl reconstructible_storedPack, rfl, thinDelta_applyTo⟩
  · rw [getPacks_blobContract]
    exact .onStored (mem_parsedDeltas_thinPack.mpr rfl) reconstructible_storedPack rfl
      thinDelta_applyTo
  · rw [hpacks]
    intro ho
    have hmem : sampleBlob 40 2 ∈ ({sampleBlob 40 1} : Set PackObject) := by
      refine reconstructible_of_no_deltas (fun o ho => ?_) (fun d hd => ?_) ho
      · simpa using (parsedObjects_pair parse_storedPack parse_emptyPack o).mp ho
      · simpa using (parsedDeltas_pair parse_storedPack parse_emptyPack d).mp hd
    exact absurd hmem (by decide)

theorem push_keeps_objects_iff_thinPack : ∃ s',
    handleReceivePack referenceCrates blobContract "alice" [createMain] thinPack = .ok (s', .ok) ∧
    ((∀ o, IncomingObject referenceCrates (blobContract.getPacks 0) thinPack o →
      Reconstructible referenceCrates (s'.getPacks 0) o) ↔
    NothingDropped referenceCrates (blobContract.getPacks 0) thinPack) := by
  obtain ⟨s', hrun, -⟩ := handleReceivePack_thinPack
  exact ⟨s', hrun, push_keeps_objects_iff referenceCrates referenceCrates_zlib "alice" _ "alice"
    [createMain] thinPack s' hrun injOn_thinPack⟩

end NearGit.ServiceWorker
