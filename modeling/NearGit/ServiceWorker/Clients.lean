import NearGit.Lib.Log
import NearGit.Lib.System
import NearGit.ServiceWorker.PushLoss
import NearGit.GitServer.UploadPack

/-! Any number of service workers that push to one contract, with views that may lag behind. -/

namespace NearGit.ServiceWorker
open Lib NearGit.Packfile NearGit.Contract

variable {C : Crates}

/-! ## The log of packs -/

def objectsOf (C : Crates) (incoming : List Bytes) : Set PackObject :=
  gathered (fun rest => {o | Reconstructible C [rest] o}) incoming

theorem mem_objectsOf_concat {incoming : List Bytes} {rest : Bytes} {o : PackObject} :
    o ∈ objectsOf C (incoming ++ [rest]) ↔
      o ∈ objectsOf C incoming ∨ Reconstructible C [rest] o := by
  unfold objectsOf
  rw [gathered_append, gathered_singleton]
  rfl

def DeltaWithin (C : Crates) (S : Set PackObject) (d : UnresolvedDelta) : Prop :=
  ∃ base ∈ S, base.sha1 C = d.baseSha ∧ ∃ obj ∈ S, d.applyTo .w64 base = .ok obj

theorem DeltaWithin.mono {S S' : Set PackObject} {d : UnresolvedDelta} (h : DeltaWithin C S d)
    (hsub : S ⊆ S') : DeltaWithin C S' d := by
  obtain ⟨base, hbase, hsha, obj, hobj, happly⟩ := h
  exact ⟨base, hsub hbase, hsha, obj, hsub hobj, happly⟩

theorem DeltaWithin.applyTo {S : Set PackObject} {d : UnresolvedDelta} (h : DeltaWithin C S d)
    (hinj : Set.InjOn (PackObject.sha1 C) S) {base : PackObject} (hbase : base ∈ S)
    (hsha : base.sha1 C = d.baseSha) : ∃ obj ∈ S, d.applyTo .w64 base = .ok obj := by
  obtain ⟨base', hbase', hsha', obj, hobj, happly⟩ := h
  have heq : base' = base := hinj hbase' hbase (hsha'.trans hsha.symm)
  exact ⟨obj, hobj, heq ▸ happly⟩

/-- What the log of packs has to do with the incoming packs behind it. -/
structure PackLog (C : Crates) (log incoming : List Bytes) : Prop where
  parses : ∀ pack ∈ log, ∃ r, parse .w64 C pack = .ok r
  objects : ∀ o, Reconstructible C log o ↔ o ∈ objectsOf C incoming
  deltas : ∀ d ∈ parsedDeltas C log, DeltaWithin C (objectsOf C incoming) d
  basesStored : EachAfter (BasesStored C) log
  merged : ∃ all, GitServer.allObjects C log = .ok all ∧ ∀ o, o ∈ all ↔ o ∈ objectsOf C incoming

theorem packLog_nil (C : Crates) : PackLog C [] [] where
  parses _ h := absurd h List.not_mem_nil
  objects o := by
    constructor
    · intro ho
      induction ho with
      | seed hseed => simp [parsedObjects] at hseed
      | rule hd => simp [parsedDeltas] at hd
    · simp [objectsOf]
  deltas d hd := by simp [parsedDeltas] at hd
  basesStored := eachAfter_nil _
  merged := ⟨[], rfl, by simp [objectsOf]⟩

theorem PackLog.reconstructibleWith {log incoming : List Bytes} {rest : Bytes}
    (h : PackLog C log incoming)
    (hinj : Set.InjOn (PackObject.sha1 C) (objectsOf C (incoming ++ [rest]))) (o : PackObject) :
    ReconstructibleWith C log {o | Reconstructible C [rest] o} o ↔
      o ∈ objectsOf C (incoming ++ [rest]) := by
  have hold : objectsOf C incoming ⊆ objectsOf C (incoming ++ [rest]) :=
    gathered_mono _ (List.subset_append_left ..)
  constructor
  · intro ho
    refine Derived.mem_of_closed ?_ ?_ ho
    · rintro a (ha | ha)
      · exact hold ((h.objects a).mp (.seed ha))
      · exact mem_objectsOf_concat.mpr (.inr ha)
    · -- a delta of the log has one base only, and that is an old object
      intro d hd base hbase a hsha hfire
      obtain ⟨obj, hobj, happly⟩ := ((h.deltas d hd).mono hold).applyTo hinj hbase hsha
      have hfire : (d.applyTo .w64 base).toOption = some a := hfire
      rw [Outcome.toOption_eq_some, happly, Outcome.ok.injEq] at hfire
      exact hfire ▸ hobj
  · intro ho
    rcases mem_objectsOf_concat.mp ho with ho | ho
    · exact ((h.objects o).mpr ho).withObjects _
    · exact .seed (.inr ho)

theorem PackLog.merged_concat {log incoming : List Bytes} {rest pack : Bytes}
    {bases filtered : List PackObject} (h : PackLog C log incoming)
    (hinj : Set.InjOn (PackObject.sha1 C) (objectsOf C (incoming ++ [rest])))
    (hcarries : Carries C bases filtered pack) (hbases : ∀ b ∈ bases, b ∈ objectsOf C incoming)
    (hnew : ∀ o ∈ filtered, Reconstructible C [rest] o)
    (hleft : ∀ o, Reconstructible C [rest] o → o ∈ filtered ∨ o ∈ objectsOf C incoming) :
    ∃ all, GitServer.allObjects C (log ++ [pack]) = .ok all ∧
      ∀ o, o ∈ all ↔ o ∈ objectsOf C (incoming ++ [rest]) := by
  obtain ⟨all, hall, hmem⟩ := h.merged
  have hstored : ∀ o ∈ all, o ∈ objectsOf C (incoming ++ [rest]) :=
    fun o ho => mem_objectsOf_concat.mpr (.inl ((hmem o).mp ho))
  have hfiltered : ∀ o ∈ filtered, o ∈ objectsOf C (incoming ++ [rest]) :=
    fun o ho => mem_objectsOf_concat.mpr (.inr (hnew o ho))
  obtain ⟨all', hmerge, hmem'⟩ := GitServer.mergePack_of_carries hinj hcarries
    (fun b hb => (hmem b).mpr (hbases b hb)) hstored hfiltered
  refine ⟨all', ?_, fun o => ?_⟩
  · rw [GitServer.allObjects, List.foldlM_append, ← GitServer.allObjects, hall, Outcome.ok_bind]
    simp [hmerge]
  · rw [hmem', hmem, mem_objectsOf_concat]
    constructor
    · exact Or.imp_right (hnew o)
    · rintro (ho | ho)
      · exact .inl ho
      · exact (hleft o ho).symm

/-- The step of the log: a client made the pack from what it read of the log earlier. -/
theorem PackLog.concat {log incoming : List Bytes} {views : Views} {rest pack : Bytes}
    (h : PackLog C log incoming) (hC : C.Zlib) (hviews : views.existingPacks ⊆ log)
    (hpack : packData C views rest = .ok pack)
    (hinj : Set.InjOn (PackObject.sha1 C) (objectsOf C (incoming ++ [rest]))) :
    PackLog C (log ++ [pack]) (incoming ++ [rest]) := by
  obtain ⟨newObjects, bases, filtered, hnew, hpacked⟩ := packData_spec hC hpack
  have hcarries : Carries C bases filtered pack := hpacked.carries
  have hold : objectsOf C incoming ⊆ objectsOf C (incoming ++ [rest]) :=
    gathered_mono _ (List.subset_append_left ..)
  have hrest {o : PackObject} (ho : Reconstructible C [rest] o) :
      o ∈ objectsOf C (incoming ++ [rest]) := mem_objectsOf_concat.mpr (.inr ho)
  have hwith := h.reconstructibleWith hinj
  have hmem (o : PackObject) : o ∈ newObjects ↔ Reconstructible C [rest] o :=
    incomingObjects_mem_iff hnew (hinj.mono fun _ ho => hrest ho) o
  have hread {o : PackObject} (ho : Reconstructible C views.existingPacks o) :
      Reconstructible C log o := ho.mono hviews
  have hbases : ∀ b ∈ bases, b ∈ objectsOf C incoming :=
    fun b hb => (h.objects b).mp (hread (hpacked.basesRead b hb))
  have hisNew : ∀ o ∈ filtered, Reconstructible C [rest] o :=
    fun o ho => (hmem o).mp (hpacked.isNew o ho)
  refine ⟨fun p hp => ?_, fun o => ?_, fun d hd => ?_, ?_, ?_⟩
  · rcases List.mem_append.mp hp with hp | hp
    · exact h.parses p hp
    · obtain ⟨r, -, hr, -⟩ := hcarries
      exact ⟨r, by rw [List.mem_singleton.mp hp, hr]⟩
  · have hinjWith := hinj.mono fun o ho => (hwith o).mp ho
    rw [reconstructible_after_push hC hviews hpack hinjWith, hwith]
  · rcases mem_parsedDeltas_append.mp hd with hd | hd
    · exact (h.deltas d hd).mono hold
    · obtain ⟨base, hbase, hsha, obj, hobj, happly⟩ := hcarries.delta hd
      exact ⟨base, hold (hbases base hbase), hsha, obj, hrest (hisNew obj hobj), happly⟩
  · have hstored := hcarries.basesStored fun b hb => hread (hpacked.basesRead b hb)
    exact eachAfter_concat.mpr ⟨h.basesStored, hstored⟩
  · refine h.merged_concat hinj hcarries hbases hisNew fun o ho => ?_
    -- an object that was left out is an old one by its SHA
    have hread' : ∀ b, Reconstructible C views.existingPacks b →
        b ∈ objectsOf C (incoming ++ [rest]) := fun b hb => hold ((h.objects b).mp (hread hb))
    rcases hpacked.read_of_injOn hinj hread' ((hmem o).mpr ho) (hrest ho) with hkept | hstored
    · exact .inl hkept
    · exact .inr ((h.objects o).mp (hread hstored))

theorem PackLog.collectObjects {log incoming : List Bytes} (h : PackLog C log incoming)
    (hinj : Set.InjOn (PackObject.sha1 C) (objectsOf C incoming)) :
    ∃ pending known, collectObjects C log = .ok (pending, known) ∧
      ∀ o, o ∈ known.objects ↔ o ∈ objectsOf C incoming := by
  obtain ⟨pending, known, hcollect⟩ := collectObjects_ok h.parses
    (fun o ho => (h.objects o).mp (.seed ho))
    (fun d hd base hbase hsha => (h.deltas d hd).applyTo hinj hbase hsha)
  refine ⟨pending, known, hcollect, fun o => ?_⟩
  rw [collectObjects_mem_iff hcollect (hinj.mono fun o ho => (h.objects o).mp ho), h.objects]

/-! ## The system -/

inductive Client
  | idle
  | counted (refUpdates : List RefUpdate) (rest : Bytes) (packCount : Nat)
  | built (refUpdates : List RefUpdate) (rest pack : Bytes)

structure World (ι : Type*) where
  contract : GitStorage
  client : ι → Client
  accepted : List Bytes

section System
variable {ι : Type*} [DecidableEq ι]

def World.setClient (w : World ι) (i : ι) (client : Client) : World ι :=
  { w with client := Function.update w.client i client }

/-- A step of client `i`. Its views return what an earlier state or the current one has: nothing
is ever cleared, so that is a part of the log from its start on. -/
inductive ClientStep (C : Crates) (account : ι → String) (w : World ι) (i : ι) : World ι → Prop
  | count (refUpdates : List RefUpdate) (rest : Bytes) (packCount : Nat) :
      w.client i = .idle → rest ≠ [] → packCount ≤ w.contract.getPackCount →
      ClientStep C account w i (w.setClient i (.counted refUpdates rest packCount))
  | build (refUpdates : List RefUpdate) (rest : Bytes) (packCount : Nat)
      (existingPacks : List Bytes) (pack : Bytes) :
      w.client i = .counted refUpdates rest packCount → existingPacks <+: w.contract.getPacks 0 →
      packData C { packCount, existingPacks } rest = .ok pack →
      ClientStep C account w i (w.setClient i (.built refUpdates rest pack))
  | accept (refUpdates : List RefUpdate) (rest pack : Bytes) (contract : GitStorage) :
      w.client i = .built refUpdates rest pack →
      w.contract.push (account i) pack refUpdates = .ok contract →
      ClientStep C account w i
        { (w.setClient i .idle) with contract, accepted := w.accepted ++ [rest] }
  | reject (refUpdates : List RefUpdate) (rest pack : Bytes) (e : ContractPanic) :
      w.client i = .built refUpdates rest pack →
      w.contract.push (account i) pack refUpdates = .error e →
      ClientStep C account w i (w.setClient i .idle)
  | stop : ClientStep C account w i (w.setClient i .idle)

def clients (C : Crates) (owner : String) (account : ι → String) : System (World ι) where
  init := {{ contract := .new owner, client := fun _ => .idle, accepted := [] }}
  step w w' := ∃ i, ClientStep C account w i w'

structure World.Invariant (C : Crates) (w : World ι) : Prop where
  represents : ∃ repo, w.contract.Represents repo
  log : PackLog C (w.contract.getPacks 0) w.accepted
  built : ∀ i refUpdates rest pack, w.client i = .built refUpdates rest pack →
    ∃ views : Views, views.existingPacks ⊆ w.contract.getPacks 0 ∧
      packData C views rest = .ok pack

variable {account : ι → String} {w w' : World ι} {i : ι}

theorem World.Invariant.setClient (h : w.Invariant C) (client : Client)
    (hclient : ∀ refUpdates rest pack, client = .built refUpdates rest pack →
      ∃ views : Views, views.existingPacks ⊆ w.contract.getPacks 0 ∧
        packData C views rest = .ok pack) : (w.setClient i client).Invariant C := by
  refine ⟨h.represents, h.log, fun j refUpdates rest pack hj => ?_⟩
  rcases eq_or_ne j i with rfl | hne
  · exact hclient refUpdates rest pack (by simpa [World.setClient] using hj)
  · exact h.built j refUpdates rest pack (by simpa [World.setClient, hne] using hj)

theorem World.Invariant.accept {refUpdates : List RefUpdate} {rest pack : Bytes}
    {contract : GitStorage} (h : w.Invariant C) (hC : C.Zlib)
    (hbuilt : w.client i = .built refUpdates rest pack)
    (hpush : w.contract.push (account i) pack refUpdates = .ok contract)
    (hinj : Set.InjOn (PackObject.sha1 C) (objectsOf C (w.accepted ++ [rest]))) :
    World.Invariant C
      { (w.setClient i .idle) with contract, accepted := w.accepted ++ [rest] } := by
  obtain ⟨repo, hrepo⟩ := h.represents
  obtain ⟨views, hviews, hpack⟩ := h.built i refUpdates rest pack hbuilt
  have hlog : contract.getPacks 0 = w.contract.getPacks 0 ++ [pack] :=
    getPacks_push hrepo (packData_ne_nil hC hpack) hpush
  refine ⟨?_, ?_, fun j refUpdates' rest' pack' hj => ?_⟩
  · have hexec : w.contract.exec { predecessor := account i, call := .push pack refUpdates } =
        .ok contract := hpush
    obtain ⟨⟨repo', -, hrepo'⟩, -⟩ := exec_represents hrepo hexec
    exact ⟨repo', hrepo'⟩
  · simp only [hlog]
    exact h.log.concat hC hviews hpack hinj
  · rcases eq_or_ne j i with rfl | hne
    · simp [World.setClient] at hj
    · -- what was read before is still a part of the log
      obtain ⟨views', hviews', hpack'⟩ :=
        h.built j refUpdates' rest' pack' (by simpa [World.setClient, hne] using hj)
      refine ⟨views', ?_, hpack'⟩
      simp only [hlog]
      exact List.subset_append_of_subset_left _ hviews'

theorem ClientStep.accepted_subset (h : ClientStep C account w i w') :
    w.accepted ⊆ w'.accepted := by
  cases h with
  | accept => exact List.subset_append_left ..
  | count | build | reject | stop => exact List.Subset.refl _

theorem ClientStep.invariant (hC : C.Zlib) (h : w.Invariant C) (hstep : ClientStep C account w i w')
    (hinj : Set.InjOn (PackObject.sha1 C) (objectsOf C w'.accepted)) : w'.Invariant C := by
  cases hstep with
  | count => exact h.setClient _ (by simp)
  | build refUpdates rest packCount existingPacks pack _ hpart hpack =>
    -- the packs that were read are a part of the log from here on
    apply h.setClient
    intro refUpdates' rest' pack' heq
    cases heq
    exact ⟨_, hpart.subset, hpack⟩
  | accept refUpdates rest pack contract hbuilt hpush => exact h.accept hC hbuilt hpush hinj
  | reject => exact h.setClient _ (by simp)
  | stop => exact h.setClient _ (by simp)

theorem clients_invariant {owner : String} (hC : C.Zlib)
    (h : (clients C owner account).Reachable w)
    (hinj : Set.InjOn (PackObject.sha1 C) (objectsOf C w.accepted)) : w.Invariant C := by
  refine System.Reachable.invariant_of
    (A := fun w => Set.InjOn (PackObject.sha1 C) (objectsOf C w.accepted)) ?_ ?_ ?_ h hinj
  · rintro w w' ⟨i, hstep⟩ hinj
    exact hinj.mono (gathered_mono _ hstep.accepted_subset)
  · rintro w rfl -
    exact ⟨⟨.empty, represents_new owner⟩, packLog_nil C, by simp⟩
  · rintro w w' hw ⟨i, hstep⟩ hinj
    exact hstep.invariant hC hw hinj

/-- Whatever the interleaving, the bases of each stored pack are in the packs before it, and
both servers put together exactly the objects of the accepted pushes. -/
theorem clients_lose_nothing (C : Crates) (hC : C.Zlib) (owner : String) (account : ι → String)
    (w : World ι) (hw : (clients C owner account).Reachable w)
    (hinj : Set.InjOn (PackObject.sha1 C) (objectsOf C w.accepted)) :
    EachAfter (BasesStored C) (w.contract.getPacks 0) ∧
    (∃ pending known, collectObjects C (w.contract.getPacks 0) = .ok (pending, known) ∧
      ∀ o, o ∈ known.objects ↔ o ∈ objectsOf C w.accepted) ∧
    ∃ all, GitServer.allObjects C (w.contract.getPacks 0) = .ok all ∧
      ∀ o, o ∈ all ↔ o ∈ objectsOf C w.accepted := by
  have hlog := (clients_invariant hC hw hinj).log
  exact ⟨hlog.basesStored, hlog.collectObjects hinj, hlog.merged⟩

theorem reachable_push {owner : String} (hw : (clients C owner account).Reachable w)
    (hidle : w.client i = .idle) (views : Views) {refUpdates : List RefUpdate} {rest pack : Bytes}
    {contract : GitStorage} (hrest : rest ≠ []) (hcount : views.packCount ≤ w.contract.getPackCount)
    (hpart : views.existingPacks <+: w.contract.getPacks 0)
    (hpack : packData C views rest = .ok pack)
    (hpush : w.contract.push (account i) pack refUpdates = .ok contract) :
    (clients C owner account).Reachable
      { contract, client := Function.update w.client i .idle, accepted := w.accepted ++ [rest] } := by
  have hcounted := hw.step ⟨i, .count refUpdates rest views.packCount hidle hrest hcount⟩
  have hbuilt := hcounted.step ⟨i, .build refUpdates rest views.packCount views.existingPacks pack
    (Function.update_self ..) hpart hpack⟩
  have haccepted := hbuilt.step ⟨i, .accept refUpdates rest pack contract
    (Function.update_self ..) hpush⟩
  simpa [World.setClient, Function.update_idem] using haccepted

theorem push_storedPack_thinPack : ∃ s₁ s₂,
    (GitStorage.new "alice").push "alice" storedPack [createMain] = .ok s₁ ∧
    s₁.push "alice" thinPack [] = .ok s₂ ∧
    s₁.getPackCount = 1 ∧ s₁.getPacks 0 = [storedPack] := by
  have hfirst : (GitStorage.new "alice").push "alice" storedPack [createMain] = .ok _ :=
    push_storedPack rfl
  have hthin : thinPack ≠ [] := ne_nil_of_parse parse_thinPack
  exact ⟨_, _, hfirst, GitStorage.push_eq_ok.mpr ⟨rfl, _, GitStorage.storePack_eq_ok.mpr
    (.inr ⟨hthin, by decide, rfl⟩), rfl⟩, rfl, getPacks_of_push_storedPack hfirst⟩

theorem injOn_twoClients :
    Set.InjOn (PackObject.sha1 referenceCrates) (objectsOf referenceCrates [storedPack, secondPack]) := by
  have hcases : ∀ o ∈ objectsOf referenceCrates [storedPack, secondPack],
      o = sampleBlob 40 1 ∨ o = sampleBlob 40 2 := by
    rintro o ⟨rest, hrest, ho⟩
    have hsingle {r : ParseResult} (hr : parse .w64 referenceCrates rest = .ok r)
        (hnil : r.deltas = []) :
        o ∈ {o | o ∈ r.objects} := by
      refine reconstructible_of_no_deltas (fun o ho => ?_) (fun d hd => ?_) ho
      · exact (mem_parsedObjects_singleton hr).mp ho
      · simpa [hnil] using (mem_parsedDeltas_singleton hr).mp hd
    rcases List.mem_pair.mp hrest with rfl | rfl
    · exact .inl (by simpa using hsingle parse_storedPack rfl)
    · exact .inr (by simpa using hsingle parse_secondPack rfl)
  intro a ha b hb hsha
  rcases hcases a ha with rfl | rfl <;> rcases hcases b hb with rfl | rfl
  · rfl
  · exact absurd hsha sha1_sampleBlob_ne
  · exact absurd hsha.symm sha1_sampleBlob_ne
  · rfl

theorem clients_lose_nothing_twoClients : ∃ w : World Bool,
    (clients referenceCrates "alice" fun _ => "alice").Reachable w ∧
    w.accepted = [storedPack, secondPack] ∧
    EachAfter (BasesStored referenceCrates) (w.contract.getPacks 0) ∧
    (∃ pending known, collectObjects referenceCrates (w.contract.getPacks 0) = .ok (pending, known) ∧
      ∀ o, o ∈ known.objects ↔ o ∈ objectsOf referenceCrates w.accepted) ∧
    ∃ all, GitServer.allObjects referenceCrates (w.contract.getPacks 0) = .ok all ∧
      ∀ o, o ∈ all ↔ o ∈ objectsOf referenceCrates w.accepted := by
  obtain ⟨s₁, s₂, h₁, h₂, hcount, hpacks⟩ := push_storedPack_thinPack
  have hrest₁ : storedPack ≠ [] := ne_nil_of_parse parse_storedPack
  have hrest₂ : secondPack ≠ [] := ne_nil_of_parse parse_secondPack
  have hpart : [storedPack] <+: s₁.getPacks 0 := hpacks ▸ List.prefix_refl _
  have hfirst : (clients referenceCrates "alice" fun _ : Bool => "alice").Reachable _ :=
    reachable_push (i := true) (.init rfl) rfl { packCount := 0, existingPacks := [] } hrest₁
      (Nat.zero_le _) List.nil_prefix (by decide +kernel) h₁
  have hsecond : (clients referenceCrates "alice" fun _ : Bool => "alice").Reachable _ :=
    reachable_push (i := false) hfirst (by simp) { packCount := 1, existingPacks := [storedPack] }
      hrest₂ hcount.ge hpart packData_secondPack h₂
  exact ⟨_, hsecond, rfl, clients_lose_nothing referenceCrates referenceCrates_zlib "alice" _ _
    hsecond injOn_twoClients⟩

end System

end NearGit.ServiceWorker
