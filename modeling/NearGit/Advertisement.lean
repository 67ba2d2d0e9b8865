import NearGit.FrontEnds

/-! The ref advertisement of git-server and of the service worker, and what a git client reads in
it. -/

namespace NearGit.GitServer
open Lib

def capabilities : String := "report-status delete-refs"

/-- HEAD is `refs/heads/main`, else `refs/heads/master`, else the first ref. -/
def headRef (refs : List (String × String)) : Option (String × String) :=
  (refs.find? fun r => r.1 = "refs/heads/main").or
    ((refs.find? fun r => r.1 = "refs/heads/master").or refs.head?)

def refLines (refs : List (String × String)) : List String :=
  match headRef refs with
  -- the empty repository: only there is no HEAD
  | none => [s!"{zeroSha} capabilities^\x7b\x7d{PushRequest.nul}{capabilities}\n"]
  | some (headName, headSha) =>
    s!"{headSha} HEAD{PushRequest.nul}{capabilities} symref=HEAD:{headName}\n" ::
      refs.map fun (refName, sha) => s!"{sha} {refName}\n"

def handleInfoRefs (service : String) (refs : List (String × String)) : Bytes :=
  PktLine.encode (Utf8.encode s!"# service={service}\n") ++ PktLine.flush ++
    ((refLines refs).flatMap fun line => PktLine.encode (Utf8.encode line)) ++ PktLine.flush

end NearGit.GitServer

namespace NearGit.ServiceWorker
open Lib

def capabilities : String := "report-status delete-refs"

/-- `refs.find(main) || refs.find(master) || refs[0]`; an entry that is found counts as true. -/
def headEntry (refs : List (String × String)) : Option (String × String) :=
  match refs.find? fun r => r.1 = "refs/heads/main" with
  | some entry => some entry
  | none =>
    match refs.find? fun r => r.1 = "refs/heads/master" with
    | some entry => some entry
    | none => refs[0]?

def refParts (refs : List (String × String)) : List Bytes :=
  match headEntry refs with
  | none => [pktLineEncodeString s!"{zeroSha} capabilities^\x7b\x7d{nul}{capabilities}\n"]
  | some (headName, headSha) =>
    let caps := s!"{capabilities} symref=HEAD:{headName}"
    pktLineEncodeString s!"{headSha} HEAD{nul}{caps}\n" ::
      refs.map fun (refName, sha) => pktLineEncodeString s!"{sha} {refName}\n"

def handleInfoRefs (service : String) (refs : List (String × String)) : Bytes :=
  ([pktLineEncodeString s!"# service={service}\n", pktLineFlush] ++ refParts refs ++
    [pktLineFlush]).flatten

end NearGit.ServiceWorker

namespace NearGit.Advertisement
open Lib NearGit.Contract
open NearGit.GitServer (headRef refLines handleInfoRefs zeroSha)
open NearGit.PushRequest (nul)

/-! ## What a client reads -/

/-- The capabilities, and the refs, HEAD among them. -/
structure Advertised where
  capabilities : List String
  refs : List (String × String)
deriving DecidableEq

def chomp (line : String) : String :=
  if line.toList.getLast? = some '\n' then String.ofList line.toList.dropLast else line

def readRef (entry : String) : Option (String × String) :=
  (Text.splitOnce ' ' entry).map Prod.swap

def readLines : List String → Option Advertised
  | [] => none
  | first :: others => do
    let (entry, capabilities) ← Text.splitOnce nul (chomp first)
    let head ← readRef entry
    let refs ← others.mapM fun line => readRef (chomp line)
    return {
      capabilities := JsText.split capabilities ' '
      refs := if head.1 = "capabilities^\x7b\x7d" then refs else head :: refs }

def read (service : String) (body : Bytes) : Option Advertised := do
  let (announcement, rest) := PktLine.readUntilFlush body
  let (lines, after) := PktLine.readUntilFlush rest
  if announcement = [Utf8.encode s!"# service={service}\n"] ∧ after = [] then
    let texts ← lines.mapM Utf8.decode
    readLines texts
  else none

def advertised (refs : List (String × String)) : Advertised :=
  match headRef refs with
  | none => { capabilities := ["report-status", "delete-refs"], refs := [] }
  | some (name, sha) => {
      capabilities := ["report-status", "delete-refs", "symref=HEAD:" ++ name]
      refs := ("HEAD", sha) :: refs }

/-- Every line fits a pkt-line, and no SHA ends early; HEAD stands for a name without a space. -/
structure Readable (refs : List (String × String)) : Prop where
  fits : ∀ line ∈ refLines refs, (Utf8.encode line).length ≤ 65531
  sha : ∀ r ∈ refs, ' ' ∉ r.2.toList ∧ nul ∉ r.2.toList
  head : ∀ r ∈ headRef refs, ' ' ∉ r.1.toList

theorem chomp_concat (l : List Char) : chomp (String.ofList (l ++ ['\n'])) = String.ofList l := by
  rw [chomp, String.toList_ofList, List.getLast?_concat, if_pos rfl, List.dropLast_concat]

theorem readRef_append {sha : List Char} (hsha : ' ' ∉ sha) (name : List Char) :
    readRef (String.ofList (sha ++ ' ' :: name)) =
      some (String.ofList name, String.ofList sha) := by
  rw [readRef, Text.splitOnce_append hsha]
  rfl

theorem headRef_eq_none {refs : List (String × String)} : headRef refs = none ↔ refs = [] := by
  unfold headRef
  rw [Option.or_eq_none_iff, Option.or_eq_none_iff, List.head?_eq_none_iff]
  constructor
  · exact fun h => h.2.2
  · rintro rfl
    exact ⟨rfl, rfl, rfl⟩

theorem headRef_mem {refs : List (String × String)} {r : String × String}
    (h : headRef refs = some r) : r ∈ refs := by
  unfold headRef at h
  rcases hmain : refs.find? fun r => r.1 = "refs/heads/main" with _ | main
  · rcases hmaster : refs.find? fun r => r.1 = "refs/heads/master" with _ | master
    · rw [hmain, hmaster, Option.none_or, Option.none_or] at h
      exact List.mem_of_mem_head? h
    · rw [hmain, hmaster, Option.none_or, Option.some_or] at h
      exact Option.some.inj h ▸ List.mem_of_find?_eq_some hmaster
  · rw [hmain, Option.some_or] at h
    exact Option.some.inj h ▸ List.mem_of_find?_eq_some hmain

theorem readRef_line (name sha : String) (h : ' ' ∉ sha.toList) :
    readRef (chomp s!"{sha} {name}\n") = some (name, sha) := by
  have hline : s!"{sha} {name}\n" =
      String.ofList ((sha.toList ++ ' ' :: name.toList) ++ ['\n']) := by
    apply String.toList_inj.mp
    simp [toString]
  rw [hline, chomp_concat, readRef_append h, String.ofList_toList, String.ofList_toList]

theorem readRefs (refs : List (String × String)) (h : ∀ r ∈ refs, ' ' ∉ r.2.toList) :
    (refs.map fun (refName, sha) => s!"{sha} {refName}\n").mapM
      (fun line => readRef (chomp line)) = some refs := by
  induction refs with
  | nil => rfl
  | cons r refs ih =>
    obtain ⟨hr, hrefs⟩ := List.forall_mem_cons.mp h
    rw [List.map_cons, List.mapM_cons, ih hrefs, readRef_line r.1 r.2 hr]
    rfl

theorem readLines_cons {first : String} {sha name caps : List Char}
    (hfirst : first.toList = ((sha ++ ' ' :: name) ++ nul :: caps) ++ ['\n'])
    (hsha : ' ' ∉ sha ∧ nul ∉ sha) (hname : nul ∉ name) {refs : List (String × String)}
    (hrefs : ∀ r ∈ refs, ' ' ∉ r.2.toList) :
    readLines (first :: refs.map fun (refName, sha) => s!"{sha} {refName}\n") = some {
      capabilities := JsText.split (String.ofList caps) ' '
      refs :=
        if String.ofList name = "capabilities^\x7b\x7d" then refs
        else (String.ofList name, String.ofList sha) :: refs } := by
  have hentry : nul ∉ sha ++ ' ' :: name := by
    rw [List.mem_append, List.mem_cons, not_or, not_or]
    exact ⟨hsha.2, by decide, hname⟩
  rw [← String.ofList_toList (s := first), hfirst]
  simp only [readLines, chomp_concat, Text.splitOnce_append hentry, readRef_append hsha.1,
    readRefs refs hrefs, Option.bind_eq_bind, Option.bind_some]
  rfl

theorem split_capabilities {name : String} (h : ' ' ∉ name.toList) :
    JsText.split s!"{GitServer.capabilities} symref=HEAD:{name}" ' ' =
      ["report-status", "delete-refs", "symref=HEAD:" ++ name] := by
  have hcaps : s!"{GitServer.capabilities} symref=HEAD:{name}" = String.ofList
      ("report-status".toList ++ ' ' :: ("delete-refs".toList ++ ' ' ::
        ("symref=HEAD:" ++ name).toList)) := by
    apply String.toList_inj.mp
    simp [toString, GitServer.capabilities]
  have hsymref : ' ' ∉ ("symref=HEAD:" ++ name).toList := by
    rw [String.toList_append, List.mem_append, not_or]
    exact ⟨by decide, h⟩
  rw [hcaps, JsText.split_append (by decide), JsText.split_append (by decide),
    JsText.split_of_notMem hsymref, String.ofList_toList, String.ofList_toList,
    String.ofList_toList]

theorem readLines_refLines {refs : List (String × String)} (h : Readable refs) :
    readLines (refLines refs) = some (advertised refs) := by
  unfold refLines advertised
  rcases hhead : headRef refs with _ | ⟨name, sha⟩
  · -- the line that stands for no refs
    have hline : (s!"{zeroSha} capabilities^\x7b\x7d{nul}{GitServer.capabilities}\n").toList =
        ((zeroSha.toList ++ ' ' :: "capabilities^\x7b\x7d".toList) ++
          nul :: GitServer.capabilities.toList) ++ ['\n'] := by
      simp [toString]
    have hnone : ∀ r ∈ ([] : List (String × String)), ' ' ∉ r.2.toList :=
      fun r hr => absurd hr List.not_mem_nil
    exact readLines_cons hline (by decide) (by decide) hnone
  · have hline : (s!"{sha} HEAD{nul}{GitServer.capabilities} symref=HEAD:{name}\n").toList =
        ((sha.toList ++ ' ' :: "HEAD".toList) ++
          nul :: (s!"{GitServer.capabilities} symref=HEAD:{name}").toList) ++ ['\n'] := by
      simp [toString]
    have hread := readLines_cons hline (h.sha _ (headRef_mem hhead)) (by decide)
      fun r hr => (h.sha r hr).1
    simp only [String.ofList_toList, split_capabilities (h.head _ hhead)] at hread
    exact hread

theorem mapM_decode (texts : List String) :
    (texts.map fun line => Utf8.encode line).mapM Utf8.decode = some texts := by
  induction texts with
  | nil => rfl
  | cons text texts ih =>
    rw [List.map_cons, List.mapM_cons, Utf8.decode_encode, ih]
    rfl

theorem read_handleInfoRefs {service : String} {refs : List (String × String)}
    (hservice : (Utf8.encode s!"# service={service}\n").length ≤ 65531) (h : Readable refs) :
    read service (handleInfoRefs service refs) = some (advertised refs) := by
  have hannounced := PktLine.readUntilFlush_encodes (List.forall_mem_singleton.mpr hservice)
    (((refLines refs).flatMap fun line => PktLine.encode (Utf8.encode line)) ++ PktLine.flush)
  have hlines := PktLine.readUntilFlush_encodes (List.forall_mem_map.mpr h.fits) []
  rw [List.flatMap_map, List.append_nil] at hlines
  rw [List.flatMap_singleton] at hannounced
  rw [read, handleInfoRefs]
  simp only [List.append_assoc] at hannounced ⊢
  rw [hannounced, hlines]
  simp only [and_self, if_true, mapM_decode, Option.bind_eq_bind, Option.bind_some,
    readLines_refLines h]

/-! ## The refs of the contract -/

/-- The name that HEAD stands for leaves room for the capabilities in its line. -/
def HeadFits (refs : List (String × String)) : Prop :=
  ∀ r ∈ headRef refs, (Utf8.encode r.1).length ≤ 65446

theorem length_encode_sha {sha : String} (h : PushRequest.isSha sha.toList = true) :
    (Utf8.encode sha).length = 40 := by
  have hascii : ∀ c ∈ sha.toList, c.toNat < 128 := by
    intro c hc
    have hdigit := JsText.toNat_of_isHexDigit (PushRequest.Command.isHexDigit_of_mem_sha h hc)
    omega
  rw [← String.ofList_toList (s := sha), Utf8.length_encode_ascii hascii,
    FrontEnds.length_sha h]

theorem encode_of_toList {s : String} {l r : List Char} (h : s.toList = l ++ r) :
    Utf8.encode s = Utf8.encode (String.ofList l) ++ Utf8.encode (String.ofList r) := by
  rw [← Utf8.encode_append, ← h, String.ofList_toList]

theorem length_refLine {name sha : String} (h : FrontEnds.CleanRef name sha) :
    (Utf8.encode s!"{sha} {name}\n").length ≤ 65531 := by
  have hline : (s!"{sha} {name}\n").toList = sha.toList ++ ([' '] ++ (name.toList ++ ['\n'])) := by
    simp [toString]
  have hspace : (Utf8.encode (String.ofList [' '])).length = 1 := by decide
  have hlf : (Utf8.encode (String.ofList ['\n'])).length = 1 := by decide
  have hsha := length_encode_sha h.sha
  have hname := h.length
  rw [encode_of_toList hline, Utf8.encode_append, Utf8.encode_append, List.length_append,
    List.length_append, List.length_append, String.ofList_toList, String.ofList_toList]
  omega

theorem length_headLine {name sha : String} (hsha : PushRequest.isSha sha.toList = true)
    (hname : (Utf8.encode name).length ≤ 65446) :
    (Utf8.encode s!"{sha} HEAD{nul}{GitServer.capabilities} symref=HEAD:{name}\n").length ≤
      65531 := by
  obtain ⟨middle, hmiddle, hline⟩ : ∃ middle : List Char,
      (Utf8.encode (String.ofList middle)).length = 44 ∧
        (s!"{sha} HEAD{nul}{GitServer.capabilities} symref=HEAD:{name}\n").toList =
          sha.toList ++ (middle ++ (name.toList ++ ['\n'])) := by
    refine ⟨" HEAD".toList ++ nul :: (GitServer.capabilities ++ " symref=HEAD:").toList, ?_, ?_⟩
    · decide
    · simp [toString]
  have hlf : (Utf8.encode (String.ofList ['\n'])).length = 1 := by decide
  have hsha := length_encode_sha hsha
  rw [encode_of_toList hline, Utf8.encode_append, Utf8.encode_append, List.length_append,
    List.length_append, List.length_append, String.ofList_toList, String.ofList_toList]
  omega

theorem readable_of_clean {refs : List (String × String)}
    (hclean : ∀ r ∈ refs, FrontEnds.CleanRef r.1 r.2) (hhead : HeadFits refs) : Readable refs := by
  have hsha : ∀ r ∈ refs, ' ' ∉ r.2.toList ∧ nul ∉ r.2.toList :=
    fun r hr => PushRequest.Command.notMem_sha (hclean r hr).sha
  refine ⟨?_, hsha, fun r hr hspace => ?_⟩
  · intro line hline
    unfold refLines at hline
    rcases hfound : headRef refs with _ | ⟨name, sha⟩
    · rw [hfound, List.mem_singleton] at hline
      rw [hline]
      decide +kernel
    · rw [hfound, List.mem_cons] at hline
      rcases hline with rfl | hline
      · exact length_headLine (hclean _ (headRef_mem hfound)).sha (hhead _ hfound)
      · obtain ⟨r, hr, rfl⟩ := List.mem_map.mp hline
        exact length_refLine (hclean r hr)
  · exact absurd ((hclean r (headRef_mem hr)).chars ' ' hspace) (by decide)

theorem read_stateAfter (owner : String) (served : List FrontEnds.Served) {service : String}
    (hservice : (Utf8.encode s!"# service={service}\n").length ≤ 65531)
    (hhead : HeadFits (FrontEnds.stateAfter owner served).getRefs) :
    read service (handleInfoRefs service (FrontEnds.stateAfter owner served).getRefs) =
      some (advertised (FrontEnds.stateAfter owner served).getRefs) := by
  obtain ⟨repo, hrepo, -, hclean⟩ := FrontEnds.stateAfter_clean owner served
  apply read_handleInfoRefs hservice
  apply readable_of_clean _ hhead
  exact fun r hr => hclean r.1 r.2 ((hrepo.mem_getRefs r.1 r.2).mp hr)

def createServed : FrontEnds.Served :=
  .gitServer "alice" (.answered "") (.commands PushRequest.createA)

theorem getRefs_createServed : (FrontEnds.stateAfter "alice" [createServed]).getRefs =
    [("refs/a", String.ofList (List.replicate 40 'b'))] := by
  obtain ⟨hupdates, hpack⟩ := PushRequest.gitServer_decodes PushRequest.createA
  obtain ⟨args, hargs⟩ : ∃ args, GitServer.encodePushArgs PushRequest.createA.pack
    PushRequest.createA.updates = .ok args := ⟨_, rfl⟩
  obtain ⟨stored, hpush, hrefs⟩ : ∃ stored, (GitStorage.new "alice").push "alice"
      PushRequest.createA.pack PushRequest.createA.updates = .ok stored ∧
    stored.getRefs = [("refs/a", String.ofList (List.replicate 40 'b'))] := ⟨_, rfl, rfl⟩
  have hhandled : GitServer.handleReceivePack (.new "alice") "alice" (.answered "")
      PushRequest.createA.body = _ :=
    GitServer.handleReceivePack_answered hpack hupdates hargs hpush
  rw [FrontEnds.stateAfter, List.foldl_cons, List.foldl_nil, createServed,
    FrontEnds.Served.handle, PushRequest.AnyRequest.body, hhandled]
  exact hrefs

theorem headFits_createServed :
    HeadFits (FrontEnds.stateAfter "alice" [createServed]).getRefs := by
  rw [getRefs_createServed]
  intro r hr
  rw [Option.mem_def, headRef, List.find?_singleton, List.find?_singleton] at hr
  have hfirst := Option.some.inj hr
  rw [← hfirst]
  decide

end NearGit.Advertisement
