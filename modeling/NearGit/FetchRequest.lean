import NearGit.GitServer.UploadPack
import NearGit.RequestDecoding

/-! The upload-pack request of a git client, and the responses of git-server and of the service
worker from its bytes on. -/

namespace NearGit.GitServer
open Lib NearGit.Packfile

/-- The SHA of a `want` line. The SHAs of `have` lines are only logged. -/
def wantedSha (line : Bytes) : Option String := do
  let text := Text.trim (Utf8.decodeLossy line)
  let rest ← Text.stripPrefix "want " text
  let sha := (Text.splitWhitespace rest).head?.getD ""
  if sha ≠ "" then return sha else none

def wants (body : Bytes) : List String := (PktLine.readUntilFlush body).1.filterMap wantedSha

def nakLine : Bytes := PktLine.encode (Utf8.encode "NAK\n")

/-- The body of `handle_upload_pack`, with the packs of the contract at hand. -/
def handleUploadPackBody (C : Crates) (packs : List Bytes) (body : Bytes) : Outcome Bytes :=
  if wants body = [] then .ok (nakLine ++ PktLine.flush)
  else do
    let packData ← handleUploadPack C packs
    return nakLine ++ packData

end NearGit.GitServer

namespace NearGit.ServiceWorker
open Lib NearGit.Packfile

/-- The second part of a `want` line. -/
def wantedSha (line : Bytes) : Option String :=
  let text := JsText.trim (JsText.textDecode line)
  if "want ".toList.isPrefixOf text.toList then some ((JsText.split text ' ')[1]?.getD "undefined")
  else none

/-- The body of `handleUploadPack`, where no view call throws. -/
def handleUploadPackBody (C : Crates) (views : Views) (body : Bytes) : Outcome Bytes :=
  match readPktLines body with
  | none => .err "Invalid array length"
  | some (lines, _) => do
    let nak := PktLine.encode (Utf8.encode "NAK\n")
    match ← handleUploadPack C (lines.filterMap wantedSha) views with
    | none => return nak ++ PktLine.flush
    | some packData => return nak ++ packData

end NearGit.ServiceWorker

namespace NearGit.FetchRequest
open Lib NearGit.Packfile
open NearGit.PushRequest (isSha lineEnd Command)

structure Want where
  sha : List Char
  capabilities : List String
  lf : Bool
  isSha_sha : isSha sha = true

namespace Want
variable (want : Want)

def tail : List Char :=
  (want.capabilities.flatMap fun capability => ' ' :: capability.toList) ++ lineEnd want.lf

def text : List Char := "want ".toList ++ (want.sha ++ want.tail)

def payload : Bytes := Utf8.encode (String.ofList want.text)

end Want

/-- The wants up to the flush, and whatever follows: shallow requests aside, what the client has. -/
structure Request where
  wants : List Want
  rest : Bytes
  length_payload_le : ∀ want ∈ wants, want.payload.length ≤ 65531

def Request.body (r : Request) : Bytes :=
  (r.wants.map Want.payload).flatMap PktLine.encode ++ (PktLine.flush ++ r.rest)

/-! ## Reading the wants -/

theorem Want.rdropWhile_tail (want : Want) {p : Char → Bool} (hlf : p '\n' = true) :
    want.tail.rdropWhile p = [] ∨ ∃ l, want.tail.rdropWhile p = ' ' :: l := by
  rcases hcaps : want.capabilities with _ | ⟨capability, capabilities⟩
  · left
    rw [tail, hcaps, List.flatMap_nil, List.nil_append]
    cases want.lf with
    | false => rfl
    | true => exact List.rdropWhile_concat_pos p [] '\n' hlf
  · -- what is left is a beginning of what was there
    have hpart := List.rdropWhile_prefix p want.tail
    rcases hleft : want.tail.rdropWhile p with _ | ⟨c, l⟩
    · exact .inl rfl
    · right
      rw [hleft, tail, hcaps, List.flatMap_cons, List.cons_append, List.cons_append,
        List.cons_prefix_cons] at hpart
      exact ⟨l, by rw [hpart.1]⟩

/-- The last digit of the SHA is no white space, so that trimming the line stops behind it. -/
theorem Want.rdropWhile_text (want : Want) {p : Char → Bool} (hlf : p '\n' = true)
    (hdigit : ∀ c ∈ want.sha, p c = false) : ∃ tail,
      want.text.rdropWhile p = "want ".toList ++ (want.sha ++ tail) ∧
        (tail = [] ∨ ∃ l, tail = ' ' :: l) := by
  refine ⟨want.tail.rdropWhile p, ?_, want.rdropWhile_tail hlf⟩
  obtain ⟨sha, c, hsha⟩ : ∃ sha c, want.sha = sha ++ [c] := by
    have hne := Command.sha_ne_nil want.isSha_sha
    exact ⟨want.sha.dropLast, want.sha.getLast hne, (List.dropLast_append_getLast hne).symm⟩
  have hc : p c = false := hdigit c (hsha ▸ List.mem_append_right _ (List.mem_singleton_self c))
  have hdrop := Text.rdropWhile_append_cons hc ("want ".toList ++ sha) want.tail
  rw [text, hsha]
  simp only [List.append_assoc, List.cons_append, List.nil_append] at hdrop ⊢
  exact hdrop

theorem Want.text_cons (want : Want) :
    want.text = 'w' :: ("ant ".toList ++ (want.sha ++ want.tail)) := rfl

theorem Want.gitServer_reads (want : Want) :
    GitServer.wantedSha want.payload = some (String.ofList want.sha) := by
  have hdigit : ∀ c ∈ want.sha, Text.isWhitespace c = false := by
    intro c hc
    have hbounds := JsText.toNat_of_isHexDigit (Command.isHexDigit_of_mem_sha want.isSha_sha hc)
    exact Text.isWhitespace_eq_false (by omega) (by omega)
  obtain ⟨tail, htext, htail⟩ := want.rdropWhile_text (p := Text.isWhitespace) rfl hdigit
  have hne := Command.sha_ne_nil want.isSha_sha
  have hline : Text.trim (Utf8.decodeLossy want.payload) =
      String.ofList ("want ".toList ++ (want.sha ++ tail)) := by
    rw [payload, Utf8.decodeLossy_encode, ← htext, text_cons, Text.trim_of_head rfl]
  have hfirst : (Text.splitWhitespace (String.ofList (want.sha ++ tail))).head? =
      some (String.ofList want.sha) := by
    apply Text.head?_splitWhitespace hne hdigit
    exact htail.imp_right fun ⟨l, hl⟩ => ⟨' ', l, hl, rfl⟩
  have hword : String.ofList want.sha ≠ "" := fun hempty => hne (Text.ofList_eq_empty.mp hempty)
  rw [GitServer.wantedSha, hline]
  simp only [Text.stripPrefix_append, hfirst, Option.getD_some, Option.bind_eq_bind,
    Option.bind_some, if_pos hword, Option.pure_def]

theorem Want.serviceWorker_reads (want : Want) :
    ServiceWorker.wantedSha want.payload = some (String.ofList want.sha) := by
  have hdigit : ∀ c ∈ want.sha, JsText.isWhitespace c = false := by
    intro c hc
    have hbounds := JsText.toNat_of_isHexDigit (Command.isHexDigit_of_mem_sha want.isSha_sha hc)
    exact JsText.isWhitespace_eq_false (by omega) (by omega)
  obtain ⟨tail, htext, htail⟩ := want.rdropWhile_text (p := JsText.isWhitespace) rfl hdigit
  have hspace : ' ' ∉ want.sha := (Command.notMem_sha want.isSha_sha).1
  have hline : JsText.trim (JsText.textDecode want.payload) =
      String.ofList ("want ".toList ++ (want.sha ++ tail)) := by
    rw [payload, text_cons, JsText.textDecode_of_head (by decide), JsText.trim_of_head rfl,
      ← text_cons, htext]
  have hparts : JsText.split (String.ofList ("want ".toList ++ (want.sha ++ tail))) ' ' =
      "want" :: JsText.split (String.ofList (want.sha ++ tail)) ' ' :=
    JsText.split_append (l := "want".toList) (by decide) (want.sha ++ tail)
  have hsecond : (JsText.split (String.ofList (want.sha ++ tail)) ' ')[0]? =
      some (String.ofList want.sha) := by
    rcases htail with rfl | ⟨l, rfl⟩
    · rw [List.append_nil, JsText.split_of_notMem hspace]
      rfl
    · rw [JsText.split_append hspace]
      rfl
  have hwant : "want ".toList.isPrefixOf ("want ".toList ++ (want.sha ++ tail)) = true :=
    List.isPrefixOf_iff_prefix.mpr (List.prefix_append ..)
  rw [ServiceWorker.wantedSha, hline]
  simp only [String.toList_ofList, if_pos hwant, hparts, List.getElem?_cons_succ, hsecond,
    Option.getD_some]

namespace Request
variable (r : Request)

def shas : List String := r.wants.map fun want => String.ofList want.sha

theorem readUntilFlush_body :
    PktLine.readUntilFlush r.body = (r.wants.map Want.payload, r.rest) :=
  PktLine.readUntilFlush_encodes (List.forall_mem_map.mpr r.length_payload_le) r.rest

theorem gitServer_wants : GitServer.wants r.body = r.shas := by
  rw [GitServer.wants, r.readUntilFlush_body]
  exact PushRequest.filterMap_map_eq Want.gitServer_reads r.wants

theorem serviceWorker_wants (hfew : r.wants.length < 2 ^ 32) :
    ServiceWorker.readPktLines r.body = some (r.wants.map Want.payload, r.rest) ∧
      (r.wants.map Want.payload).filterMap ServiceWorker.wantedSha = r.shas := by
  have halike := ServiceWorker.readAlike_encodes (List.forall_mem_map.mpr r.length_payload_le) r.rest
  have hread : ServiceWorker.readPktLinesFrom r.body 0 = (r.wants.map Want.payload, r.rest) :=
    (halike.readPktLinesFrom_eq List.drop_zero).1.trans r.readUntilFlush_body
  constructor
  · rw [ServiceWorker.readPktLines, hread, if_pos]
    rwa [List.length_map]
  · exact PushRequest.filterMap_map_eq Want.serviceWorker_reads r.wants

end Request

end NearGit.FetchRequest
