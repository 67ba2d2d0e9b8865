import NearGit.GitServer.Malformed
import NearGit.RequestDecoding
import NearGit.ServiceWorker.Reports

/-! The report-status responses of git-server and of the service worker. -/

namespace NearGit.ServiceWorker
open Lib

def pktLineEncode (data : Bytes) : Bytes :=
  let len := data.length + 4
  -- `len.toString(16).padStart(4, '0')`
  let hex := (Nat.toDigits 16 len).leftpad 4 '0'
  Utf8.encode (String.ofList hex) ++ data

def pktLineFlush : Bytes := Utf8.encode "0000"

def pktLineEncodeString (str : String) : Bytes := pktLineEncode (Utf8.encode str)

def makeReceivePackResponse (lines : List String) : Bytes :=
  (lines.flatMap fun l => pktLineEncodeString s!"{l}\n") ++ pktLineFlush

theorem makeReceivePackResponse_eq (lines : List String) :
    makeReceivePackResponse lines = GitServer.receivePackResponse lines := rfl

end NearGit.ServiceWorker

namespace NearGit.PushRequest
open Lib NearGit.Contract

/-! ## Requests with or without commands -/

inductive AnyRequest
  | commands (r : Request)
  | packOnly (pack : Bytes)

namespace AnyRequest

def body : AnyRequest → Bytes
  | .commands r => r.body
  | .packOnly pack => PktLine.flush ++ pack

def pack : AnyRequest → Bytes
  | .commands r => r.pack
  | .packOnly pack => pack

def updates : AnyRequest → List RefUpdate
  | .commands r => r.updates
  | .packOnly _ => []

def trimmed : AnyRequest → List RefUpdate
  | .commands r => r.first.update :: r.others.map fun o => o.1.trimmed
  | .packOnly _ => []

def names (r : AnyRequest) : List String := r.updates.map RefUpdate.name

/-- Only the name in the first command may end in white space. -/
def NamesKept : AnyRequest → Prop
  | .commands r => ∀ o ∈ r.others, ¬ o.1.EndsInWhitespace
  | .packOnly _ => True

end AnyRequest

/-! ## Report-status -/

def reportLine (line : String) : Bytes := Utf8.encode s!"{line}\n"

def LineFits (line : String) : Prop := (reportLine line).length ≤ 65531

def ReadAs (body : Bytes) (lines : List String) : Prop :=
  ∀ rest, PktLine.readUntilFlush (body ++ rest) = (lines.map reportLine, rest)

def IsResult (name line : String) : Prop :=
  line = s!"ok {name}" ∨ ∃ reason : String, line = s!"ng {name} {reason}"

/-- First `unpack ok` or `unpack` with an error, then a result for each ref; everything is `ok`
exactly on success. -/
def FollowsProtocol (names : List String) (success : Prop) (body : Bytes) : Prop :=
  ∃ (unpack : String) (results : List String), ReadAs body (s!"unpack {unpack}" :: results) ∧
    List.Forall₂ IsResult names results ∧
    ((unpack = "ok" ∧ results = names.map fun name => s!"ok {name}") ↔ success)

theorem toList_unpack (unpack : String) :
    (s!"unpack {unpack}").toList = 'u' :: ("npack ".toList ++ unpack.toList) := by
  simp [toString]

theorem toList_ok (name : String) : (s!"ok {name}").toList = 'o' :: 'k' :: ' ' :: name.toList := by
  simp [toString]

theorem toList_ng (name reason : String) :
    (s!"ng {name} {reason}").toList =
      'n' :: 'g' :: ' ' :: (name.toList ++ ' ' :: reason.toList) := by
  simp [toString]

theorem reportLine_eq (line : String) :
    reportLine line = Utf8.encode (String.ofList (line.toList ++ ['\n'])) := by
  rw [reportLine]
  congr 1
  apply String.toList_inj.mp
  simp [toString]

theorem reportLine_injective : Function.Injective reportLine := by
  intro a b h
  rw [reportLine_eq, reportLine_eq] at h
  have hchars := String.ofList_inj.mp (Utf8.encode_injective h)
  exact String.toList_inj.mp (List.append_cancel_right hchars)

theorem plainHead_reportLine {line : String} {c : Char} {l : List Char}
    (hline : line.toList = c :: l) (hc : c = 'u' ∨ c = 'o' ∨ c = 'n') :
    PktLine.PlainHead (reportLine line) := by
  have hsmall : c.toNat < 128 := by
    rcases hc with rfl | rfl | rfl <;> decide
  have hascii : ∀ ch ∈ [c], ch.toNat < 128 := List.forall_mem_singleton.mpr hsmall
  have hdigit : ∀ d : Fin 16, UInt8.ofNat c.toNat ≠ UInt8.ofNat (Nat.digitChar d.val).toNat := by
    rcases hc with rfl | rfl | rfl <;> decide
  refine ⟨UInt8.ofNat c.toNat, ?_, fun d hd => hdigit ⟨d, hd⟩⟩
  rw [reportLine_eq, hline, List.cons_append, ← List.singleton_append, Utf8.encode_append,
    Utf8.encode_ascii hascii]
  rfl

theorem IsResult.plainHead {name line : String} (h : IsResult name line) :
    PktLine.PlainHead (reportLine line) := by
  rcases h with rfl | ⟨reason, rfl⟩
  · exact plainHead_reportLine (toList_ok name) (.inr (.inl rfl))
  · exact plainHead_reportLine (toList_ng name reason) (.inr (.inr rfl))

theorem flatMap_reportLine (written : List String) :
    GitServer.receivePackResponse written =
      (written.map reportLine).flatMap PktLine.encode ++ PktLine.flush := by
  rw [List.flatMap_map]
  rfl

theorem readAs_response {written : List String} (h : ∀ l ∈ written, LineFits l) :
    ReadAs (GitServer.receivePackResponse written) written := by
  intro rest
  rw [flatMap_reportLine, List.append_assoc]
  exact PktLine.readUntilFlush_encodes (List.forall_mem_map.mpr h) rest

theorem eq_of_readAs {written lines : List String} (hcount : written.length ≤ lines.length)
    (hplain : ∀ l ∈ lines, PktLine.PlainHead (reportLine l))
    (h : ReadAs (GitServer.receivePackResponse written) lines) :
    written = lines ∧ ∀ l ∈ written, LineFits l := by
  have hread := congrArg Prod.fst (h [])
  rw [flatMap_reportLine, List.append_assoc] at hread
  have hcount' : (written.map reportLine).length ≤ (lines.map reportLine).length := by
    rwa [List.length_map, List.length_map]
  have hfits : ∀ l ∈ written, LineFits l := fun l hl =>
    PktLine.fits_of_readUntilFlush (List.forall_mem_map.mpr hplain) hcount' hread _
      (List.mem_map_of_mem hl)
  have hsame := congrArg Prod.fst ((readAs_response hfits []).symm.trans (h []))
  exact ⟨List.map_injective_iff.mpr reportLine_injective hsame, hfits⟩

theorem followsProtocol_iff {names written : List String} {success : Prop}
    (hcount : written.length ≤ names.length + 1) :
    FollowsProtocol names success (GitServer.receivePackResponse written) ↔
      (∀ l ∈ written, LineFits l) ∧ ∃ (unpack : String) (results : List String),
        written = s!"unpack {unpack}" :: results ∧
        List.Forall₂ IsResult names results ∧
        ((unpack = "ok" ∧ results = names.map fun name => s!"ok {name}") ↔ success) := by
  constructor
  · rintro ⟨unpack, results, hread, hresults, hok⟩
    have hplain : ∀ l ∈ s!"unpack {unpack}" :: results, PktLine.PlainHead (reportLine l) := by
      refine List.forall_mem_cons.mpr ⟨plainHead_reportLine (toList_unpack unpack) (.inl rfl), ?_⟩
      intro l hl
      obtain ⟨name, -, hresult⟩ := Packfile.exists_of_mem_right hresults hl
      exact hresult.plainHead
    have hlen : written.length ≤ (s!"unpack {unpack}" :: results).length := by
      rwa [List.length_cons, ← hresults.length_eq]
    obtain ⟨hsame, hfits⟩ := eq_of_readAs hlen hplain hread
    exact ⟨hfits, unpack, results, hsame, hresults, hok⟩
  · rintro ⟨hfits, unpack, results, rfl, hresults, hok⟩
    exact ⟨unpack, results, readAs_response hfits, hresults, hok⟩

/-! ## The reports the front ends write -/

theorem unpack_inj {a b : String} (h : s!"unpack {a}" = s!"unpack {b}") : a = b := by
  have hchars := congrArg String.toList h
  rw [toList_unpack, toList_unpack] at hchars
  exact String.toList_inj.mp (List.append_cancel_left (List.cons.inj hchars).2)

theorem ok_inj {a b : String} (h : s!"ok {a}" = s!"ok {b}") : a = b := by
  have hchars := congrArg String.toList h
  rw [toList_ok, toList_ok] at hchars
  simp only [List.cons.injEq, true_and] at hchars
  exact String.toList_inj.mp hchars

theorem ok_ne_ng (a b reason : String) : s!"ok {a}" ≠ s!"ng {b} {reason}" := by
  intro h
  have hchars := congrArg String.toList h
  rw [toList_ok, toList_ng] at hchars
  cases hchars

theorem ng_inj {a b why other : String} (ha : ' ' ∉ a.toList) (hb : ' ' ∉ b.toList)
    (h : s!"ng {a} {why}" = s!"ng {b} {other}") : a = b := by
  have hchars := congrArg String.toList h
  rw [toList_ng, toList_ng] at hchars
  simp only [List.cons.injEq, true_and] at hchars
  have hsplit := congrArg (fun l => Text.splitOnce ' ' (String.ofList l)) hchars
  simp only [Text.splitOnce_append ha, Text.splitOnce_append hb, String.ofList_toList,
    Option.some.injEq, Prod.mk.injEq] at hsplit
  exact hsplit.1

theorem isResult_ok_iff {name a : String} : IsResult name s!"ok {a}" ↔ name = a := by
  constructor
  · rintro (h | ⟨reason, h⟩)
    · exact (ok_inj h).symm
    · exact absurd h (ok_ne_ng a name reason)
  · rintro rfl
    exact .inl rfl

theorem isResult_ng_iff {name a error : String} (hname : ' ' ∉ name.toList)
    (ha : ' ' ∉ a.toList) : IsResult name s!"ng {a} {error}" ↔ name = a := by
  constructor
  · rintro (h | ⟨reason, h⟩)
    · exact absurd h.symm (ok_ne_ng name a error)
    · exact (ng_inj ha hname h).symm
  · rintro rfl
    exact .inr ⟨error, rfl⟩

theorem forall₂_isResult_iff {names reported : List String} {line : String → String}
    (h : ∀ name ∈ names, ∀ a ∈ reported, IsResult name (line a) ↔ name = a) :
    List.Forall₂ IsResult names (reported.map line) ↔ names = reported := by
  rw [List.forall₂_map_right_iff]
  induction names generalizing reported with
  | nil => rw [List.forall₂_nil_left_iff, eq_comm]
  | cons name names ih =>
    cases reported with
    | nil => exact iff_of_false (fun hnil => by cases hnil) (List.cons_ne_nil _ _)
    | cons a reported =>
      rw [List.forall₂_cons, h name (List.mem_cons_self ..) a (List.mem_cons_self ..),
        List.cons.injEq, ih fun name' hname' a' ha' =>
          h name' (List.mem_cons_of_mem _ hname') a' (List.mem_cons_of_mem _ ha')]

/-- The lines with an error text fit, and the text does not say `ok` where no line follows. -/
structure FailureFits (names : List String) (error : String) : Prop where
  unpack : LineFits s!"unpack {error}"
  ng : ∀ name ∈ names, LineFits s!"ng {name} {error}"
  ne_ok : names = [] → error ≠ "ok"

section Reports
variable {names reported : List String} {success : Prop}

theorem followsProtocol_ok_iff (hcount : reported.length = names.length)
    (hfits : ∀ a ∈ reported, LineFits s!"ok {a}") :
    FollowsProtocol names success (GitServer.receivePackResponse
        ("unpack ok" :: reported.map fun a => s!"ok {a}")) ↔ names = reported ∧ success := by
  have hlen : ("unpack ok" :: reported.map fun a => s!"ok {a}").length ≤ names.length + 1 := by
    rw [List.length_cons, List.length_map, hcount]
  have hlines : ∀ l ∈ "unpack ok" :: reported.map fun a => s!"ok {a}", LineFits l := by
    refine List.forall_mem_cons.mpr ⟨?_, List.forall_mem_map.mpr hfits⟩
    rw [LineFits]
    decide
  have hresults : List.Forall₂ IsResult names (reported.map fun a => s!"ok {a}") ↔
      names = reported := forall₂_isResult_iff fun _ _ _ _ => isResult_ok_iff
  rw [followsProtocol_iff hlen, and_iff_right hlines]
  constructor
  · rintro ⟨unpack, results, hwritten, hforall, hok⟩
    obtain ⟨hfirst, rfl⟩ := List.cons.inj hwritten
    obtain rfl := hresults.mp hforall
    exact ⟨rfl, hok.mp ⟨(unpack_inj (a := "ok") hfirst).symm, rfl⟩⟩
  · rintro ⟨rfl, hsuccess⟩
    exact ⟨"ok", _, rfl, hresults.mpr rfl, iff_of_true ⟨rfl, rfl⟩ hsuccess⟩

theorem followsProtocol_ng_iff {error : String} (hcount : reported.length = names.length)
    (hnames : ∀ name ∈ names, ' ' ∉ name.toList) (hreported : ∀ a ∈ reported, ' ' ∉ a.toList)
    (hfailed : ¬ success) :
    FollowsProtocol names success (GitServer.receivePackResponse
        (s!"unpack {error}" :: reported.map fun a => s!"ng {a} {error}")) ↔
      names = reported ∧ FailureFits names error := by
  have hlen : (s!"unpack {error}" :: reported.map fun a => s!"ng {a} {error}").length ≤
      names.length + 1 := by
    rw [List.length_cons, List.length_map, hcount]
  have hresults : List.Forall₂ IsResult names (reported.map fun a => s!"ng {a} {error}") ↔
      names = reported :=
    forall₂_isResult_iff fun name hname a ha => isResult_ng_iff (hnames name hname) (hreported a ha)
  rw [followsProtocol_iff hlen, List.forall_mem_cons, List.forall_mem_map]
  constructor
  · rintro ⟨⟨hunpack, hng⟩, unpack, results, hwritten, hforall, hok⟩
    obtain ⟨hfirst, rfl⟩ := List.cons.inj hwritten
    obtain rfl := hresults.mp hforall
    refine ⟨rfl, hunpack, hng, ?_⟩
    rintro rfl rfl
    exact hfailed (hok.mp ⟨(unpack_inj hfirst).symm, rfl⟩)
  · rintro ⟨rfl, hfits⟩
    refine ⟨⟨hfits.unpack, hfits.ng⟩, error, _, rfl, hresults.mpr rfl, iff_of_false ?_ hfailed⟩
    -- a line with `ng` tells the report from one of success, where there is such a line
    rintro ⟨rfl, hsame⟩
    rcases names with _ | ⟨name, names⟩
    · exact hfits.ne_ok rfl rfl
    · exact ok_ne_ng name name "ok" (List.cons.inj hsame).1.symm

theorem not_followsProtocol {line : String} (hline : line.toList.head? ≠ some 'u') :
    ¬ FollowsProtocol names success (GitServer.receivePackResponse [line]) := by
  rw [followsProtocol_iff (Nat.le_add_left 1 _)]
  rintro ⟨-, unpack, results, hwritten, -⟩
  obtain ⟨rfl, -⟩ := List.cons.inj hwritten
  exact hline (by rw [toList_unpack, List.head?_cons])

end Reports

/-! ## The refs of a request -/

namespace AnyRequest

theorem gitServer_reads (r : AnyRequest) : GitServer.commandedUpdates r.body = r.updates := by
  cases r with
  | commands r => exact (gitServer_decodes r).1
  | packOnly pack =>
    rw [GitServer.commandedUpdates, body, PktLine.readUntilFlush_flush]
    rfl

theorem serviceWorker_reads (r : AnyRequest) : ServiceWorker.parseRequest r.body =
    if r.updates.length < 2 ^ 32 then some (r.trimmed, r.pack) else none := by
  cases r with
  | commands r =>
    have hlen : r.updates.length = r.others.length + 1 := by
      rw [Commands.updates, List.length_cons, List.length_map]
    rw [body, serviceWorker_decodes, updates, hlen]
    rfl
  | packOnly pack =>
    have halike : ServiceWorker.ReadAlike 0 (PktLine.flush ++ pack) :=
      ServiceWorker.readAlike_encodes (fun p hp => absurd hp List.not_mem_nil) pack
    have hread : ServiceWorker.readPktLinesFrom (PktLine.flush ++ pack) 0 = ([], pack) :=
      (halike.readPktLinesFrom_eq List.drop_zero).1.trans (PktLine.readUntilFlush_flush pack)
    rw [ServiceWorker.parseRequest, ServiceWorker.readPktLines, body, hread]
    rfl

theorem length_trimmed (r : AnyRequest) :
    (r.trimmed.map RefUpdate.name).length = r.names.length := by
  rw [names, List.length_map, List.length_map]
  cases r with
  | commands r => rw [trimmed, updates, Commands.updates, List.length_cons, List.length_cons,
      List.length_map, List.length_map]
  | packOnly => rfl

theorem names_eq_trimmed_iff (r : AnyRequest) :
    r.names = r.trimmed.map RefUpdate.name ↔ r.NamesKept := by
  cases r with
  | commands r =>
    have hname (c : Command) : c.update.name = c.trimmed.name ↔ ¬ c.EndsInWhitespace := by
      rw [← c.trimmed_eq_update_iff]
      simp [Command.trimmed, Command.update, eq_comm]
    rw [names, updates, trimmed, Commands.updates, List.map_cons, List.map_cons, List.cons.injEq,
      and_iff_right rfl, List.map_map, List.map_map, List.map_inj_left]
    exact forall₂_congr fun o _ => hname o.1
  | packOnly => exact iff_of_true rfl trivial

end AnyRequest

theorem Command.space_notMem_name (c : Command) : ' ' ∉ c.name :=
  fun h => absurd (c.refNameChar_of_mem h) (by decide)

theorem lineFits_ok {c : Command} {tail l : List Char}
    (hline : (Commands.payload (c.text ++ tail)).length ≤ 65531) (hl : l <+: c.name) :
    LineFits s!"ok {String.ofList l}" := by
  obtain ⟨k, hk⟩ := hl
  have hold : 40 ≤ (Utf8.encode (String.ofList c.oldSha)).length := by
    have hsha := c.isSha_oldSha
    rw [isSha, Bool.and_eq_true, beq_iff_eq] at hsha
    exact hsha.1 ▸ Utf8.length_le_encode c.oldSha
  have htext : c.text ++ tail =
      c.oldSha ++ ((' ' :: (c.newSha ++ [' '])) ++ (l ++ (k ++ tail))) := by
    rw [c.text_append, ← hk]
    simp
  have hreport : (s!"ok {String.ofList l}").toList ++ ['\n'] =
      ['o', 'k', ' '] ++ (l ++ ['\n']) := by
    rw [toList_ok, String.toList_ofList]
    rfl
  have hfront : (Utf8.encode (String.ofList ['o', 'k', ' '])).length = 3 := by decide
  have hback : (Utf8.encode (String.ofList ['\n'])).length = 1 := by decide
  rw [Commands.payload, htext, Utf8.encode_append, Utf8.encode_append, Utf8.encode_append,
    List.length_append, List.length_append, List.length_append] at hline
  rw [LineFits, reportLine_eq, hreport, Utf8.encode_append, Utf8.encode_append, List.length_append,
    List.length_append, hfront, hback]
  omega

theorem AnyRequest.forall_names {r : AnyRequest} {P : String → Prop}
    (h : ∀ (c : Command) (tail l : List Char),
      (Commands.payload (c.text ++ tail)).length ≤ 65531 → l <+: c.name → P (String.ofList l)) :
    (∀ name ∈ r.names, P name) ∧ ∀ name ∈ r.trimmed.map RefUpdate.name, P name := by
  cases r with
  | packOnly => exact ⟨fun _ h => absurd h List.not_mem_nil, fun _ h => absurd h List.not_mem_nil⟩
  | commands r =>
    obtain ⟨hfirst, hothers⟩ := List.forall_mem_cons.mp r.length_payload_le
    have hother {o : Command × Bool} (ho : o ∈ r.others) :
        (Commands.payload (Commands.otherLine o)).length ≤ 65531 :=
      hothers _ (List.mem_map_of_mem ho)
    constructor
    · refine List.forall_mem_map.mpr (List.forall_mem_cons.mpr ⟨?_, List.forall_mem_map.mpr ?_⟩)
      · exact h r.first _ _ hfirst (List.prefix_rfl)
      · exact fun o ho => h o.1 _ _ (hother ho) (List.prefix_rfl)
    · refine List.forall_mem_map.mpr (List.forall_mem_cons.mpr ⟨?_, List.forall_mem_map.mpr ?_⟩)
      · exact h r.first _ _ hfirst (List.prefix_rfl)
      · exact fun o ho => h o.1 _ _ (hother ho) (List.rdropWhile_prefix _ _)

theorem AnyRequest.lineFits_names (r : AnyRequest) : (∀ name ∈ r.names, LineFits s!"ok {name}") ∧
    ∀ name ∈ r.trimmed.map RefUpdate.name, LineFits s!"ok {name}" :=
  forall_names fun _ _ _ hline hl => lineFits_ok hline hl

theorem AnyRequest.space_notMem (r : AnyRequest) : (∀ name ∈ r.names, ' ' ∉ name.toList) ∧
    ∀ name ∈ r.trimmed.map RefUpdate.name, ' ' ∉ name.toList :=
  forall_names fun c _ l _ hl hspace => by
    rw [String.toList_ofList] at hspace
    exact c.space_notMem_name (hl.subset hspace)

/-! ## The front ends -/

def InProtocol (h : Handled) (response : List String → Bytes) (names : List String)
    (success : Prop) : Prop :=
  ∀ report, h.report = some report → FollowsProtocol names success (response report)

theorem inProtocol_of_none {h : Handled} (hnone : h.report = none)
    (response : List String → Bytes) (names : List String) (success : Prop) :
    InProtocol h response names success := by
  intro report hreport
  rw [hnone] at hreport
  cases hreport

theorem inProtocol_iff {h : Handled} {report : List String} (hreport : h.report = some report)
    {response : List String → Bytes} {names : List String} {success : Prop} :
    InProtocol h response names success ↔ FollowsProtocol names success (response report) := by
  refine ⟨fun hall => hall report hreport, fun hfollows report' hreport' => ?_⟩
  cases hreport.symm.trans hreport'
  exact hfollows

section GitServer
variable {contract : GitStorage} {ownerId : String} {delivery : Delivery}

def GitServerPushed (contract : GitStorage) (ownerId : String) (delivery : Delivery)
    (body : Bytes) : Prop :=
  ∃ args, GitServer.sentPush body = some args ∧ AnsweredOk contract ownerId args delivery

theorem gitServer_inProtocol_iff (r : AnyRequest) :
    InProtocol (GitServer.handleReceivePack contract ownerId delivery r.body)
        GitServer.receivePackResponse r.names
        (GitServerPushed contract ownerId delivery r.body) ↔
      GitServer.sentPush r.body = none ∨ GitServerPushed contract ownerId delivery r.body := by
  rcases hsent : GitServer.sentPush r.body with _ | args
  · rw [GitServer.handleReceivePack_of_unsent hsent]
    exact iff_of_true (inProtocol_of_none rfl _ _ _) (.inl rfl)
  rw [GitServer.handleReceivePack_of_sent hsent, r.gitServer_reads, ← AnyRequest.names,
    or_iff_right (Option.some_ne_none args)]
  by_cases hok : AnsweredOk contract ownerId args delivery
  · have hpushed : GitServerPushed contract ownerId delivery r.body := ⟨args, hsent, hok⟩
    rw [inProtocol_iff (sendPush_of_answeredOk hok).2]
    refine iff_of_true ?_ hpushed
    exact (followsProtocol_ok_iff rfl r.lineFits_names.1).mpr ⟨rfl, hpushed⟩
  · refine iff_of_false ?_ ?_
    · obtain ⟨answer, hne, hreport⟩ : ∃ answer, answer ≠ .success ∧
          (sendPush contract ownerId args delivery fun answer =>
            some (GitServer.statusLines r.names answer)).report =
              some (GitServer.statusLines r.names answer) := sendPush_of_not_answeredOk hok
      rw [inProtocol_iff hreport]
      cases answer with
      | success => exact absurd rfl hne
      | failure error => exact not_followsProtocol (by simp [toString])
      | error | threw => exact not_followsProtocol (by simp)
    · rintro ⟨args', hsent', hok'⟩
      cases hsent.symm.trans hsent'
      exact hok hok'

end GitServer

section ServiceWorker
variable {C : Packfile.Crates} {rpc : ServiceWorker.Rpc} {contract : GitStorage}
  {accountId : String}

theorem followsProtocol_okReport_iff (r : AnyRequest) (success : Prop) :
    FollowsProtocol r.names success
        (ServiceWorker.makeReceivePackResponse (ServiceWorker.okReport rpc r.trimmed)) ↔
      r.NamesKept ∧ success := by
  have hlines : ServiceWorker.okLines r.trimmed =
      "unpack ok" :: (r.trimmed.map RefUpdate.name).map fun a => s!"ok {a}" := by
    rw [List.map_map]
    rfl
  rw [ServiceWorker.makeReceivePackResponse_eq, ServiceWorker.okReport_eq, hlines,
    followsProtocol_ok_iff r.length_trimmed r.lineFits_names.2, r.names_eq_trimmed_iff]

theorem followsProtocol_ngLines_iff (r : AnyRequest) {success : Prop} (hfailed : ¬ success)
    (error : String) :
    FollowsProtocol r.names success
        (ServiceWorker.makeReceivePackResponse (ServiceWorker.ngLines r.trimmed error)) ↔
      r.NamesKept ∧ FailureFits r.names error := by
  have hlines : ServiceWorker.ngLines r.trimmed error =
      s!"unpack {error}" :: (r.trimmed.map RefUpdate.name).map fun a => s!"ng {a} {error}" := by
    rw [List.map_map]
    rfl
  rw [ServiceWorker.makeReceivePackResponse_eq, hlines, followsProtocol_ng_iff r.length_trimmed
    r.space_notMem.1 r.space_notMem.2 hfailed, r.names_eq_trimmed_iff]

/-- Too many commands, a pack that cannot be built or a push without an answer end the handler
without a report. Otherwise there has to be a pack, the names have to be kept, and an error text
has to fit. -/
def ServiceWorkerKeeps (C : Packfile.Crates) (rpc : ServiceWorker.Rpc) (contract : GitStorage)
    (accountId : String) (r : AnyRequest) : Prop :=
  2 ^ 32 ≤ r.updates.length ∨ r.pack ≠ [] ∧
    (ServiceWorker.pushInput C rpc r.trimmed r.pack = none ∨ rpc.delivery.failureText = none ∨
      r.NamesKept ∧
        (ServiceWorker.PushAnsweredOk C rpc contract accountId r.body ∨
          ∃ error, rpc.delivery.failureText = some error ∧ FailureFits r.names error))

theorem not_inProtocol_without_pack {r : AnyRequest}
    (hrequest : ServiceWorker.parseRequest r.body = some (r.trimmed, [])) :
    ¬ InProtocol (ServiceWorker.handleReceivePackBody C rpc contract accountId r.body)
        ServiceWorker.makeReceivePackResponse r.names
        (ServiceWorker.PushAnsweredOk C rpc contract accountId r.body) := by
  rw [inProtocol_iff (ServiceWorker.handled_without_pack hrequest).2, followsProtocol_okReport_iff]
  rintro ⟨-, hpushed⟩
  exact ((ServiceWorker.pushAnsweredOk_iff hrequest).mp hpushed).1 rfl

theorem inProtocol_pushed_iff {r : AnyRequest} {input : Bytes}
    (hrequest : ServiceWorker.parseRequest r.body = some (r.trimmed, r.pack)) (hpack : r.pack ≠ [])
    (hinput : ServiceWorker.pushInput C rpc r.trimmed r.pack = some input)
    (hok : AnsweredOk contract accountId input rpc.delivery) :
    InProtocol (ServiceWorker.handleReceivePackBody C rpc contract accountId r.body)
        ServiceWorker.makeReceivePackResponse r.names
        (ServiceWorker.PushAnsweredOk C rpc contract accountId r.body) ↔ r.NamesKept := by
  have hpushed : ServiceWorker.PushAnsweredOk C rpc contract accountId r.body :=
    (ServiceWorker.pushAnsweredOk_iff_of_input hrequest hpack hinput).mpr hok
  rw [inProtocol_iff (ServiceWorker.handled_pushed hrequest hpack hinput hok).2,
    followsProtocol_okReport_iff, and_iff_left hpushed]

theorem inProtocol_failed_iff {r : AnyRequest} {input : Bytes}
    (hrequest : ServiceWorker.parseRequest r.body = some (r.trimmed, r.pack)) (hpack : r.pack ≠ [])
    (hinput : ServiceWorker.pushInput C rpc r.trimmed r.pack = some input)
    (hnot : ¬ AnsweredOk contract accountId input rpc.delivery) :
    InProtocol (ServiceWorker.handleReceivePackBody C rpc contract accountId r.body)
        ServiceWorker.makeReceivePackResponse r.names
        (ServiceWorker.PushAnsweredOk C rpc contract accountId r.body) ↔
      rpc.delivery.failureText = none ∨ r.NamesKept ∧
        ∃ error, rpc.delivery.failureText = some error ∧ FailureFits r.names error := by
  have hfailed : ¬ ServiceWorker.PushAnsweredOk C rpc contract accountId r.body := fun h =>
    hnot ((ServiceWorker.pushAnsweredOk_iff_of_input hrequest hpack hinput).mp h)
  have hreport := ServiceWorker.report_failed hrequest hpack hinput hnot
  rcases htext : rpc.delivery.failureText with _ | error
  · rw [htext] at hreport
    exact iff_of_true (inProtocol_of_none hreport _ _ _) (.inl rfl)
  · rw [htext] at hreport
    rw [inProtocol_iff hreport, followsProtocol_ngLines_iff r hfailed,
      or_iff_right (Option.some_ne_none error)]
    simp only [Option.some.injEq, exists_eq_left']

theorem serviceWorker_inProtocol_iff (r : AnyRequest) :
    InProtocol (ServiceWorker.handleReceivePackBody C rpc contract accountId r.body)
        ServiceWorker.makeReceivePackResponse r.names
        (ServiceWorker.PushAnsweredOk C rpc contract accountId r.body) ↔
      ServiceWorkerKeeps C rpc contract accountId r := by
  have hreads := r.serviceWorker_reads
  rw [ServiceWorkerKeeps]
  by_cases hfew : r.updates.length < 2 ^ 32
  swap
  · -- the array of the lines does not hold the commands
    rw [if_neg hfew] at hreads
    refine iff_of_true (inProtocol_of_none ?_ _ _ _) (.inl (not_lt.mp hfew))
    rw [ServiceWorker.handleReceivePackBody, hreads]
  rw [if_pos hfew] at hreads
  rw [or_iff_right (not_le.mpr hfew)]
  by_cases hpack : r.pack = []
  · rw [hpack] at hreads
    exact iff_of_false (not_inProtocol_without_pack hreads) fun h => h.1 hpack
  rw [and_iff_right hpack]
  rcases hinput : ServiceWorker.pushInput C rpc r.trimmed r.pack with _ | input
  · refine iff_of_true (inProtocol_of_none ?_ _ _ _) (.inl rfl)
    exact ServiceWorker.report_without_input hreads hpack hinput
  rw [or_iff_right (Option.some_ne_none input)]
  have hpushed : ServiceWorker.PushAnsweredOk C rpc contract accountId r.body ↔
      AnsweredOk contract accountId input rpc.delivery :=
    ServiceWorker.pushAnsweredOk_iff_of_input hreads hpack hinput
  by_cases hok : AnsweredOk contract accountId input rpc.delivery
  · have hanswered : rpc.delivery.failureText ≠ none := by
      obtain ⟨⟨failure, hfailure⟩, -⟩ := hok
      rw [hfailure]
      exact Option.some_ne_none failure
    rw [inProtocol_pushed_iff hreads hpack hinput hok, or_iff_right hanswered,
      and_iff_left (.inl (hpushed.mpr hok))]
  · rw [inProtocol_failed_iff hreads hpack hinput hok, or_iff_right (mt hpushed.mp hok)]

end ServiceWorker

/-- git-server keeps to the protocol only where the push succeeds; the service worker also where it
fails with an error that fits, but not without a pack, nor where it cuts a ref name. -/
theorem report_status_iff (C : Packfile.Crates) (rpc : ServiceWorker.Rpc) (delivery : Delivery)
    (contract : GitStorage) (accountId : String) (r : AnyRequest) :
    (InProtocol (GitServer.handleReceivePack contract accountId delivery r.body)
        GitServer.receivePackResponse r.names
        (GitServerPushed contract accountId delivery r.body) ↔
      GitServer.sentPush r.body = none ∨ GitServerPushed contract accountId delivery r.body) ∧
    (InProtocol (ServiceWorker.handleReceivePackBody C rpc contract accountId r.body)
        ServiceWorker.makeReceivePackResponse r.names
        (ServiceWorker.PushAnsweredOk C rpc contract accountId r.body) ↔
      ServiceWorkerKeeps C rpc contract accountId r) :=
  ⟨gitServer_inProtocol_iff r, serviceWorker_inProtocol_iff r⟩

/-! ## A push that times out -/

def createA : Request where
  first := wideSpace.first
  firstLf := false
  capabilities := []
  others := []
  pack := []
  length_payload_le := List.forall_mem_singleton.mpr (by decide)

/-- The first line says `ng`, and there is none for the ref. -/
theorem timeout_out_of_protocol :
    (GitServer.handleReceivePack (.new "alice") "alice" (.errored false "timeout")
        createA.body).report = some ["ng unpack contract call failed"] ∧
    ¬ ∀ delivery contract accountId (r : AnyRequest),
      InProtocol (GitServer.handleReceivePack contract accountId delivery r.body)
        GitServer.receivePackResponse r.names
        (GitServerPushed contract accountId delivery r.body) := by
  obtain ⟨args, hargs⟩ : ∃ args, GitServer.encodePushArgs createA.pack createA.updates =
    .ok args := ⟨_, rfl⟩
  have hsent : GitServer.sentPush createA.body = some args := by
    obtain ⟨hupdates, hpack⟩ := gitServer_decodes createA
    rw [GitServer.sentPush, hupdates, hpack, hargs]
    rfl
  have hnot (args' : Bytes) : ¬ AnsweredOk (.new "alice") "alice" args'
      (.errored false "timeout") := by
    rintro ⟨⟨failure, hfailure⟩, -⟩
    cases hfailure
  constructor
  · rw [GitServer.handleReceivePack_of_sent hsent]
    exact sendPush_report_of_not_answeredOk (hnot args)
  · intro hall
    rcases (gitServer_inProtocol_iff (.commands createA)).mp (hall _ _ _ _) with hnone | hpushed
    · exact Option.some_ne_none args (hsent.symm.trans hnone)
    · obtain ⟨args', -, hok⟩ := hpushed
      exact hnot args' hok

end NearGit.PushRequest
