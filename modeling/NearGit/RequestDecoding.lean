import NearGit.GitServer.ReceivePack
import NearGit.PushRequest
import NearGit.ServiceWorker.PktLines

/-! What git-server and the service worker make of the request of a git client. -/

namespace NearGit.PushRequest
open Lib NearGit.Contract

theorem Command.update_eq (c : Command) :
    c.update = {
      name := String.ofList c.name
      oldSha := if String.ofList c.oldSha = String.ofList zeros then none
        else some (String.ofList c.oldSha)
      newSha := String.ofList c.newSha } := by
  simp only [Command.update, String.ofList_inj]

theorem Command.text_append (c : Command) (tail : List Char) :
    c.text ++ tail = c.oldSha ++ ' ' :: (c.newSha ++ ' ' :: (c.name ++ tail)) := by
  simp only [Command.text, List.append_assoc, List.cons_append]

theorem Commands.length_payloads (cs : Commands) :
    cs.payloads.length = cs.others.length + 1 := by
  rw [Commands.payloads, List.length_cons, List.length_map]

theorem filterMap_map_eq {α β γ : Type} {f : α → β} {g : β → Option γ} {k : α → γ}
    (h : ∀ a, g (f a) = some (k a)) (l : List α) : (l.map f).filterMap g = l.map k := by
  induction l with
  | nil => rfl
  | cons a l ih => rw [List.map_cons, List.filterMap_cons_some (h a), ih, List.map_cons]

/-! ## git-server -/

theorem gitServer_first (c : Command) (tail : List Char) :
    GitServer.parseCommand (Commands.payload (c.text ++ nul :: tail)) = some c.update := by
  rw [c.update_eq, Commands.payload, c.text_append]
  exact GitServer.parseCommand_encode (Command.notMem_sha c.isSha_oldSha)
    (Command.notMem_sha c.isSha_newSha).1 c.nul_notMem_name

theorem rdropWhile_name_lf (c : Command) (lf : Bool) :
    (c.name ++ lineEnd lf).rdropWhile (· = '\n') = c.name := by
  have hname : c.name.rdropWhile (· = '\n') = c.name := by
    refine List.rdropWhile_eq_self_iff.mpr fun hne hlast => c.lf_notMem_name ?_
    rw [← of_decide_eq_true hlast]
    exact List.getLast_mem hne
  cases lf with
  | false => rw [lineEnd, if_neg Bool.false_ne_true, List.append_nil, hname]
  | true => rw [lineEnd, if_pos rfl, List.rdropWhile_concat_pos _ _ _ rfl, hname]

theorem gitServer_other (o : Command × Bool) :
    GitServer.parseCommand (Commands.payload (Commands.otherLine o)) = some o.1.update := by
  obtain ⟨c, lf⟩ := o
  have hslash : '/' ∈ c.name ++ lineEnd lf := List.mem_append_left _ c.slash_mem_name
  have hline : GitServer.trimEndLf (Utf8.decodeLossy
      (Commands.payload (Commands.otherLine (c, lf)))) =
        String.ofList (c.oldSha ++ ' ' :: (c.newSha ++ ' ' :: c.name)) := by
    have hdrop := Text.rdropWhile_append_of_mem (p := (decide <| · = '\n')) hslash rfl
      (c.oldSha ++ ' ' :: (c.newSha ++ [' ']))
    rw [rdropWhile_name_lf] at hdrop
    simp only [List.append_assoc, List.cons_append, List.nil_append] at hdrop
    rw [Commands.payload, Utf8.decodeLossy_encode, GitServer.trimEndLf, String.toList_ofList,
      Commands.otherLine, c.text_append, hdrop]
  rw [c.update_eq, GitServer.parseCommand_of_line hline (Command.notMem_sha c.isSha_oldSha)
    (Command.notMem_sha c.isSha_newSha).1, GitServer.beforeNul_eq_self c.nul_notMem_name]
  rfl

theorem gitServer_decodes (r : Request) :
    GitServer.commandedUpdates r.body = r.updates ∧
      (PktLine.readUntilFlush r.body).2 = r.pack := by
  rw [GitServer.commandedUpdates, r.readUntilFlush_body]
  refine ⟨?_, rfl⟩
  have hothers : (r.others.map fun o => Commands.payload (Commands.otherLine o)).filterMap
      GitServer.parseCommand = r.others.map fun o => o.1.update := by
    exact filterMap_map_eq gitServer_other r.others
  have hfirst : GitServer.parseCommand (Commands.payload r.firstLine) = some r.first.update :=
    gitServer_first r.first _
  simp only [Commands.payloads, List.filterMap_cons_some hfirst, hothers, Commands.updates]

/-! ## The service worker -/

def Command.trimmed (c : Command) : RefUpdate :=
  { c.update with name := String.ofList (c.name.rdropWhile JsText.isWhitespace) }

theorem textDecode_text (c : Command) (tail : List Char) :
    JsText.textDecode (Commands.payload (c.text ++ tail)) = String.ofList (c.text ++ tail) ∧
      JsText.trim (String.ofList (c.text ++ tail)) =
        String.ofList ((c.text ++ tail).rdropWhile JsText.isWhitespace) := by
  obtain ⟨d, sha, hsha⟩ := List.exists_cons_of_ne_nil (Command.sha_ne_nil c.isSha_oldSha)
  have hdigit := Command.isHexDigit_of_mem_sha c.isSha_oldSha (hsha ▸ List.mem_cons_self ..)
  have hbounds := JsText.toNat_of_isHexDigit hdigit
  rw [c.text_append, hsha, List.cons_append]
  exact ⟨JsText.textDecode_of_head (by omega) _,
    JsText.trim_of_head (JsText.isWhitespace_eq_false (by omega) (by omega)) _⟩

theorem serviceWorker_first (c : Command) (tail : List Char) :
    ServiceWorker.parseCommand (Commands.payload (c.text ++ nul :: tail)) = some c.update := by
  obtain ⟨hdecode, htrim⟩ := textDecode_text c (nul :: tail)
  have htext : JsText.trim (JsText.textDecode (Commands.payload (c.text ++ nul :: tail))) =
      String.ofList (c.oldSha ++ ' ' :: (c.newSha ++ ' ' :: (c.name ++
        nul :: tail.rdropWhile JsText.isWhitespace))) := by
    rw [hdecode, htrim, Text.rdropWhile_append_cons rfl, c.text_append]
  rw [c.update_eq, ServiceWorker.parseCommand_of_nul htext (Command.notMem_sha c.isSha_oldSha)
    (Command.notMem_sha c.isSha_newSha).1 c.nul_notMem_name]
  rfl

theorem rdropWhile_name_whitespace (c : Command) (lf : Bool) :
    (c.name ++ lineEnd lf).rdropWhile JsText.isWhitespace =
      c.name.rdropWhile JsText.isWhitespace := by
  cases lf with
  | false => rw [lineEnd, if_neg Bool.false_ne_true, List.append_nil]
  | true => rw [lineEnd, if_pos rfl, List.rdropWhile_concat_pos _ _ _ rfl]

theorem serviceWorker_other (o : Command × Bool) :
    ServiceWorker.parseCommand (Commands.payload (Commands.otherLine o)) = some o.1.trimmed := by
  obtain ⟨c, lf⟩ := o
  obtain ⟨hdecode, htrim⟩ := textDecode_text c (lineEnd lf)
  have hslash : '/' ∈ c.name ++ lineEnd lf := List.mem_append_left _ c.slash_mem_name
  have htext : JsText.trim (JsText.textDecode (Commands.payload (Commands.otherLine (c, lf)))) =
      String.ofList (c.oldSha ++ ' ' :: (c.newSha ++ ' ' ::
        c.name.rdropWhile JsText.isWhitespace)) := by
    have hdrop := Text.rdropWhile_append_of_mem (p := JsText.isWhitespace) hslash rfl
      (c.oldSha ++ ' ' :: (c.newSha ++ [' ']))
    rw [rdropWhile_name_whitespace] at hdrop
    simp only [List.append_assoc, List.cons_append, List.nil_append] at hdrop
    rw [Commands.otherLine, hdecode, htrim, c.text_append, hdrop]
  have hnul : ServiceWorker.nul ∉ c.name.rdropWhile JsText.isWhitespace := fun h =>
    c.nul_notMem_name ((List.rdropWhile_prefix _ _).subset h)
  rw [Command.trimmed, c.update_eq, ServiceWorker.parseCommand_of_text htext
    (Command.notMem_sha c.isSha_oldSha) (Command.notMem_sha c.isSha_newSha).1,
    JsText.split_of_notMem hnul]
  rfl

theorem serviceWorker_lines (cs : Commands) :
    cs.payloads.filterMap ServiceWorker.parseCommand =
      cs.first.update :: cs.others.map fun o => o.1.trimmed := by
  have hothers : (cs.others.map fun o => Commands.payload (Commands.otherLine o)).filterMap
      ServiceWorker.parseCommand = cs.others.map fun o => o.1.trimmed := by
    exact filterMap_map_eq serviceWorker_other cs.others
  have hfirst : ServiceWorker.parseCommand (Commands.payload cs.firstLine) =
    some cs.first.update := serviceWorker_first cs.first _
  rw [Commands.payloads, List.filterMap_cons_some hfirst, hothers]

theorem serviceWorker_decodes (r : Request) :
    ServiceWorker.parseRequest r.body =
      if r.others.length + 1 < 2 ^ 32 then
        some (r.first.update :: r.others.map fun o => o.1.trimmed, r.pack)
      else none := by
  have halike := ServiceWorker.readAlike_encodes r.length_payload_le r.pack
  rw [List.flatMap_def, ← List.append_assoc] at halike
  have hread : ServiceWorker.readPktLinesFrom r.body 0 = (r.payloads, r.pack) :=
    (halike.readPktLinesFrom_eq List.drop_zero).1.trans r.readUntilFlush_body
  rw [ServiceWorker.parseRequest, ServiceWorker.readPktLines, hread, r.length_payloads]
  split_ifs
  · simp only [Option.bind_eq_bind, Option.bind_some, serviceWorker_lines, Option.pure_def]
  · rfl

/-! ## Both -/

def GitServerRecovers (r : Request) : Prop :=
  GitServer.commandedUpdates r.body = r.updates ∧ (PktLine.readUntilFlush r.body).2 = r.pack

def ServiceWorkerRecovers (r : Request) : Prop :=
  ServiceWorker.parseRequest r.body = some (r.updates, r.pack)

def Command.EndsInWhitespace (c : Command) : Prop :=
  c.name.getLast?.any JsText.isWhitespace = true

theorem Command.trimmed_eq_update_iff (c : Command) :
    c.trimmed = c.update ↔ ¬ c.EndsInWhitespace := by
  have hname : c.trimmed = c.update ↔ c.name.rdropWhile JsText.isWhitespace = c.name := by
    simp [Command.trimmed, Command.update, String.ofList_inj]
  rw [hname, List.rdropWhile_eq_self_iff, Command.EndsInWhitespace,
    List.getLast?_eq_some_getLast c.name_ne_nil, Option.any_some]
  exact ⟨fun h => h c.name_ne_nil, fun h _ => h⟩

theorem gitServer_recovers (r : Request) : GitServerRecovers r := gitServer_decodes r

theorem serviceWorker_recovers_iff (r : Request) : ServiceWorkerRecovers r ↔
    r.others.length + 1 < 2 ^ 32 ∧ ∀ o ∈ r.others, ¬ o.1.EndsInWhitespace := by
  rw [ServiceWorkerRecovers, serviceWorker_decodes]
  split_ifs with hfew
  · rw [Option.some.injEq, Prod.mk.injEq, Commands.updates, List.cons.injEq, List.map_inj_left]
    simp only [true_and, and_true, hfew, Command.trimmed_eq_update_iff]
  · simp only [hfew, false_and]

theorem requests_decoded_iff (r : Request) : GitServerRecovers r ∧ ServiceWorkerRecovers r ↔
    r.others.length + 1 < 2 ^ 32 ∧ ∀ o ∈ r.others, ¬ o.1.EndsInWhitespace := by
  rw [and_iff_right (gitServer_recovers r), serviceWorker_recovers_iff]

/-! ## A ref name that is cut -/

def createRef (suffix : List Char)
    (h : checkRefFormat (['r', 'e', 'f', 's', '/', 'a'] ++ suffix) = true) : Command where
  oldSha := zeros
  newSha := List.replicate 40 'b'
  name := ['r', 'e', 'f', 's', '/', 'a'] ++ suffix
  isSha_oldSha := by decide
  isSha_newSha := by decide
  checkRefFormat_name := h

/-- The second ref name ends in an ideographic space. -/
def wideSpace : Request where
  first := createRef [] (by decide)
  firstLf := false
  capabilities := []
  others := [(createRef [Char.ofNat 0x3000] (by decide), true)]
  pack := []
  length_payload_le := by decide

theorem wideSpace_cut : ¬ (GitServerRecovers wideSpace ∧ ServiceWorkerRecovers wideSpace) := by
  rw [serviceWorker_recovers_iff]
  rintro ⟨-, -, hends⟩
  exact hends _ (List.mem_singleton_self _) rfl

end NearGit.PushRequest
