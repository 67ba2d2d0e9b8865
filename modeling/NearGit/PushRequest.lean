import NearGit.Contract.GitStorage
import NearGit.Lib.JsText
import NearGit.PktLine

/-! The receive-pack request of a git client: ref commands in pkt-lines, a flush, and a pack. -/

namespace NearGit.PushRequest
open Lib NearGit.Contract

/-! ## Commands -/

/-- The part of a ref name between two slashes. -/
def refNamePart (part : List Char) : Bool :=
  !part.isEmpty && part.head? != some '.' && !(['.', 'l', 'o', 'c', 'k'].isSuffixOf part)

def refNameChar (c : Char) : Bool :=
  decide (0x20 < c.toNat) && c.toNat != 0x7F && !(['~', '^', ':', '?', '*', '[', '\\'].contains c)

def hasInfix (part name : List Char) : Bool := name.tails.any fun tail => part.isPrefixOf tail

/-- The ref names that `git check-ref-format` admits. -/
def checkRefFormat (name : List Char) : Bool :=
  name.contains '/' && (name.splitOn '/').all refNamePart && name.all refNameChar &&
    !hasInfix ['.', '.'] name && !hasInfix ['@', '\x7b'] name && name.getLast? != some '.'

def isSha (sha : List Char) : Bool := sha.length == 40 && sha.all JsText.isHexDigit

def zeros : List Char := List.replicate 40 '0'

def nul : Char := Char.ofNat 0

structure Command where
  oldSha : List Char
  newSha : List Char
  name : List Char
  isSha_oldSha : isSha oldSha = true
  isSha_newSha : isSha newSha = true
  checkRefFormat_name : checkRefFormat name = true

namespace Command
variable (c : Command)

def text : List Char := c.oldSha ++ ' ' :: (c.newSha ++ ' ' :: c.name)

def update : RefUpdate where
  name := String.ofList c.name
  oldSha := if c.oldSha = zeros then none else some (String.ofList c.oldSha)
  newSha := String.ofList c.newSha

theorem isHexDigit_of_mem_sha {sha : List Char} (h : isSha sha = true) {ch : Char}
    (hch : ch ∈ sha) : JsText.isHexDigit ch = true := by
  rw [isSha, Bool.and_eq_true] at h
  exact List.all_eq_true.mp h.2 ch hch

theorem notMem_sha {sha : List Char} (h : isSha sha = true) : ' ' ∉ sha ∧ nul ∉ sha := by
  constructor
  · intro hmem
    exact absurd (isHexDigit_of_mem_sha h hmem) (by decide)
  · intro hmem
    exact absurd (isHexDigit_of_mem_sha h hmem) (by decide)

theorem sha_ne_nil {sha : List Char} (h : isSha sha = true) : sha ≠ [] := by
  rintro rfl
  cases h

theorem refNameChar_of_mem {ch : Char} (h : ch ∈ c.name) : refNameChar ch = true := by
  have hok := c.checkRefFormat_name
  simp only [checkRefFormat, Bool.and_eq_true] at hok
  exact List.all_eq_true.mp hok.1.1.1.2 ch h

theorem slash_mem_name : '/' ∈ c.name := by
  have hok := c.checkRefFormat_name
  simp only [checkRefFormat, Bool.and_eq_true] at hok
  exact List.contains_iff_mem.mp hok.1.1.1.1.1

theorem nul_notMem_name : nul ∉ c.name := fun h => absurd (c.refNameChar_of_mem h) (by decide)

theorem lf_notMem_name : '\n' ∉ c.name := fun h => absurd (c.refNameChar_of_mem h) (by decide)

theorem name_ne_nil : c.name ≠ [] := List.ne_nil_of_mem c.slash_mem_name

end Command

/-! ## Requests -/

def lineEnd (lf : Bool) : List Char := if lf then ['\n'] else []

/-- The commands with the flags that say which lines end in a line feed. -/
structure Commands where
  first : Command
  firstLf : Bool
  capabilities : List Char
  others : List (Command × Bool)

namespace Commands
variable (cs : Commands)

def firstLine : List Char := cs.first.text ++ nul :: (cs.capabilities ++ lineEnd cs.firstLf)

def otherLine (other : Command × Bool) : List Char := other.1.text ++ lineEnd other.2

def payload (line : List Char) : Bytes := Utf8.encode (String.ofList line)

def payloads : List Bytes := payload cs.firstLine :: cs.others.map fun o => payload (otherLine o)

def updates : List RefUpdate := cs.first.update :: cs.others.map fun o => o.1.update

end Commands

structure Request extends Commands where
  pack : Bytes
  length_payload_le : ∀ p ∈ toCommands.payloads, p.length ≤ 65531

def Request.body (r : Request) : Bytes :=
  (r.payloads.map PktLine.encode).flatten ++ PktLine.flush ++ r.pack

theorem Request.readUntilFlush_body (r : Request) :
    PktLine.readUntilFlush r.body = (r.payloads, r.pack) := by
  rw [Request.body, List.append_assoc, ← List.flatMap_def]
  exact PktLine.readUntilFlush_encodes r.length_payload_le r.pack

end NearGit.PushRequest
