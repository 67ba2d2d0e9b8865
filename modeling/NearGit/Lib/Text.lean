import Mathlib.Data.List.DropRight
import Mathlib.Data.List.TakeDrop

/-! The string functions of the Rust standard library that the programs use, on characters. -/

namespace Lib.Text

/-- `char::is_whitespace`: the characters with the property `White_Space`. -/
def isWhitespace (c : Char) : Bool :=
  let n := c.toNat
  (0x09 ≤ n && n ≤ 0x0D) || n == 0x20 || n == 0x85 || n == 0xA0 || n == 0x1680 ||
    (0x2000 ≤ n && n ≤ 0x200A) || n == 0x2028 || n == 0x2029 || n == 0x202F || n == 0x205F ||
    n == 0x3000

def trim (s : String) : String :=
  String.ofList ((s.toList.dropWhile isWhitespace).rdropWhile isWhitespace)

def splitWhitespace (s : String) : List String :=
  ((s.toList.splitOnP isWhitespace).filter (· ≠ [])).map String.ofList

def stripCr (line : List Char) : List Char :=
  if line.getLast? = some '\r' then line.dropLast else line

/-- `lines`: what ends in a line feed, and what is left after the last one unless it is empty. -/
def lines (s : String) : List String :=
  let pieces := s.toList.splitOn '\n'
  let last := pieces.getLast?.getD []
  ((pieces.dropLast.map stripCr) ++ if last = [] then [] else [last]).map String.ofList

def stripPrefix (pre s : String) : Option String :=
  if pre.toList.isPrefixOf s.toList then some (String.ofList (s.toList.drop pre.toList.length))
  else none

/-- `splitn(2, c)` where it gives two parts. -/
def splitOnce (c : Char) (s : String) : Option (String × String) :=
  match s.toList.span (· ≠ c) with
  | (before, _ :: after) => some (String.ofList before, String.ofList after)
  | (_, []) => none

theorem splitOnce_append {c : Char} {l : List Char} (h : c ∉ l) (r : List Char) :
    splitOnce c (String.ofList (l ++ c :: r)) = some (String.ofList l, String.ofList r) := by
  have hall : ∀ a ∈ l, decide (a ≠ c) = true := fun a ha => decide_eq_true fun heq => h (heq ▸ ha)
  rw [splitOnce, String.toList_ofList, List.span_eq_takeWhile_dropWhile,
    List.takeWhile_append_of_pos hall, List.dropWhile_append_of_pos hall]
  simp

theorem splitOnce_join {c : Char} {sep s : String} (hsep : sep.toList = [c]) (h : c ∉ s.toList)
    (t : String) : splitOnce c (s ++ sep ++ t) = some (s, t) := by
  have hjoin : s ++ sep ++ t = String.ofList (s.toList ++ c :: t.toList) := by
    rw [← String.toList_inj, String.toList_append, String.toList_append, hsep,
      String.toList_ofList, List.append_assoc]
    rfl
  rw [hjoin, splitOnce_append h, String.ofList_toList, String.ofList_toList]

theorem length_splitOnce {c : Char} {s t u : String} (h : splitOnce c s = some (t, u)) :
    t.toList.length ≤ s.toList.length ∧ u.toList.length ≤ s.toList.length := by
  unfold splitOnce at h
  rw [List.span_eq_takeWhile_dropWhile] at h
  have hlength := congrArg List.length (List.takeWhile_append_dropWhile (p := (· ≠ c)) (l := s.toList))
  rw [List.length_append] at hlength
  split at h
  · next before _ after hspan =>
    cases h
    obtain ⟨hbefore, hafter⟩ := Prod.mk.inj hspan
    rw [hbefore, hafter, List.length_cons] at hlength
    rw [String.toList_ofList, String.toList_ofList]
    omega
  · cases h

theorem splitOnce_eq_none {c : Char} {s : String} (h : c ∉ s.toList) : splitOnce c s = none := by
  have hall : ∀ a ∈ s.toList, decide (a ≠ c) = true :=
    fun a ha => decide_eq_true fun heq => h (heq ▸ ha)
  rw [splitOnce, List.span_eq_takeWhile_dropWhile, List.dropWhile_eq_nil_iff.mpr hall]

section RdropWhile
variable {α : Type*} {p : α → Bool} {a : α}

theorem rdropWhile_append_cons (ha : p a = false) (l r : List α) :
    (l ++ a :: r).rdropWhile p = l ++ a :: r.rdropWhile p := by
  induction r using List.reverseRecOn with
  | nil => exact List.rdropWhile_concat_neg p l a (by simp [ha])
  | append_singleton r b ih =>
    rw [← List.cons_append, ← List.append_assoc, List.rdropWhile_concat, List.rdropWhile_concat]
    split_ifs with hb
    · exact ih
    · rw [List.append_assoc, List.cons_append]

theorem rdropWhile_append_of_mem {r : List α} (hmem : a ∈ r) (ha : p a = false) (l : List α) :
    (l ++ r).rdropWhile p = l ++ r.rdropWhile p := by
  obtain ⟨s, t, rfl⟩ := List.append_of_mem hmem
  rw [← List.append_assoc, rdropWhile_append_cons ha, rdropWhile_append_cons ha, List.append_assoc]

end RdropWhile

theorem isWhitespace_eq_false {c : Char} (hlower : 0x20 < c.toNat) (hupper : c.toNat < 0x85) :
    isWhitespace c = false := by
  simp only [isWhitespace, Bool.or_eq_false_iff, Bool.and_eq_false_iff, decide_eq_false_iff_not,
    beq_eq_false_iff_ne]
  omega

theorem trim_of_head {c : Char} (hc : isWhitespace c = false) (l : List Char) :
    trim (String.ofList (c :: l)) = String.ofList ((c :: l).rdropWhile isWhitespace) := by
  rw [trim, String.toList_ofList, List.dropWhile_cons_of_neg (by simp [hc])]

theorem stripPrefix_append (pre : String) (l : List Char) :
    stripPrefix pre (String.ofList (pre.toList ++ l)) = some (String.ofList l) := by
  have hpre : pre.toList.isPrefixOf (pre.toList ++ l) = true :=
    List.isPrefixOf_iff_prefix.mpr (List.prefix_append ..)
  rw [stripPrefix, String.toList_ofList, if_pos hpre, List.drop_left]

theorem stripPrefix_self_append (pre s : String) : stripPrefix pre (pre ++ s) = some s := by
  have happend := stripPrefix_append pre s.toList
  rwa [← String.toList_append, String.ofList_toList, String.ofList_toList] at happend

theorem isSome_stripPrefix {pre s : String} :
    (stripPrefix pre s).isSome = true ↔ pre.toList <+: s.toList := by
  rw [stripPrefix, ← List.isPrefixOf_iff_prefix]
  split_ifs with h
  · exact iff_of_true rfl h
  · exact iff_of_false Bool.false_ne_true h

theorem not_prefix_of_prefix {pre pre' l : List Char} (h : pre <+: l) (hne : ¬ pre <+: pre')
    (hne' : ¬ pre' <+: pre) : ¬ pre' <+: l := by
  intro h'
  rcases List.prefix_or_prefix_of_prefix h h' with hpre | hpre
  · exact hne hpre
  · exact hne' hpre

theorem ne_of_prefix {pre : List Char} {s s' : String} (h : pre <+: s.toList)
    (hne : ¬ pre <+: s'.toList) : s ≠ s' := by
  rintro rfl
  exact hne h

theorem head?_splitWhitespace {word tail : List Char} (hne : word ≠ [])
    (hword : ∀ c ∈ word, isWhitespace c = false)
    (htail : tail = [] ∨ ∃ c l, tail = c :: l ∧ isWhitespace c = true) :
    (splitWhitespace (String.ofList (word ++ tail))).head? = some (String.ofList word) := by
  have hkept (pieces : List (List Char)) : ((word :: pieces).filter (· ≠ [])).head? = some word := by
    have hpos : (fun piece : List Char => decide (piece ≠ [])) word = true := decide_eq_true hne
    rw [List.filter_cons, if_pos hpos, List.head?_cons]
  rw [splitWhitespace, String.toList_ofList, List.head?_map]
  rcases htail with rfl | ⟨c, l, rfl, hc⟩
  · rw [List.append_nil, List.splitOnP_eq_singleton hword, hkept]
    rfl
  · rw [List.splitOnP_append_cons_of_forall_mem hword c hc, hkept]
    rfl

/-! ## Which texts have something in them -/

def Blank (s : String) : Prop := ∀ c ∈ s.toList, isWhitespace c = true

instance (s : String) : Decidable (Blank s) :=
  decidable_of_iff (s.toList.all isWhitespace = true) List.all_eq_true

theorem ofList_eq_empty {l : List Char} : String.ofList l = "" ↔ l = [] := by
  rw [← String.toList_inj, String.toList_ofList, String.toList_empty]

theorem mem_splitOnP {p : Char → Bool} {c : Char} {l : List Char} :
    (∃ piece ∈ l.splitOnP p, c ∈ piece) ↔ c ∈ l ∧ p c = false := by
  induction l with
  | nil => simp
  | cons a l ih =>
    rw [List.splitOnP_cons_eq_if_modifyHead]
    obtain ⟨piece, pieces, hpieces⟩ := List.exists_cons_of_ne_nil (List.splitOnP_ne_nil p l)
    rw [hpieces] at ih
    split_ifs with ha
    · rw [hpieces, List.exists_mem_cons_iff, ih, List.mem_cons]
      constructor
      · rintro (h | ⟨hmem, hc⟩)
        · exact absurd h List.not_mem_nil
        · exact ⟨.inr hmem, hc⟩
      · rintro ⟨rfl | hmem, hc⟩
        · exact absurd ha (by simp [hc])
        · exact .inr ⟨hmem, hc⟩
    · rw [hpieces, List.modifyHead_cons, List.exists_mem_cons_iff, List.mem_cons, or_assoc,
        ← List.exists_mem_cons_iff (p := fun piece => c ∈ piece), ih, List.mem_cons]
      constructor
      · rintro (rfl | ⟨hmem, hc⟩)
        · exact ⟨.inl rfl, by simpa using ha⟩
        · exact ⟨.inr hmem, hc⟩
      · rintro ⟨rfl | hmem, hc⟩
        · exact .inl rfl
        · exact .inr ⟨hmem, hc⟩

theorem trim_eq_empty {s : String} : trim s = "" ↔ Blank s := by
  rw [trim, ofList_eq_empty, List.rdropWhile_eq_nil_iff, Blank]
  constructor
  · intro h
    rcases hrest : s.toList.dropWhile isWhitespace with _ | ⟨c, rest⟩
    · exact List.dropWhile_eq_nil_iff.mp hrest
    · -- the first character that is left is not white space
      have hc : isWhitespace c = false := by
        have hhead := List.head?_dropWhile_not isWhitespace s.toList
        rw [hrest] at hhead
        simpa using hhead
      have hws := h c (by rw [hrest]; exact List.mem_cons_self ..)
      rw [hc] at hws
      cases hws
  · intro h c hc
    exact h c (List.dropWhile_subset _ hc)

theorem splitWhitespace_eq_nil {s : String} : splitWhitespace s = [] ↔ Blank s := by
  rw [splitWhitespace, List.map_eq_nil_iff, List.filter_eq_nil_iff]
  constructor
  · intro h c hc
    by_contra hws
    obtain ⟨piece, hpiece, hmem⟩ := mem_splitOnP.mpr ⟨hc, Bool.eq_false_iff.mpr hws⟩
    exact h piece hpiece (by simpa using List.ne_nil_of_mem hmem)
  · intro h piece hpiece hne
    obtain ⟨c, hmem⟩ := List.exists_mem_of_ne_nil piece (by simpa using hne)
    obtain ⟨hc, hws⟩ := mem_splitOnP.mp ⟨piece, hpiece, hmem⟩
    rw [h c hc] at hws
    cases hws

theorem ne_empty_of_mem_splitWhitespace {s word : String} (h : word ∈ splitWhitespace s) :
    word ≠ "" := by
  obtain ⟨piece, hpiece, rfl⟩ := List.mem_map.mp h
  have hne : piece ≠ [] := by simpa using (List.mem_filter.mp hpiece).2
  exact fun hempty => hne (ofList_eq_empty.mp hempty)

theorem stripCr_blank {line : List Char} :
    (∀ c ∈ stripCr line, isWhitespace c = true) ↔ ∀ c ∈ line, isWhitespace c = true := by
  unfold stripCr
  split_ifs with hlast
  · obtain ⟨init, rfl⟩ := List.getLast?_eq_some_iff.mp hlast
    have hcr : isWhitespace '\r' = true := by decide
    simp [or_imp, forall_and, hcr]
  · rfl

theorem forall_lines_blank {s : String} : (∀ line ∈ lines s, Blank line) ↔ Blank s := by
  have hlf : isWhitespace '\n' = true := by decide
  have hne : s.toList.splitOn '\n' ≠ [] := List.splitOn_ne_nil _ _
  obtain ⟨init, last, hpieces⟩ : ∃ init last, s.toList.splitOn '\n' = init ++ [last] :=
    ⟨_, _, (List.dropLast_concat_getLast hne).symm⟩
  have hlines : (∀ line ∈ lines s, Blank line) ↔
      ∀ piece ∈ init ++ [last], ∀ c ∈ piece, isWhitespace c = true := by
    have hlast : (∀ piece ∈ if last = [] then [] else [last], ∀ c ∈ piece,
        isWhitespace c = true) ↔ ∀ c ∈ last, isWhitespace c = true := by
      split_ifs with hnil <;> simp [hnil]
    simp only [lines, hpieces, List.dropLast_concat, List.getLast?_concat, Option.getD_some,
      List.forall_mem_map, List.forall_mem_append, Blank, String.toList_ofList, hlast,
      stripCr_blank, List.forall_mem_singleton]
  rw [hlines, ← hpieces]
  constructor
  · intro h c hc
    by_contra hws
    have hc' : (c == '\n') = false := by
      rw [beq_eq_false_iff_ne]
      rintro rfl
      exact hws hlf
    obtain ⟨piece, hpiece, hmem⟩ := (mem_splitOnP (p := (· == '\n'))).mpr ⟨hc, hc'⟩
    exact hws (h piece hpiece c hmem)
  · intro h piece hpiece c hmem
    exact h c (mem_splitOnP.mp ⟨piece, hpiece, hmem⟩).1

/-! ## Printing lines and reading them -/

def printed (ls : List String) : String := String.ofList (ls.flatMap fun l => l.toList ++ ['\n'])

/-- Has no line feed, nor a carriage return that would go with the line feed behind it. -/
def IsLine (s : String) : Prop := '\n' ∉ s.toList ∧ s.toList.getLast? ≠ some '\r'

instance (s : String) : Decidable (IsLine s) := inferInstanceAs (Decidable (_ ∧ _))

def IsWord (s : String) : Prop := s.toList ≠ [] ∧ ∀ c ∈ s.toList, isWhitespace c = false

instance (s : String) : Decidable (IsWord s) :=
  decidable_of_iff (s.toList ≠ [] ∧ (s.toList.all fun c => !isWhitespace c) = true)
    (and_congr_right fun _ => by simp)

theorem stripCr_eq_self {line : List Char} (h : line.getLast? ≠ some '\r') : stripCr line = line :=
  if_neg h

theorem lines_cons {l : String} (h : IsLine l) (rest : List Char) :
    lines (String.ofList (l.toList ++ '\n' :: rest)) = l :: lines (String.ofList rest) := by
  have hsplit : (l.toList ++ '\n' :: rest).splitOn '\n' = l.toList :: rest.splitOn '\n' := by
    apply List.splitOnP_append_cons_of_forall_mem
    · intro c hc
      exact beq_eq_false_iff_ne.mpr fun heq => h.1 (heq ▸ hc)
    · exact beq_self_eq_true _
  have hne : rest.splitOn '\n' ≠ [] := List.splitOn_ne_nil _ _
  unfold lines
  simp only [String.toList_ofList, hsplit, List.dropLast_cons_of_ne_nil hne,
    List.getLast?_cons_of_ne_nil hne, List.map_cons, stripCr_eq_self h.2, List.cons_append,
    String.ofList_toList]

theorem lines_printed {ls : List String} (h : ∀ l ∈ ls, IsLine l) : lines (printed ls) = ls := by
  induction ls with
  | nil => rfl
  | cons l ls ih =>
    obtain ⟨hl, hls⟩ := List.forall_mem_cons.mp h
    have hcons := lines_cons hl (ls.flatMap fun l => l.toList ++ ['\n'])
    rw [printed, List.flatMap_cons, List.append_assoc]
    exact hcons.trans (congrArg (l :: ·) (ih hls))

theorem trim_eq_self {s : String} (hhead : ∀ c ∈ s.toList.head?, isWhitespace c = false)
    (hlast : ∀ c ∈ s.toList.getLast?, isWhitespace c = false) : trim s = s := by
  have hfront : s.toList.dropWhile isWhitespace = s.toList := by
    rcases hs : s.toList with _ | ⟨c, l⟩
    · rfl
    · exact List.dropWhile_cons_of_neg (by simp [hhead c (by simp [hs])])
  have hback : s.toList.rdropWhile isWhitespace = s.toList := by
    rcases List.eq_nil_or_concat' s.toList with hs | ⟨l, c, hs⟩
    · rw [hs]
      rfl
    · rw [hs]
      exact List.rdropWhile_concat_neg _ _ _ (by simp [hlast c (by simp [hs])])
  rw [trim, hfront, hback, String.ofList_toList]

theorem IsWord.getLast?_append {s : String} (h : IsWord s) (l : List Char) :
    ∀ c ∈ (l ++ s.toList).getLast?, isWhitespace c = false := by
  intro c hc
  rw [List.getLast?_append_of_ne_nil _ h.1] at hc
  exact h.2 c (List.mem_of_getLast? hc)

theorem IsWord.notMem {s : String} (h : IsWord s) {c : Char} (hc : isWhitespace c = true) :
    c ∉ s.toList := by
  intro hmem
  have hnot := h.2 c hmem
  rw [hc] at hnot
  cases hnot

theorem IsWord.isLine {s : String} (h : IsWord s) : IsLine s :=
  ⟨h.notMem (by decide), fun hlast => h.notMem (by decide) (List.mem_of_getLast? hlast)⟩

theorem IsLine.append {s t : String} (hs : IsLine s) (ht : IsLine t) : IsLine (s ++ t) := by
  constructor
  · rw [String.toList_append, List.mem_append]
    exact fun hmem => hmem.elim hs.1 ht.1
  · intro hlast
    rw [String.toList_append, List.getLast?_append, Option.or_eq_some_iff] at hlast
    rcases hlast with hlast | ⟨-, hlast⟩
    · exact ht.2 hlast
    · exact hs.2 hlast

theorem trim_append_word {pre word : String} (hpre : pre.toList.head?.all fun c => !isWhitespace c)
    (hne : pre.toList ≠ []) (hword : IsWord word) : trim (pre ++ word) = pre ++ word := by
  apply trim_eq_self
  · intro c hc
    rw [String.toList_append, List.head?_append_of_ne_nil _ hne] at hc
    have hhead := hc ▸ hpre
    simpa using hhead
  · rw [String.toList_append]
    exact hword.getLast?_append pre.toList

end Lib.Text
