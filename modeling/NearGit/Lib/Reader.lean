import NearGit.Lib.Borsh
import NearGit.Lib.Outcome

/-! Readers that go through data by positions and count in 32 bits. A reader is described by the
bytes it takes a value for, and by the bytes after which it reads a length that may be too large
to be added to the position. -/

namespace Lib.Reader

variable {α β : Type}

/-! ## Where something is read -/

/-- At `pos`, `data` goes on with `part`, which ends at `pos'`. -/
def Spans (data : Bytes) (pos : ℕ) (part : Bytes) (pos' : ℕ) : Prop :=
  data.drop pos = part ++ data.drop pos' ∧ pos' = pos + part.length

/-- After `part`, a length is declared that leads beyond what 32 bits can count to. -/
def Overruns (data : Bytes) (pos : ℕ) (part : Bytes) : Prop :=
  ∃ len rest, len < 2 ^ 32 ∧ data.drop pos = part ++ (Borsh.le32 len ++ rest) ∧
    2 ^ 32 ≤ pos + part.length + 4 + len

section Data
variable {data part part' : Bytes} {pos pos' pos'' : ℕ}

theorem spans_nil : Spans data pos [] pos' ↔ pos' = pos := by
  constructor
  · exact fun h => h.2
  · rintro rfl
    exact ⟨rfl, rfl⟩

theorem spans_of_drop {rest : Bytes} (h : data.drop pos = part ++ rest) :
    Spans data pos part (pos + part.length) := by
  refine ⟨?_, rfl⟩
  rw [← List.drop_drop, h, List.drop_left]

theorem Spans.append (h : Spans data pos part pos') (h' : Spans data pos' part' pos'') :
    Spans data pos (part ++ part') pos'' := by
  constructor
  · rw [h.1, h'.1, List.append_assoc]
  · rw [h'.2, h.2, List.length_append, Nat.add_assoc]

theorem spans_append : Spans data pos (part ++ part') pos'' ↔
    ∃ pos', Spans data pos part pos' ∧ Spans data pos' part' pos'' := by
  constructor
  · intro h
    have hdrop : data.drop pos = part ++ (part' ++ data.drop pos'') := by
      rw [h.1, List.append_assoc]
    have hfront := spans_of_drop hdrop
    refine ⟨_, hfront, List.append_cancel_left (hfront.1.symm.trans hdrop), ?_⟩
    rw [h.2, List.length_append, Nat.add_assoc]
  · rintro ⟨pos', h, h'⟩
    exact h.append h'

theorem Spans.le (h : Spans data pos part pos') (hpos : pos ≤ data.length) :
    pos' ≤ data.length := by
  have hlength := congrArg List.length h.1
  rw [List.length_append, List.length_drop, List.length_drop] at hlength
  have hend := h.2
  omega

theorem Spans.end_le (h : Spans data pos part pos') (hpart : 0 < part.length) :
    pos' ≤ data.length := by
  apply h.le
  have hlength := congrArg List.length h.1
  rw [List.length_append, List.length_drop] at hlength
  omega

theorem Spans.overruns_iff (h : Spans data pos part pos') :
    Overruns data pos' part' ↔ Overruns data pos (part ++ part') := by
  have hcount (len : ℕ) : pos' + part'.length + 4 + len =
      pos + (part ++ part').length + 4 + len := by
    rw [h.2, List.length_append, Nat.add_assoc pos]
  constructor
  · rintro ⟨len, rest, hlen, hdrop, hover⟩
    refine ⟨len, rest, hlen, ?_, hcount len ▸ hover⟩
    rw [h.1, hdrop, List.append_assoc]
  · rintro ⟨len, rest, hlen, hdrop, hover⟩
    refine ⟨len, rest, hlen, ?_, hcount len ▸ hover⟩
    rw [h.1, List.append_assoc] at hdrop
    exact List.append_cancel_left hdrop

end Data

/-! ## What a reader reads -/

/-- How a value may be written. -/
abbrev Layout (α : Type) := α → Bytes → Prop

structure Reads (data : Bytes) (read : ℕ → Outcome (α × ℕ)) (L : Layout α)
    (Before : Bytes → Prop) : Prop where
  ok_iff : ∀ {pos a pos'}, read pos = .ok (a, pos') ↔ ∃ part, L a part ∧ Spans data pos part pos'
  panic_iff : ∀ {pos why}, pos ≤ data.length → (read pos = .panic why ↔
    why = .addOverflow ∧ ∃ part, Before part ∧ Overruns data pos part)

def Layout.pure (a : α) : Layout α := fun b part => b = a ∧ part = []

def Layout.bind (L : Layout α) (M : α → Layout β) : Layout β := fun b part =>
  ∃ a front back, L a front ∧ M a b back ∧ part = front ++ back

def Layout.many (L : Layout α) (n : ℕ) : Layout (List α) := fun as part =>
  as.length = n ∧ ∃ parts, List.Forall₂ L as parts ∧ part = parts.flatten

def beforeBind (L : Layout α) (Before : Bytes → Prop) (BeforeNext : α → Bytes → Prop)
    (part : Bytes) : Prop :=
  Before part ∨ ∃ a front back, L a front ∧ BeforeNext a back ∧ part = front ++ back

def beforeMany (L : Layout α) (Before : Bytes → Prop) (n : ℕ) (part : Bytes) : Prop :=
  ∃ as parts front, as.length < n ∧ List.Forall₂ L as parts ∧ Before front ∧
    part = parts.flatten ++ front

def many (read : ℕ → Outcome (α × ℕ)) : ℕ → ℕ → Outcome (List α × ℕ)
  | 0, pos => .ok ([], pos)
  | n + 1, pos => do
    let (a, pos) ← read pos
    let (as, pos) ← many read n pos
    return (a :: as, pos)

section Rules
variable {data : Bytes} {read : ℕ → Outcome (α × ℕ)} {L L' : Layout α}
  {Before Before' : Bytes → Prop}

theorem Reads.of_iff (h : Reads data read L Before) (hL : ∀ a part, L a part ↔ L' a part)
    (hBefore : ∀ part, Before part ↔ Before' part) : Reads data read L' Before' := by
  constructor
  · intro pos a pos'
    simp only [h.ok_iff, hL]
  · intro pos why hpos
    simp only [h.panic_iff hpos, hBefore]

theorem Reads.pure (data : Bytes) (a : α) :
    Reads data (fun pos => .ok (a, pos)) (.pure a) fun _ => False := by
  constructor
  · intro pos b pos'
    rw [Outcome.ok.injEq, Prod.mk.injEq]
    constructor
    · rintro ⟨rfl, rfl⟩
      exact ⟨[], ⟨rfl, rfl⟩, spans_nil.mpr rfl⟩
    · rintro ⟨part, ⟨rfl, rfl⟩, hspans⟩
      exact ⟨rfl, (spans_nil.mp hspans).symm⟩
  · intro pos why _
    apply iff_of_false
    · exact fun h => by cases h
    · exact fun ⟨_, _, hbefore, _⟩ => hbefore

theorem Reads.ite {read' : ℕ → Outcome (α × ℕ)} (p : Prop) [Decidable p]
    (h : Reads data read L Before) (h' : Reads data read' L' Before') :
    Reads data (fun pos => if p then read pos else read' pos)
      (fun a part => if p then L a part else L' a part)
      fun part => if p then Before part else Before' part := by
  by_cases hp : p
  · simp only [if_pos hp]
    exact h
  · simp only [if_neg hp]
    exact h'

theorem Reads.bind {next : α → ℕ → Outcome (β × ℕ)} {M : α → Layout β}
    {BeforeNext : α → Bytes → Prop} (h : Reads data read L Before)
    (hnext : ∀ a, Reads data (next a) (M a) (BeforeNext a)) :
    Reads data (fun pos => read pos >>= fun r => next r.1 r.2) (L.bind M)
      (beforeBind L Before BeforeNext) := by
  constructor
  · intro pos b pos''
    rw [Outcome.bind_eq_ok]
    constructor
    · rintro ⟨⟨a, pos'⟩, hread, hb⟩
      obtain ⟨front, hfront, hspans⟩ := h.ok_iff.mp hread
      obtain ⟨back, hback, hspans'⟩ := (hnext a).ok_iff.mp hb
      exact ⟨_, ⟨a, front, back, hfront, hback, rfl⟩, hspans.append hspans'⟩
    · rintro ⟨_, ⟨a, front, back, hfront, hback, rfl⟩, hspans⟩
      obtain ⟨pos', hspans, hspans'⟩ := spans_append.mp hspans
      exact ⟨(a, pos'), h.ok_iff.mpr ⟨front, hfront, hspans⟩,
        (hnext a).ok_iff.mpr ⟨back, hback, hspans'⟩⟩
  · intro pos why hpos
    rw [Outcome.bind_eq_panic, h.panic_iff hpos]
    constructor
    · rintro (⟨rfl, part, hbefore, hover⟩ | ⟨⟨a, pos'⟩, hread, hpanic⟩)
      · exact ⟨rfl, part, .inl hbefore, hover⟩
      · obtain ⟨front, hfront, hspans⟩ := h.ok_iff.mp hread
        obtain ⟨rfl, back, hback, hover⟩ := ((hnext a).panic_iff (hspans.le hpos)).mp hpanic
        exact ⟨rfl, _, .inr ⟨a, front, back, hfront, hback, rfl⟩, hspans.overruns_iff.mp hover⟩
    · rintro ⟨rfl, part, hbefore | ⟨a, front, back, hfront, hback, rfl⟩, hover⟩
      · exact .inl ⟨rfl, part, hbefore, hover⟩
      · have hspans : Spans data pos front (pos + front.length) := by
          obtain ⟨len, rest, -, hdrop, -⟩ := hover
          rw [List.append_assoc] at hdrop
          exact spans_of_drop hdrop
        refine .inr ⟨(a, pos + front.length), h.ok_iff.mpr ⟨front, hfront, hspans⟩, ?_⟩
        exact ((hnext a).panic_iff (hspans.le hpos)).mpr
          ⟨rfl, back, hback, hspans.overruns_iff.mpr hover⟩

theorem Reads.many (h : Reads data read L Before) (n : ℕ) :
    Reads data (many read n) (L.many n) (beforeMany L Before n) := by
  induction n with
  | zero =>
    refine (Reads.pure data []).of_iff (fun as part => ?_) (fun part => ?_)
    · constructor
      · rintro ⟨rfl, rfl⟩
        exact ⟨rfl, [], .nil, rfl⟩
      · rintro ⟨hlength, parts, hparts, rfl⟩
        cases List.length_eq_zero_iff.mp hlength
        cases hparts
        exact ⟨rfl, rfl⟩
    · apply iff_of_false id
      rintro ⟨as, parts, front, hlength, -⟩
      exact Nat.not_lt_zero _ hlength
  | succ n ih =>
    refine (h.bind fun a => ih.bind fun as => Reads.pure data (a :: as)).of_iff
      (fun as part => ?_) (fun part => ?_)
    · constructor
      · rintro ⟨a, front, _, hfront, ⟨as, _, _, ⟨rfl, parts, hparts, rfl⟩, ⟨rfl, rfl⟩, rfl⟩, rfl⟩
        refine ⟨rfl, front :: parts, .cons hfront hparts, ?_⟩
        rw [List.append_nil, List.flatten_cons]
      · rintro ⟨hlength, parts, hparts, rfl⟩
        cases hparts with
        | nil => cases hlength
        | cons hfront hparts =>
          refine ⟨_, _, _, hfront, ⟨_, _, [], ⟨Nat.succ.inj hlength, _, hparts, rfl⟩, ⟨rfl, rfl⟩,
            rfl⟩, ?_⟩
          rw [List.append_nil, List.flatten_cons]
    · constructor
      · rintro (hbefore | ⟨a, front, back, hfront, hback, rfl⟩)
        · exact ⟨[], [], part, Nat.succ_pos n, .nil, hbefore, rfl⟩
        · rcases hback with ⟨as, parts, last, hlength, hparts, hlast, rfl⟩ | ⟨_, _, _, _, hnone, _⟩
          · refine ⟨a :: as, front :: parts, last, Nat.succ_lt_succ hlength, .cons hfront hparts,
              hlast, ?_⟩
            rw [List.flatten_cons, List.append_assoc]
          · exact hnone.elim
      · rintro ⟨as, parts, last, hlength, hparts, hlast, rfl⟩
        cases hparts with
        | nil => exact .inl hlast
        | cons hfront hparts =>
          refine .inr ⟨_, _, _, hfront, .inl ⟨_, _, last, Nat.lt_of_succ_lt_succ hlength, hparts,
            hlast, rfl⟩, ?_⟩
          rw [List.flatten_cons, List.append_assoc]

theorem errsWith_many {texts : String → Prop} (h : ∀ pos, (read pos).ErrsWith texts) (n pos : ℕ) :
    (many read n pos).ErrsWith texts := by
  induction n generalizing pos with
  | zero => trivial
  | succ n ih => exact (h pos).bind fun r => (ih r.2).bind fun _ => trivial

end Rules

end Lib.Reader
