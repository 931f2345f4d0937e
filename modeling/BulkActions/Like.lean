import Mathlib.Data.List.Infix

namespace Like

/-- A symbol of a pattern of SQL's LIKE operator. -/
inductive Symbol where
  | many
  | one
  | literal (c : Char)
  deriving DecidableEq, Repr

/-- Reads a pattern: percent and underscore are wildcards and a backslash quotes the character
behind it. A pattern that ends in the escape character is an error. -/
def parse : List Char → Option (List Symbol)
  | [] => some []
  | ['\\'] => none
  | '\\' :: c :: pattern => (parse pattern).map (.literal c :: ·)
  | '%' :: pattern => (parse pattern).map (.many :: ·)
  | '_' :: pattern => (parse pattern).map (.one :: ·)
  | c :: pattern => (parse pattern).map (.literal c :: ·)

/-- Whether a text matches a pattern as a whole. -/
def accepts : List Symbol → List Char → Bool
  | [], text => text.isEmpty
  | .many :: pattern, text => text.tails.any (accepts pattern)
  | .one :: _, [] => false
  | .one :: pattern, _ :: text => accepts pattern text
  | .literal _ :: _, [] => false
  | .literal c :: pattern, d :: text => c = d && accepts pattern text

/-- `text LIKE pattern`, and nothing for a pattern that is an error. -/
def like (pattern text : String) : Option Bool :=
  (parse pattern.toList).map (fun symbols => accepts symbols text.toList)

/-- A character that stands for itself in a pattern. -/
def plain (c : Char) : Bool := c ≠ '%' && c ≠ '_' && c ≠ '\\'

theorem accepts_many {pattern : List Symbol} {text : List Char} :
    accepts (.many :: pattern) text ↔ ∃ rest, rest <:+ text ∧ accepts pattern rest := by
  simp [accepts, List.any_eq_true, List.mem_tails]

theorem accepts_many_last (text : List Char) : accepts [.many] text :=
  accepts_many.mpr ⟨[], List.nil_suffix, rfl⟩

/-- Literals in front of a wildcard are a prefix test. -/
theorem accepts_starting (s text : List Char) :
    accepts (s.map .literal ++ [.many]) text ↔ s <+: text := by
  induction s generalizing text with
  | nil => simp [accepts_many_last]
  | cons c s ih =>
    cases text with
    | nil => simp [accepts]
    | cons d text => simp [accepts, ih, List.cons_prefix_cons]

/-- Literals between two wildcards are a substring test. -/
theorem accepts_containing (s text : List Char) :
    accepts (.many :: (s.map .literal ++ [.many])) text ↔ s <:+: text := by
  rw [accepts_many, List.infix_iff_prefix_suffix]
  simp only [accepts_starting, and_comm]

theorem parse_literal {c : Char} (h : plain c) (pattern : List Char) :
    parse (c :: pattern) = (parse pattern).map (.literal c :: ·) := by
  obtain ⟨⟨hpercent, hunderscore⟩, hbackslash⟩ : (c ≠ '%' ∧ c ≠ '_') ∧ c ≠ '\\' := by
    simpa [plain] using h
  exact parse.eq_6 c pattern (fun heq _ => hbackslash heq) (fun _ _ heq _ => hbackslash heq)
    hpercent hunderscore

theorem parse_plain {s : List Char} (h : ∀ c ∈ s, plain c) (pattern : List Char) :
    parse (s ++ pattern) = (parse pattern).map (s.map .literal ++ ·) := by
  induction s with
  | nil => simp
  | cons c s ih =>
    obtain ⟨hc, hs⟩ := List.forall_mem_cons.mp h
    simp [parse_literal hc, ih hs, Function.comp_def]

/-- A text that contains what a pattern between two percent signs asks for: nothing for a
percent sign and `x` for an underscore. -/
def sample : List Char → List Char
  | [] => []
  | ['\\'] => ['%']
  | '\\' :: c :: s => c :: sample s
  | '%' :: s => sample s
  | '_' :: s => 'x' :: sample s
  | c :: s => c :: sample s

theorem not_escape {c : Char} {s : List Char} (hend : c = '\\' → s = [] → False)
    (hescape : ∀ d rest, c = '\\' → s = d :: rest → False) : c ≠ '\\' := by
  rintro rfl
  cases s with
  | nil => exact hend rfl rfl
  | cons d rest => exact hescape d rest rfl rfl

theorem accepts_literal {c : Char} {pattern : List Symbol} {text : List Char} :
    accepts (.literal c :: pattern) (c :: text) = accepts pattern text := by
  simp [accepts]

/-- A pattern that ends in a percent sign is no error. -/
theorem accepts_sample (s : List Char) :
    ∃ pattern, parse (s ++ ['%']) = some pattern ∧ accepts pattern (sample s) := by
  fun_induction sample s with
  | case1 => exact ⟨[.many], rfl, accepts_many_last []⟩
  | case2 => exact ⟨[.literal '%'], rfl, rfl⟩
  | case3 c s ih =>
    obtain ⟨pattern, hparse, ih⟩ := ih
    exact ⟨.literal c :: pattern, by simp [parse, hparse], accepts_literal.trans ih⟩
  | case4 s ih =>
    obtain ⟨pattern, hparse, ih⟩ := ih
    exact ⟨.many :: pattern, by simp [parse, hparse],
      accepts_many.mpr ⟨_, List.suffix_refl _, ih⟩⟩
  | case5 s ih =>
    obtain ⟨pattern, hparse, ih⟩ := ih
    exact ⟨.one :: pattern, by simp [parse, hparse], ih⟩
  | case6 c s hend hescape hpercent hunderscore ih =>
    obtain ⟨pattern, hparse, ih⟩ := ih
    have hc : c ≠ '\\' := not_escape hend hescape
    exact ⟨.literal c :: pattern, by simp [parse, hparse, hc], accepts_literal.trans ih⟩

theorem sample_length (s : List Char) : (sample s).length ≤ s.length := by
  fun_induction sample s <;> simp <;> omega

theorem sample_chars (s : List Char) : ∀ c ∈ sample s, c ∈ s ∨ c = 'x' ∨ c = '%' := by
  fun_induction sample s <;> grind

/-- A wildcard or an escape makes the sample differ. -/
theorem sample_eq {s : List Char} (h : sample s = s) : ∀ c ∈ s, plain c := by
  fun_induction sample s with
  | case1 => simp
  | case2 => simp at h
  | case3 c s ih =>
    have hlength := sample_length s
    have heq := congrArg List.length h
    simp at heq
    omega
  | case4 s ih =>
    have hlength := sample_length s
    have heq := congrArg List.length h
    simp at heq
    omega
  | case5 s ih => simp at h
  | case6 c s hend hescape hpercent hunderscore ih =>
    have hc : c ≠ '\\' := not_escape hend hescape
    have hplain : plain c := by simpa [plain] using ⟨⟨hpercent, hunderscore⟩, hc⟩
    exact List.forall_mem_cons.mpr ⟨hplain, ih (List.cons.inj h).2⟩

/-- The pattern of SQLAlchemy's `contains`, which does not quote the text. -/
def contains (s : String) : String := "%" ++ s ++ "%"

theorem parse_contains (s : String) :
    parse (contains s).toList = (parse (s.toList ++ ['%'])).map (.many :: ·) := by
  simp [contains, parse]

/-- Plain text between percent signs is a substring test. -/
theorem like_contains {s : String} (h : ∀ c ∈ s.toList, plain c) (text : String) :
    like (contains s) text = some (decide (s.toList <:+: text.toList)) := by
  have hlast : parse ['%'] = some [.many] := rfl
  rw [like, parse_contains, parse_plain h, hlast]
  simp only [Option.map_some, Option.some.injEq]
  rw [Bool.eq_iff_iff, accepts_containing, decide_eq_true_eq]

/-- Text with a wildcard or an escape has a text that matches and does not contain it. -/
theorem like_contains_sample {s : String} (h : ¬ ∀ c ∈ s.toList, plain c) :
    like (contains s) (.ofList (sample s.toList)) = some true ∧
      ¬ s.toList <:+: sample s.toList := by
  obtain ⟨pattern, hparse, haccepts⟩ := accepts_sample s.toList
  constructor
  · have hmany : accepts (.many :: pattern) (sample s.toList) :=
      accepts_many.mpr ⟨_, List.suffix_refl _, haccepts⟩
    simp [like, parse_contains, hparse, hmany]
  · intro hwithin
    have heq : sample s.toList = s.toList :=
      (hwithin.eq_of_length_le (sample_length s.toList)).symm
    exact h (sample_eq heq)

end Like
