import Mathlib
import BulkActions.Like
import BulkActions.System

-- Only the whole library brings in the lemmas on the case of ASCII characters.

namespace BulkActions

/-- What `func.lower(column).contains(s)` is documented to do: PostgreSQL's `lower` leaves the
characters of a lower-cased text, the letter x and the percent sign alone, and the test is a
LIKE with the text between percent signs. -/
structure ContainsIsLike (text : PyText) (sql : Sql) (lower : String → String) : Prop where
  lower_eq : ∀ value c, (∀ ch ∈ c.toList, ch ∈ (text.lower value).toList ∨ ch = 'x' ∨ ch = '%') →
    lower c = c
  holds_contains : ∀ s c b, Like.like (Like.contains s) (lower c) = some b →
    sql.holds (.contains s) (.str c) = b

theorem applyOperator_contains (text : PyText) (value : Json) :
    applyOperator text "contains" value = .ok (.contains (text.lower (text.strJson value))) :=
  rfl

/-- The operator is a substring test exactly for values whose lower-cased text has no wildcard
and no escape character. -/
theorem contains_literal_iff {text : PyText} {sql : Sql} {lower : String → String}
    (h : ContainsIsLike text sql lower) (value : Json) :
    ∃ test, applyOperator text "contains" value = .ok test ∧
      ((∀ c, sql.holds test (.str c) ↔
          (text.lower (text.strJson value)).toList <:+: (lower c).toList) ↔
        ∀ ch ∈ (text.lower (text.strJson value)).toList, Like.plain ch) := by
  refine ⟨_, applyOperator_contains text value, ?_⟩
  constructor
  · intro hsame
    by_contra hplain
    obtain ⟨hlike, hwithin⟩ := Like.like_contains_sample hplain
    have hlower := h.lower_eq (text.strJson value)
      (.ofList (Like.sample (text.lower (text.strJson value)).toList))
      (by simpa using Like.sample_chars (text.lower (text.strJson value)).toList)
    have hholds := h.holds_contains _ _ _ (hlower.symm ▸ hlike)
    have hsub := (hsame _).mp hholds
    rw [hlower, String.toList_ofList] at hsub
    exact hwithin hsub
  · intro hplain c
    rw [h.holds_contains _ c _ (Like.like_contains hplain (lower c)), decide_eq_true_eq]

/-- `lower` and LIKE on ASCII columns. -/
def asciiSql : Sql where
  accepts _ _ := true
  holds
    | .contains s, .str c => (Like.like (Like.contains s) (c.map Char.toLower)).getD false
    | _, _ => false

theorem asciiSql_containsIsLike :
    ContainsIsLike asciiText asciiSql (fun s => s.map Char.toLower) where
  lower_eq value c h := by
    have hsame : ∀ ch ∈ c.toList, ch.toLower = ch := by
      intro ch hch
      rcases h ch hch with hlower | rfl | rfl
      · obtain ⟨d, _, rfl⟩ : ∃ d ∈ value.toList, d.toLower = ch := by
          simpa [asciiText] using hlower
        exact Char.toLower_toLower_eq_toLower d
      · rfl
      · rfl
    rw [String.map_eq_internal, List.map_congr_left hsame, List.map_id', String.ofList_toList]
  holds_contains s c b h := by simp [asciiSql, h]

theorem contains_literal_domain :
    ∃ test, applyOperator asciiText "contains" (.str "@Example.com") = .ok test ∧
      ((∀ c, asciiSql.holds test (.str c) ↔
          (asciiText.lower "@Example.com").toList <:+: (c.map Char.toLower).toList) ↔
        ∀ ch ∈ (asciiText.lower "@Example.com").toList, Like.plain ch) :=
  contains_literal_iff asciiSql_containsIsLike (.str "@Example.com")

/-- An underscore in the value matches any character. -/
theorem contains_not_literal :
    ¬ ∀ (text : PyText) (sql : Sql) (lower : String → String) (value : Json) (test : Test)
      (c : String), ContainsIsLike text sql lower →
      applyOperator text "contains" value = .ok test →
      (sql.holds test (.str c) ↔
        (text.lower (text.strJson value)).toList <:+: (lower c).toList) := by
  intro always
  have hvalue : "a_b".map Char.toLower = "a_b" := by rw [String.map_eq_internal]; rfl
  have hcolumn : "axb".map Char.toLower = "axb" := by rw [String.map_eq_internal]; rfl
  have hlike : Like.like (Like.contains "a_b") "axb" = some true := by decide
  have hholds : asciiSql.holds (.contains "a_b") (.str "axb") := by
    simp [asciiSql, hcolumn, hlike]
  have hsub := (always asciiText asciiSql _ (.str "a_b") (.contains ("a_b".map Char.toLower)) "axb"
    asciiSql_containsIsLike rfl).mp (hvalue.symm ▸ hholds)
  rw [show asciiText.lower (asciiText.strJson (.str "a_b")) = "a_b" from hvalue, hcolumn] at hsub
  exact absurd hsub (by decide)

end BulkActions
