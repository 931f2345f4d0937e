import Mathlib.Data.List.Basic
import Mathlib.Data.List.Infix

namespace OffsetPages

variable {α β : Type}

/-- `LIMIT limit OFFSET offset`. -/
def page (xs : List α) (offset limit : ℕ) : List α := (xs.drop offset).take limit

theorem page_map (f : α → β) (xs : List α) (offset limit : ℕ) :
    page (xs.map f) offset limit = (page xs offset limit).map f := by
  rw [page, page, ← List.map_drop, ← List.map_take]

theorem length_page (xs : List α) (offset limit : ℕ) :
    (page xs offset limit).length = min limit (xs.length - offset) := by
  rw [page, List.length_take, List.length_drop]

/-- Behind a page, no rows are left out. -/
theorem page_append_drop (xs : List α) (offset limit : ℕ) :
    page xs offset limit ++ xs.drop (offset + (page xs offset limit).length) =
      xs.drop offset := by
  rw [← List.drop_drop, page, List.length_take]
  rcases Nat.le_total limit (xs.drop offset).length with hle | hle
  · rw [Nat.min_eq_left hle, List.take_append_drop]
  · rw [Nat.min_eq_right hle, List.take_of_length_le hle, List.drop_length, List.append_nil]

section Walk

variable (rows : ℕ → List α) (limits : ℕ → ℕ)

/-- The offset of the `k`-th request, which finds `rows k`: the client goes on behind the rows
it has received. -/
def offset : ℕ → ℕ
  | 0 => 0
  | k + 1 => offset k + (page (rows k) (offset k) (limits k)).length

def received (k : ℕ) : List α := page (rows k) (offset rows limits k) (limits k)

/-- The pages of the first `n` requests. -/
def delivered (n : ℕ) : List α := (List.range n).flatMap (received rows limits)

variable {rows limits}

theorem delivered_succ (n : ℕ) :
    delivered rows limits (n + 1) = delivered rows limits n ++ received rows limits n := by
  simp [delivered, List.range_succ]

theorem length_delivered (n : ℕ) : (delivered rows limits n).length = offset rows limits n := by
  induction n with
  | zero => rfl
  | succ n ih => rw [delivered_succ, List.length_append, ih]; rfl

theorem offset_map (f : α → β) (n : ℕ) :
    offset (fun k => (rows k).map f) limits n = offset rows limits n := by
  induction n with
  | zero => rfl
  | succ n ih => rw [offset, offset, ih, page_map, List.length_map]

theorem delivered_map (f : α → β) (n : ℕ) :
    delivered (fun k => (rows k).map f) limits n = (delivered rows limits n).map f := by
  induction n with
  | zero => rfl
  | succ n ih =>
    rw [delivered_succ, delivered_succ, List.map_append, ih, received, received, offset_map,
      page_map]

theorem mem_delivered {n : ℕ} {x : α} :
    x ∈ delivered rows limits n ↔ ∃ k < n, x ∈ received rows limits k := by
  simp [delivered]

theorem mem_of_mem_page {xs : List α} {o limit : ℕ} {x : α} (h : x ∈ page xs o limit) : x ∈ xs :=
  List.mem_of_mem_drop (List.mem_of_mem_take h)

/-- The pages of a client that always asks for what is behind the rows it has. -/
theorem pages_delivered {pages : ℕ → List α}
    (asked : ∀ k, pages k = page (rows k) ((List.range k).flatMap pages).length (limits k))
    (n : ℕ) : (List.range n).flatMap pages = delivered rows limits n := by
  induction n with
  | zero => rfl
  | succ n ih =>
    have hpage : pages n = received rows limits n := by
      rw [asked n, ih, length_delivered]
      rfl
    rw [delivered_succ, ← ih, ← hpage]
    simp [List.range_succ]

/-- When rows are only added at the end, a walk delivers them in order and each once. -/
theorem delivered_prefix_rows (grows : ∀ k, rows k <+: rows (k + 1)) (n : ℕ) :
    delivered rows limits n <+: rows n := by
  induction n with
  | zero => exact List.nil_prefix
  | succ n ih =>
    have hsplit : delivered rows limits n ++ (rows n).drop (offset rows limits n) = rows n := by
      rw [← length_delivered]
      exact List.prefix_append_drop ih |>.symm
    refine List.IsPrefix.trans ?_ (grows n)
    refine ⟨(rows n).drop (offset rows limits (n + 1)), ?_⟩
    rw [delivered_succ, List.append_assoc]
    exact (congrArg _ (page_append_drop ..)).trans hsplit

/-- A page that is not full is the last one. -/
theorem length_le_of_short {n : ℕ} (hshort : (received rows limits n).length < limits n) :
    (rows n).length ≤ offset rows limits (n + 1) := by
  have hlength : (received rows limits n).length =
      min (limits n) ((rows n).length - offset rows limits n) := length_page ..
  have hnext : offset rows limits (n + 1) =
      offset rows limits n + (received rows limits n).length := rfl
  omega

/-- When rows are only inserted, wherever that is, none that was there at first is missed. -/
theorem mem_delivered_or_ahead (grows : ∀ k, (rows k).Sublist (rows (k + 1))) {x : α}
    (hx : x ∈ rows 0) (n : ℕ) :
    x ∈ delivered rows limits n ∨ x ∈ (rows n).drop (offset rows limits n) := by
  induction n with
  | zero => exact Or.inr hx
  | succ n ih =>
    rcases ih with hpast | hahead
    · exact Or.inl (delivered_succ n ▸ List.mem_append_left _ hpast)
    · rw [← page_append_drop _ _ (limits n)] at hahead
      rcases List.mem_append.mp hahead with hpage | hrest
      · exact Or.inl (delivered_succ n ▸ List.mem_append_right _ hpage)
      · exact Or.inr (((grows n).drop _).subset hrest)

/-- A walk that has come to the end has delivered all of them. -/
theorem mem_delivered_last (grows : ∀ k, (rows k).Sublist (rows (k + 1))) {x : α} (hx : x ∈ rows 0)
    {n : ℕ} (hlast : (rows n).length ≤ offset rows limits (n + 1)) :
    x ∈ delivered rows limits (n + 1) := by
  have hwhere : x ∈ delivered rows limits n ∨ x ∈ (rows n).drop (offset rows limits n) :=
    mem_delivered_or_ahead grows hx n
  rcases hwhere with hpast | hahead
  · exact delivered_succ n ▸ List.mem_append_left _ hpast
  · rw [← page_append_drop _ _ (limits n)] at hahead
    rcases List.mem_append.mp hahead with hpage | hrest
    · exact delivered_succ n ▸ List.mem_append_right _ hpage
    · have hrest : x ∈ (rows n).drop (offset rows limits (n + 1)) := hrest
      rw [List.drop_eq_nil_of_le hlast] at hrest
      cases hrest

end Walk

/-- A walk over rows that stay as they are delivers them as they are. -/
theorem delivered_const {xs : List α} {limits : ℕ → ℕ} {n : ℕ}
    (hlast : xs.length ≤ offset (fun _ => xs) limits (n + 1)) :
    delivered (fun _ => xs) limits (n + 1) = xs := by
  have hprefix : delivered (fun _ => xs) limits (n + 1) <+: xs :=
    @delivered_prefix_rows α (fun _ => xs) limits (fun _ => List.prefix_refl xs) (n + 1)
  exact hprefix.eq_of_length_le (by rw [length_delivered]; exact hlast)

end OffsetPages
