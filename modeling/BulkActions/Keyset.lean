import Mathlib.Data.List.Basic
import Mathlib.Data.List.Nodup
import Mathlib.Order.Lattice

namespace Keyset

variable {α β : Type}

/-- The `i`-th page of `n` elements. -/
def pageAt (n i : Nat) (xs : List α) : List α :=
  (xs.drop (i * n)).take n

theorem take_succ_mul (n i : Nat) (xs : List α) :
    xs.take ((i + 1) * n) = xs.take (i * n) ++ pageAt n i xs := by
  rw [Nat.add_mul, Nat.one_mul, List.take_add]
  rfl

theorem drop_mul (n i : Nat) (xs : List α) :
    xs.drop (i * n) = pageAt n i xs ++ xs.drop ((i + 1) * n) := by
  rw [Nat.add_mul, Nat.one_mul, ← List.drop_drop]
  exact (List.take_append_drop n _).symm

theorem split_at (n i : Nat) (xs : List α) :
    xs = xs.take (i * n) ++ (pageAt n i xs ++ xs.drop ((i + 1) * n)) := by
  rw [← drop_mul, List.take_append_drop]

@[simp] theorem length_pageAt (n i : Nat) (xs : List α) :
    (pageAt n i xs).length = min n (xs.length - i * n) := by
  simp [pageAt]

@[simp] theorem pageAt_map (f : α → β) (n i : Nat) (xs : List α) :
    pageAt n i (xs.map f) = (pageAt n i xs).map f := by
  simp [pageAt]

theorem pageAt_eq_nil {n i : Nat} {xs : List α} (hn : 1 ≤ n) :
    pageAt n i xs = [] ↔ xs.length ≤ i * n := by
  rw [← List.length_eq_zero_iff, length_pageAt]
  omega

theorem mem_of_mem_pageAt {n i : Nat} {xs : List α} {x : α} (h : x ∈ pageAt n i xs) : x ∈ xs :=
  List.mem_of_mem_drop (List.mem_of_mem_take h)

/-- An element is on the page that its index falls on. -/
theorem mem_pageAt {n i : Nat} (hn : 1 ≤ n) {xs : List α} {x : α} :
    x ∈ pageAt n i xs ↔ ∃ k, xs[k]? = some x ∧ k / n = i := by
  rw [pageAt, List.mem_iff_getElem?]
  constructor
  · rintro ⟨k, hk⟩
    rw [List.getElem?_take] at hk
    split at hk
    next hlt =>
      rw [List.getElem?_drop] at hk
      refine ⟨i * n + k, hk, ?_⟩
      rw [Nat.mul_comm, Nat.mul_add_div hn, Nat.div_eq_of_lt hlt, Nat.add_zero]
    next => simp at hk
  · rintro ⟨k, hk, rfl⟩
    refine ⟨k % n, ?_⟩
    rw [List.getElem?_take, if_pos (Nat.mod_lt k hn), List.getElem?_drop, Nat.mul_comm,
      Nat.div_add_mod]
    exact hk

/-- Every element is on exactly one page. -/
theorem existsUnique_page {n : Nat} (hn : 1 ≤ n) {xs : List α} (nodup : xs.Nodup) {x : α}
    (h : x ∈ xs) : ∃! i, x ∈ pageAt n i xs := by
  obtain ⟨k, hk⟩ := List.mem_iff_getElem?.mp h
  refine ⟨k / n, (mem_pageAt hn).mpr ⟨k, hk, rfl⟩, ?_⟩
  intro j hj
  obtain ⟨k', hk', rfl⟩ := (mem_pageAt hn).mp hj
  obtain ⟨hlt, _⟩ := List.getElem?_eq_some_iff.mp hk'
  rw [(List.getElem?_inj hlt nodup).mp (hk'.trans hk.symm)]

theorem lt_of_mem_pageAt {n i : Nat} {xs : List α} {x : α} (h : x ∈ pageAt n i xs) :
    i * n < xs.length := by
  have hpos := List.length_pos_of_mem h
  rw [length_pageAt] at hpos
  omega

/-- The first pages, one after the other. -/
theorem flatMap_pageAt (n m : Nat) (xs : List α) :
    (List.range m).flatMap (fun i => pageAt n i xs) = xs.take (m * n) := by
  induction m with
  | zero => simp
  | succ m ih =>
    rw [List.range_succ, List.flatMap_append, ih, List.flatMap_singleton, ← take_succ_mul]

/-- A rewriting that touches no answer of a query, and makes none, leaves its answers alone. -/
theorem filter_filterMap {f : α → Option α} {p : α → Bool} {xs : List α}
    (keep : ∀ x ∈ xs, p x → f x = some x)
    (none : ∀ x ∈ xs, p x = false → ∀ y, f x = some y → p y = false) :
    (xs.filterMap f).filter p = xs.filter p := by
  induction xs with
  | nil => rfl
  | cons x xs ih =>
    have ih := ih (fun y hy => keep y (List.mem_cons_of_mem x hy))
      (fun y hy => none y (List.mem_cons_of_mem x hy))
    cases hp : p x with
    | true =>
      rw [List.filterMap_cons_some (keep x List.mem_cons_self hp), List.filter_cons_of_pos hp,
        List.filter_cons_of_pos hp, ih]
    | false =>
      rw [List.filter_cons_of_neg (by simp [hp]), ← ih]
      cases hf : f x with
      | none => rw [List.filterMap_cons_none hf]
      | some y =>
        have hy := none x List.mem_cons_self hp y hf
        rw [List.filterMap_cons_some hf, List.filter_cons_of_neg (by simp [hy])]

/-- A rewriting that moves no element into or out of the answers of a query acts on them
alone. -/
theorem filter_filterMap_comm {f : α → Option α} {p : α → Bool} {xs : List α}
    (keeps : ∀ x y, f x = some y → p y = p x) :
    (xs.filterMap f).filter p = (xs.filter p).filterMap f := by
  rw [List.filter_filterMap, List.filterMap_filter]
  refine List.filterMap_congr (fun x _ => ?_)
  cases hf : f x with
  | none => simp
  | some y => simp [Option.filter, keeps x y hf]

section Order

variable [LinearOrder β] {key : α → β}

/-- Strictly increasing by key. -/
def Increasing (key : α → β) (xs : List α) : Prop :=
  xs.Pairwise (fun x y => key x < key y)

theorem Increasing.sublist {xs ys : List α} (h : Increasing key ys) (hs : xs.Sublist ys) :
    Increasing key xs :=
  List.Pairwise.sublist hs h

theorem Increasing.nodup_map {xs : List α} (h : Increasing key xs) : (xs.map key).Nodup :=
  List.pairwise_map.mpr (h.imp (fun hlt => ne_of_lt hlt))

theorem Increasing.le_last {xs : List α} (h : Increasing key xs) {last : α}
    (hl : xs.getLast? = some last) {x : α} (hx : x ∈ xs) : key x ≤ key last := by
  obtain ⟨ys, rfl⟩ := List.getLast?_eq_some_iff.mp hl
  rcases List.mem_append.mp hx with hx | hx
  · exact le_of_lt ((List.pairwise_append.mp h).2.2 x hx last (by simp))
  · rw [List.mem_singleton.mp hx]

theorem Increasing.first_le {xs : List α} (h : Increasing key xs) {first : α}
    (hf : xs.head? = some first) {x : α} (hx : x ∈ xs) : key first ≤ key x := by
  obtain ⟨ys, rfl⟩ := List.head?_eq_some_iff.mp hf
  rcases List.mem_cons.mp hx with rfl | hx
  · exact le_refl _
  · exact le_of_lt ((List.pairwise_cons.mp h).1 x hx)

/-- What a keyset query finds after the last element of a prefix. -/
theorem filter_after {xs ys : List α} (h : Increasing key (xs ++ ys)) {last : α}
    (hl : xs.getLast? = some last) :
    (xs ++ ys).filter (fun x => decide (key last < key x)) = ys := by
  obtain ⟨hx, _, hxy⟩ := List.pairwise_append.mp h
  have hlast : last ∈ xs := List.mem_of_getLast? hl
  have none : xs.filter (fun x => decide (key last < key x)) = [] := by
    refine List.filter_eq_nil_iff.mpr (fun x hm => ?_)
    simpa using Increasing.le_last hx hl hm
  have all : ys.filter (fun x => decide (key last < key x)) = ys := by
    refine List.filter_eq_self.mpr (fun y hm => ?_)
    simpa using hxy last hlast y hm
  rw [List.filter_append, none, all, List.nil_append]

/-- What is behind the last element of a page is not ahead of it. -/
theorem length_add_countP_after {xs page : List α} (h : Increasing key xs) {q : α → Bool}
    (hpage : page.Sublist (xs.filter q)) {last : α} (hl : page.getLast? = some last) :
    page.length + xs.countP (fun x => decide (key last < key x) && q x) ≤ xs.countP q := by
  have hinc : Increasing key page := (h.sublist List.filter_sublist).sublist hpage
  have hbehind : page.length = page.countP (fun x => ¬ decide (key last < key x)) := by
    refine (List.countP_eq_length.mpr (fun x hx => ?_)).symm
    simpa using hinc.le_last hl hx
  have hall := List.length_eq_countP_add_countP (fun x => decide (key last < key x))
    (l := xs.filter q)
  rw [List.countP_filter, ← List.countP_eq_length_filter] at hall
  have hle := hpage.countP_le (p := fun x => ¬ decide (key last < key x))
  omega

/-- What a range query finds between the first and the last element of a segment. -/
theorem filter_between {xs ps ys : List α} (h : Increasing key (xs ++ (ps ++ ys)))
    {first last : α} (hf : ps.head? = some first) (hl : ps.getLast? = some last) :
    (xs ++ (ps ++ ys)).filter (fun x => decide (key first ≤ key x) && decide (key x ≤ key last)) =
      ps := by
  obtain ⟨_, hps, hxy⟩ := List.pairwise_append.mp h
  obtain ⟨hp, _, hpy⟩ := List.pairwise_append.mp hps
  have below : xs.filter
      (fun x => decide (key first ≤ key x) && decide (key x ≤ key last)) = [] := by
    refine List.filter_eq_nil_iff.mpr (fun x hm => ?_)
    have := hxy x hm first (List.mem_append_left _ (List.mem_of_head? hf))
    simp [not_le.mpr this]
  have inside : ps.filter
      (fun x => decide (key first ≤ key x) && decide (key x ≤ key last)) = ps := by
    refine List.filter_eq_self.mpr (fun x hm => ?_)
    simpa using ⟨Increasing.first_le hp hf hm, Increasing.le_last hp hl hm⟩
  have above : ys.filter
      (fun x => decide (key first ≤ key x) && decide (key x ≤ key last)) = [] := by
    refine List.filter_eq_nil_iff.mpr (fun x hm => ?_)
    have := hpy last (List.mem_of_getLast? hl) x hm
    simp [not_le.mpr this]
  rw [List.filter_append, List.filter_append, below, inside, above, List.nil_append,
    List.append_nil]

/-- The keyset walk: the page after the last element of a full page is the next one. -/
theorem next_page {n i : Nat} {xs : List α} (h : Increasing key xs) {last : α}
    (hl : (pageAt n i xs).getLast? = some last) :
    (xs.filter (fun x => decide (key last < key x))).take n = pageAt n (i + 1) xs := by
  have hsplit : xs = xs.take ((i + 1) * n) ++ xs.drop ((i + 1) * n) :=
    (List.take_append_drop _ _).symm
  have hlast : (xs.take ((i + 1) * n)).getLast? = some last := by
    rw [take_succ_mul, List.getLast?_append, hl]
    rfl
  rw [hsplit] at h
  nth_rewrite 1 [hsplit]
  rw [filter_after h hlast]
  rfl

/-- The range of a page holds the page and nothing else. -/
theorem page_range {n i : Nat} {xs : List α} (h : Increasing key xs) {first last : α}
    (hf : (pageAt n i xs).head? = some first) (hl : (pageAt n i xs).getLast? = some last) :
    xs.filter (fun x => decide (key first ≤ key x) && decide (key x ≤ key last)) =
      pageAt n i xs := by
  rw [split_at n i xs] at h
  nth_rewrite 1 [split_at n i xs]
  exact filter_between h hf hl

end Order

end Keyset
