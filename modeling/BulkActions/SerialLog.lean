import BulkActions.Keyset
import Mathlib.Data.List.Sort
import Mathlib.Logic.Function.Basic

namespace SerialLog

variable {π α : Type} {key : α → Nat} {selects : α → Bool}

/-- A log whose entries take their numbers from a sequence when they are inserted and become
visible when their transaction commits. -/
structure State (π α : Type) where
  committed : List α
  opened : π → List α
  seq : Nat

/-- What transactions do to the log. -/
inductive Step [DecidableEq π] (key : α → Nat) (s : State π α) : State π α → Prop where
  | insert (p : π) (rows : List α) : rows.map key = List.range' s.seq rows.length →
      Step key s ⟨s.committed, Function.update s.opened p (s.opened p ++ rows),
        s.seq + rows.length⟩
  | commit (p : π) :
      Step key s ⟨s.committed ++ s.opened p, Function.update s.opened p [], s.seq⟩
  | rollback (p : π) : Step key s ⟨s.committed, Function.update s.opened p [], s.seq⟩
  | allot (n : Nat) : Step key s ⟨s.committed, s.opened, s.seq + n⟩

/-- No number is used twice, and none has been used that the sequence is still to give. -/
structure Serial (key : α → Nat) (s : State π α) : Prop where
  committed_lt : ∀ x ∈ s.committed, key x < s.seq
  opened_lt : ∀ p, ∀ x ∈ s.opened p, key x < s.seq
  nodup : ∀ p, ((s.committed ++ s.opened p).map key).Nodup
  apart : ∀ p q, ∀ x ∈ s.opened p, ∀ y ∈ s.opened q, key x = key y → p = q

/-- A transaction's entries are all that an update of its entries changes. -/
theorem mem_update [DecidableEq π] {opened : π → List α} {p q : π} {xs : List α} {x : α}
    (h : x ∈ Function.update opened p xs q) : (q = p ∧ x ∈ xs) ∨ (q ≠ p ∧ x ∈ opened q) := by
  rw [Function.update_apply] at h
  split at h
  next hq => exact Or.inl ⟨hq, h⟩
  next hq => exact Or.inr ⟨hq, h⟩

/-- The state once transaction `p` has nothing open any more. -/
theorem serial_close [DecidableEq π] {s : State π α} (h : Serial key s) (p : π) {log : List α}
    (hlt : ∀ x ∈ log, key x < s.seq) (hlog : (log.map key).Nodup)
    (hnodup : ∀ q, q ≠ p → ((log ++ s.opened q).map key).Nodup) :
    Serial key ⟨log, Function.update s.opened p [], s.seq⟩ where
  committed_lt := hlt
  opened_lt q x hx := by
    rcases mem_update hx with ⟨_, hx⟩ | ⟨_, hx⟩
    · simp at hx
    · exact h.opened_lt q x hx
  nodup q := by
    by_cases hq : q = p
    · subst hq
      simpa using hlog
    · dsimp only
      rw [Function.update_of_ne hq]
      exact hnodup q hq
  apart q q' x hx y hy hkey := by
    rcases mem_update hx with ⟨_, hx⟩ | ⟨_, hx⟩
    · simp at hx
    · rcases mem_update hy with ⟨_, hy⟩ | ⟨_, hy⟩
      · simp at hy
      · exact h.apart q q' x hx y hy hkey

theorem Serial.nodup_committed {s : State π α} (h : Serial key s) (p : π) :
    (s.committed.map key).Nodup := by
  have hboth := h.nodup p
  rw [List.map_append] at hboth
  exact (List.nodup_append.mp hboth).1

/-- Entries of different origin in the log and in two transactions have different numbers. -/
theorem Serial.nodup_append {s : State π α} (h : Serial key s) {p q : π} (hq : q ≠ p) :
    ((s.committed ++ s.opened p ++ s.opened q).map key).Nodup := by
  have hp := h.nodup p
  have hboth := h.nodup q
  rw [List.map_append, List.nodup_append] at hboth ⊢
  refine ⟨hp, hboth.2.1, ?_⟩
  rintro k hk _ hk' rfl
  obtain ⟨x, hx, rfl⟩ := List.mem_map.mp hk
  obtain ⟨y, hy, hxy⟩ := List.mem_map.mp hk'
  rcases List.mem_append.mp hx with hx | hx
  · exact hboth.2.2 (key x) (List.mem_map_of_mem hx) (key y) (List.mem_map_of_mem hy) hxy.symm
  · exact hq (h.apart q p y hy x hx hxy)

/-- The state once transaction `p` has inserted rows with the next numbers. -/
theorem serial_insert [DecidableEq π] {s : State π α} (h : Serial key s) (p : π) {rows : List α}
    (hrows : rows.map key = List.range' s.seq rows.length) :
    Serial key ⟨s.committed, Function.update s.opened p (s.opened p ++ rows),
      s.seq + rows.length⟩ := by
  have hnew : ∀ x ∈ rows, s.seq ≤ key x ∧ key x < s.seq + rows.length := by
    intro x hx
    have hmem : key x ∈ rows.map key := List.mem_map_of_mem hx
    rw [hrows, List.mem_range'_1] at hmem
    exact hmem
  refine ⟨fun x hx => Nat.lt_add_right _ (h.committed_lt x hx), fun q x hx => ?_, fun q => ?_,
    fun q q' x hx y hy hkey => ?_⟩
  · rcases mem_update hx with ⟨_, hx⟩ | ⟨_, hx⟩
    · rcases List.mem_append.mp hx with hx | hx
      · exact Nat.lt_add_right _ (h.opened_lt p x hx)
      · exact (hnew x hx).2
    · exact Nat.lt_add_right _ (h.opened_lt q x hx)
  · by_cases hq : q = p
    · subst hq
      dsimp only
      rw [Function.update_self, ← List.append_assoc, List.map_append, List.nodup_append]
      refine ⟨h.nodup q, hrows ▸ List.nodup_range', ?_⟩
      rintro k hk _ hk' rfl
      obtain ⟨x, hx, rfl⟩ := List.mem_map.mp hk
      obtain ⟨y, hy, hxy⟩ := List.mem_map.mp hk'
      have hge := (hnew y hy).1
      rcases List.mem_append.mp hx with hx | hx
      · have hlt := h.committed_lt x hx
        omega
      · have hlt := h.opened_lt q x hx
        omega
    · dsimp only
      rw [Function.update_of_ne hq]
      exact h.nodup q
  · rcases mem_update hx with ⟨rfl, hx'⟩ | ⟨hq, hx'⟩
    · rcases mem_update hy with ⟨rfl, _⟩ | ⟨_, hy'⟩
      · rfl
      · rcases List.mem_append.mp hx' with hx' | hx'
        · exact h.apart q q' x hx' y hy' hkey
        · have hge := (hnew x hx').1
          have hlt := h.opened_lt q' y hy'
          omega
    · rcases mem_update hy with ⟨rfl, hy'⟩ | ⟨_, hy'⟩
      · rcases List.mem_append.mp hy' with hy' | hy'
        · exact h.apart q q' x hx' y hy' hkey
        · have hge := (hnew y hy').1
          have hlt := h.opened_lt q x hx'
          omega
      · exact h.apart q q' x hx' y hy' hkey

theorem serial_step [DecidableEq π] {s s' : State π α} (h : Serial key s) (hs : Step key s s') :
    Serial key s' := by
  cases hs with
  | insert p rows hrows => exact serial_insert h p hrows
  | commit p =>
    refine serial_close h p (fun x hx => ?_) (h.nodup p) (fun q hq => h.nodup_append hq)
    rcases List.mem_append.mp hx with hx | hx
    · exact h.committed_lt x hx
    · exact h.opened_lt p x hx
  | rollback p =>
    exact serial_close h p h.committed_lt (h.nodup_committed p) (fun q _ => h.nodup q)
  | allot n =>
    exact ⟨fun x hx => Nat.lt_add_right _ (h.committed_lt x hx),
      fun p x hx => Nat.lt_add_right _ (h.opened_lt p x hx), h.nodup, h.apart⟩

/-- A client that reads the log page by page, and the number it has come to. -/
structure Reader (α : Type) where
  cursor : Option Nat
  returned : List α

/-- An entry behind the cursor of a reader. -/
def ahead (key : α → Nat) (cursor : Option Nat) (x : α) : Bool :=
  cursor.all (fun c => c < key x)

/-- The selected entries behind the cursor in the order of their numbers. -/
def fetch (key : α → Nat) (selects : α → Bool) (log : List α) (cursor : Option Nat) : List α :=
  (log.filter (fun x => selects x && ahead key cursor x)).insertionSort (fun x y => key x ≤ key y)

namespace Reader

/-- Takes a page and goes on from its last entry. -/
def receive (key : α → Nat) (r : Reader α) (items : List α) : Reader α :=
  ⟨(items.getLast?.map key).or r.cursor, r.returned ++ items⟩

/-- Every selected entry of the log has been returned or is still to come. -/
def Complete (key : α → Nat) (selects : α → Bool) (r : Reader α) (log : List α) : Prop :=
  ∀ x ∈ log, selects x → ahead key r.cursor x ∨ x ∈ r.returned

/-- A selected entry that the reader has passed without receiving it. -/
structure Missed (key : α → Nat) (selects : α → Bool) (r : Reader α) (log : List α) (x : α) :
    Prop where
  logged : x ∈ log
  selected : selects x
  passed : ahead key r.cursor x = false
  unread : x ∉ r.returned

end Reader

theorem mem_fetch {log : List α} {cursor : Option Nat} {x : α} :
    x ∈ fetch key selects log cursor ↔ x ∈ log ∧ selects x ∧ ahead key cursor x := by
  simp [fetch]

theorem fetch_increasing {log : List α} (h : (log.map key).Nodup) (cursor : Option Nat) :
    Keyset.Increasing key (fetch key selects log cursor) := by
  have hsorted : (fetch key selects log cursor).Pairwise (fun x y => key x ≤ key y) := by
    have htotal : Std.Total (fun x y : α => key x ≤ key y) := ⟨fun _ _ => Nat.le_total _ _⟩
    have htrans : IsTrans α (fun x y => key x ≤ key y) := ⟨fun _ _ _ => Nat.le_trans⟩
    exact List.pairwise_insertionSort _ _
  have hnodup : ((fetch key selects log cursor).map key).Nodup := by
    have hperm := List.perm_insertionSort (fun x y => key x ≤ key y)
      (log.filter (fun x => selects x && ahead key cursor x))
    refine (hperm.map key).nodup_iff.mpr ?_
    exact h.sublist (List.filter_sublist.map key)
  have hne : (fetch key selects log cursor).Pairwise (fun x y => key x ≠ key y) :=
    List.pairwise_map.mp hnodup
  exact (hsorted.and hne).imp (fun hboth => Nat.lt_of_le_of_ne hboth.1 hboth.2)

/-- Strictly increasing lists of the same entries are the same list. -/
theorem eq_of_increasing {xs ys : List α} (hx : Keyset.Increasing key xs)
    (hy : Keyset.Increasing key ys) (hmem : ∀ x, x ∈ xs ↔ x ∈ ys) : xs = ys := by
  have hirrefl : Std.Irrefl (fun x y : α => key x < key y) := ⟨fun _ => Nat.lt_irrefl _⟩
  have hantisymm : Std.Antisymm (fun x y : α => key x < key y) :=
    ⟨fun _ _ hlt hgt => absurd hgt (Nat.lt_asymm hlt)⟩
  exact List.Pairwise.eq_of_mem_iff hx hy hmem

/-- Behind the last of the first entries a fetch finds the others. -/
theorem fetch_behind {log xs ys : List α} (h : (log.map key).Nodup)
    (hsplit : fetch key selects log none = xs ++ ys) {last : α} (hl : xs.getLast? = some last) :
    fetch key selects log (some (key last)) = ys := by
  have hincreasing : Keyset.Increasing key (fetch key selects log none) := fetch_increasing h none
  rw [hsplit] at hincreasing
  refine eq_of_increasing (fetch_increasing h _) (List.pairwise_append.mp hincreasing).2.1 ?_
  intro x
  rw [← Keyset.filter_after hincreasing hl, ← hsplit, List.mem_filter, mem_fetch, mem_fetch]
  simp [ahead, and_assoc]

section Reading

variable {r : Reader α} {log : List α}

/-- A page moves the cursor over its own entries only. -/
theorem complete_receive (hlog : (log.map key).Nodup) (h : r.Complete key selects log)
    (limit : Nat) :
    (r.receive key ((fetch key selects log r.cursor).take limit)).Complete key selects log := by
  intro x hx hselects
  have hsplit := List.take_append_drop limit (fetch key selects log r.cursor)
  have hincreasing : Keyset.Increasing key (fetch key selects log r.cursor) :=
    fetch_increasing hlog r.cursor
  rw [← hsplit] at hincreasing
  rcases h x hx hselects with hahead | hreturned
  · have hmem : x ∈ fetch key selects log r.cursor := mem_fetch.mpr ⟨hx, hselects, hahead⟩
    rw [← hsplit] at hmem
    rcases List.mem_append.mp hmem with hitem | hrest
    · exact Or.inr (List.mem_append_right _ hitem)
    · cases hlast : ((fetch key selects log r.cursor).take limit).getLast? with
      | none =>
        refine Or.inl ?_
        rw [Reader.receive, hlast]
        exact hahead
      | some last =>
        have hlt :=
          (List.pairwise_append.mp hincreasing).2.2 last (List.mem_of_getLast? hlast) x hrest
        refine Or.inl ?_
        rw [Reader.receive, hlast]
        simpa [ahead] using hlt
  · exact Or.inr (List.mem_append_left _ hreturned)

/-- A missed entry stays missed. -/
theorem missed_receive {x : α} (h : r.Missed key selects log x) (limit : Nat) :
    (r.receive key ((fetch key selects log r.cursor).take limit)).Missed key selects log x := by
  have hitems : ∀ y ∈ (fetch key selects log r.cursor).take limit, ahead key r.cursor y :=
    fun y hy => (mem_fetch.mp (List.mem_of_mem_take hy)).2.2
  refine ⟨h.logged, h.selected, ?_, ?_⟩
  · cases hlast : ((fetch key selects log r.cursor).take limit).getLast? with
    | none =>
      rw [Reader.receive, hlast]
      exact h.passed
    | some last =>
      have hlater := hitems last (List.mem_of_getLast? hlast)
      have hpassed := h.passed
      rw [Reader.receive, hlast]
      cases hcursor : r.cursor with
      | none => simp [ahead, hcursor] at hpassed
      | some c =>
        simp only [ahead, hcursor, Option.all_some, decide_eq_true_eq, decide_eq_false_iff_not]
          at hlater hpassed
        simp [ahead]
        omega
  · intro hmem
    rcases List.mem_append.mp hmem with hreturned | hitem
    · exact h.unread hreturned
    · have hahead := hitems x hitem
      rw [h.passed] at hahead
      cases hahead

theorem missed_append {x : α} (h : r.Missed key selects log x) (rows : List α) :
    r.Missed key selects (log ++ rows) x :=
  ⟨List.mem_append_left _ h.logged, h.selected, h.passed, h.unread⟩

theorem complete_append (h : r.Complete key selects log) {rows : List α}
    (hrows : ∀ x ∈ rows, selects x → ahead key r.cursor x) :
    r.Complete key selects (log ++ rows) := by
  intro x hx hselects
  rcases List.mem_append.mp hx with hx | hx
  · exact h x hx hselects
  · exact Or.inl (hrows x hx hselects)

/-- A page that takes all there is completes the walk. -/
theorem complete_last (h : r.Complete key selects log) {limit : Nat}
    (hall : (fetch key selects log r.cursor).length ≤ limit) :
    ∀ x ∈ log, selects x → x ∈ r.returned ++ (fetch key selects log r.cursor).take limit := by
  intro x hx hselects
  rw [List.take_of_length_le hall, List.mem_append]
  rcases h x hx hselects with hahead | hreturned
  · exact Or.inr (mem_fetch.mpr ⟨hx, hselects, hahead⟩)
  · exact Or.inl hreturned

end Reading

end SerialLog
