import BulkActions.Statements

namespace BulkActions

open ReadCommitted

@[simp] theorem write_committed (w : World) (p : Pid) (v : Write) :
    (w.write p v).db.committed = w.db.committed := rfl

@[simp] theorem write_writes_self (w : World) (p : Pid) (v : Write) :
    (w.write p v).db.writes p = w.db.writes p ++ [v] :=
  Store.write_writes_self

theorem write_writes_ne (w : World) {p q : Pid} (v : Write) (hq : q ≠ p) :
    (w.write p v).db.writes q = w.db.writes q :=
  Store.write_writes_ne hq

/-- Inserting batch rows one after the other. -/
def World.insertAll (w : World) (p : Pid) (rows : List BulkActionBatch) : World :=
  rows.foldl (fun w row => w.write p (.insertBatch row)) w

/-- What no write changes is left by inserting batch rows. -/
theorem insertAll_proj {α : Type} {f : World → α} {p : Pid} (hf : ∀ w v, f (w.write p v) = f w)
    (w : World) (rows : List BulkActionBatch) : f (w.insertAll p rows) = f w := by
  induction rows generalizing w with
  | nil => rfl
  | cons row rows ih => exact (ih (w.write p (.insertBatch row))).trans (hf w _)

theorem insertAll_committed (w : World) (p : Pid) (rows : List BulkActionBatch) :
    (w.insertAll p rows).db.committed = w.db.committed :=
  insertAll_proj (f := fun w => w.db.committed) (fun _ _ => rfl) w rows

theorem insertAll_writes_self (w : World) (p : Pid) (rows : List BulkActionBatch) :
    (w.insertAll p rows).db.writes p = w.db.writes p ++ rows.map .insertBatch := by
  induction rows generalizing w with
  | nil => simp [World.insertAll]
  | cons row rows ih =>
    have h := ih (w.write p (.insertBatch row))
    simpa [World.insertAll, World.write] using h

theorem insertAll_writes_ne (w : World) {p q : Pid} (rows : List BulkActionBatch) (hq : q ≠ p) :
    (w.insertAll p rows).db.writes q = w.db.writes q := by
  induction rows generalizing w with
  | nil => rfl
  | cons row rows ih =>
    exact (ih (w.write p (.insertBatch row))).trans (write_writes_ne w _ hq)

/-- Writing a row of one's own keeps every row that was free for the transaction free. -/
theorem free_write {w : World} {p : Pid} {v : Write} {r : RowId} (h : w.db.free p r) :
    (w.write p v).db.free p r := by
  have hlock : (w.write p v).db.lock r = w.db.lock r ∨
      (w.write p v).db.lock r = some p := by
    simp only [World.write, Store.write]
    cases v.row with
    | none => exact Or.inl rfl
    | some r' =>
      by_cases he : r = r'
      · subst he
        exact Or.inr (by simp)
      · exact Or.inl (by simp [he])
  rcases hlock with hl | hl
  · simpa [Store.free, hl] using h
  · simp [Store.free, hl]

theorem insertAll_guarded {w : World} {p : Pid} {rows : List BulkActionBatch}
    (hg : w.db.Guarded Write.row) (hf : ∀ row ∈ rows, w.db.free p (.batch row.batchIndex)) :
    (w.insertAll p rows).db.Guarded Write.row := by
  induction rows generalizing w with
  | nil => exact hg
  | cons row rows ih =>
    have hfree := hf row (by simp)
    apply ih (w := w.write p (.insertBatch row))
    · apply Store.guarded_write hg
      intro r hr
      cases hr
      exact hfree
    · exact fun x hx => free_write (hf x (by simp [hx]))

theorem insertAll_owned {w : World} (p : Pid) (rows : List BulkActionBatch)
    (ho : w.db.Owned Write.row) : (w.insertAll p rows).db.Owned Write.row := by
  induction rows generalizing w with
  | nil => exact ho
  | cons row rows ih => exact ih (w := w.write p (.insertBatch row)) (Store.owned_write ho)

section

variable {w w' : World} {p q : Pid} {now : Timestamp} {st : Stmt} {reply : Reply}

theorem exec_updateAction {u : ActionUpdate}
    (h : w.exec p now (.updateAction u) = some (w', reply)) :
    ((w.view p).action.filter u.applies = none ∧ w' = w ∧ reply.action = none) ∨
    (∃ a, (w.view p).action = some a ∧ u.applies a ∧ w.db.free p .action ∧
      w' = w.write p (.action u now) ∧ reply.action = some (u.set now a)) := by
  simp only [World.exec] at h
  split at h
  next hn =>
    cases Option.some.inj h
    exact Or.inl ⟨hn, rfl, rfl⟩
  next a ha =>
    split at h
    next hf =>
      cases Option.some.inj h
      obtain ⟨ha, happ⟩ := Option.filter_eq_some_iff.mp ha
      exact Or.inr ⟨a, ha, happ, hf, rfl, rfl⟩
    next => simp at h

theorem exec_updateBatch {index : Nat} {u : BatchUpdate}
    (h : w.exec p now (.updateBatch index u) = some (w', reply)) :
    (((w.view p).batches index).filter u.applies = none ∧ w' = w) ∨
    (∃ b, (w.view p).batches index = some b ∧ u.applies b ∧ w.db.free p (.batch index) ∧
      w' = w.write p (.batch index u now)) := by
  simp only [World.exec] at h
  split at h
  next hn =>
    cases Option.some.inj h
    exact Or.inl ⟨hn, rfl⟩
  next b hb =>
    split at h
    next hf =>
      cases Option.some.inj h
      obtain ⟨hb, happ⟩ := Option.filter_eq_some_iff.mp hb
      exact Or.inr ⟨b, hb, happ, hf, rfl⟩
    next => simp at h

theorem exec_insertBatches {rows : List BulkActionBatch}
    (h : w.exec p now (.insertBatches rows) = some (w', reply)) :
    ∃ fresh, fresh = rows.filter (fun row => ((w.view p).batches row.batchIndex).isNone) ∧
      (∀ row ∈ fresh, w.db.free p (.batch row.batchIndex)) ∧ w' = w.insertAll p fresh := by
  simp only [World.exec] at h
  split at h
  next hf =>
    cases Option.some.inj h
    exact ⟨_, rfl, List.all_eq_true.mp hf, rfl⟩
  next => simp at h

/-- A statement touches the write set of its own transaction only. -/
theorem exec_writes_ne (h : w.exec p now st = some (w', reply)) (hq : q ≠ p) :
    w'.db.writes q = w.db.writes q := by
  cases st with
  | updateAction u =>
    rcases exec_updateAction h with ⟨_, rfl, _⟩ | ⟨a, _, _, _, rfl, _⟩
    · rfl
    · exact write_writes_ne w _ hq
  | updateBatch i u =>
    rcases exec_updateBatch h with ⟨_, rfl⟩ | ⟨b, _, _, _, rfl⟩
    · rfl
    · exact write_writes_ne w _ hq
  | insertBatches rows =>
    obtain ⟨fresh, _, _, rfl⟩ := exec_insertBatches h
    exact insertAll_writes_ne w fresh hq
  | insertLogs i outcomes =>
    cases Option.some.inj h
    exact write_writes_ne w _ hq
  | commit =>
    cases Option.some.inj h
    exact Store.commit_writes_ne hq
  | _ => cases Option.some.inj h; rfl

theorem exec_guarded (hg : w.db.Guarded Write.row) (h : w.exec p now st = some (w', reply)) :
    w'.db.Guarded Write.row := by
  cases st with
  | updateAction u =>
    rcases exec_updateAction h with ⟨_, rfl, _⟩ | ⟨a, _, _, hf, rfl, _⟩
    · exact hg
    · exact Store.guarded_write hg (fun r hr => by cases hr; exact hf)
  | updateBatch i u =>
    rcases exec_updateBatch h with ⟨_, rfl⟩ | ⟨b, _, _, hf, rfl⟩
    · exact hg
    · exact Store.guarded_write hg (fun r hr => by cases hr; exact hf)
  | insertBatches rows =>
    obtain ⟨fresh, _, hf, rfl⟩ := exec_insertBatches h
    exact insertAll_guarded hg hf
  | insertLogs i outcomes =>
    cases Option.some.inj h
    exact Store.guarded_write hg (fun r hr => by cases hr)
  | commit =>
    cases Option.some.inj h
    exact Store.guarded_commit hg
  | _ => cases Option.some.inj h; exact hg

theorem exec_owned (ho : w.db.Owned Write.row) (h : w.exec p now st = some (w', reply)) :
    w'.db.Owned Write.row := by
  cases st with
  | updateAction u =>
    rcases exec_updateAction h with ⟨_, rfl, _⟩ | ⟨a, _, _, _, rfl, _⟩
    · exact ho
    · exact Store.owned_write ho
  | updateBatch i u =>
    rcases exec_updateBatch h with ⟨_, rfl⟩ | ⟨b, _, _, _, rfl⟩
    · exact ho
    · exact Store.owned_write ho
  | insertBatches rows =>
    obtain ⟨fresh, _, _, rfl⟩ := exec_insertBatches h
    exact insertAll_owned p fresh ho
  | insertLogs i outcomes =>
    cases Option.some.inj h
    exact Store.owned_write ho
  | commit =>
    cases Option.some.inj h
    exact Store.owned_commit ho
  | _ => cases Option.some.inj h; exact ho

/-- Only a commit changes what other transactions see. -/
theorem exec_committed (h : w.exec p now st = some (w', reply)) :
    (w'.committed = w.committed ∧ st ≠ .commit) ∨
    (st = .commit ∧ w'.committed = replay Write.apply (w.db.writes p) w.committed) := by
  cases st with
  | updateAction u =>
    rcases exec_updateAction h with ⟨_, rfl, _⟩ | ⟨a, _, _, _, rfl, _⟩ <;>
      exact Or.inl ⟨rfl, by simp⟩
  | updateBatch i u =>
    rcases exec_updateBatch h with ⟨_, rfl⟩ | ⟨b, _, _, _, rfl⟩ <;> exact Or.inl ⟨rfl, by simp⟩
  | insertBatches rows =>
    obtain ⟨fresh, _, _, rfl⟩ := exec_insertBatches h
    exact Or.inl ⟨insertAll_committed w p fresh, by simp⟩
  | commit =>
    cases Option.some.inj h
    exact Or.inr ⟨rfl, rfl⟩
  | _ => cases Option.some.inj h; exact Or.inl ⟨rfl, by simp⟩

end

/-- A statement waits for nothing but a row lock. -/
theorem exec_isSome {w : World} {p : Pid} {now : Timestamp} {st : Stmt}
    (action : ∀ u, st = .updateAction u → w.db.free p .action)
    (batch : ∀ i u, st = .updateBatch i u → w.db.free p (.batch i))
    (insert : ∀ rows, st ≠ .insertBatches rows) : (w.exec p now st).isSome := by
  cases st with
  | updateAction u =>
    simp only [World.exec]
    split
    · rfl
    · rw [if_pos (action u rfl)]
      rfl
  | updateBatch i u =>
    simp only [World.exec]
    split
    · rfl
    · rw [if_pos (batch i u rfl)]
      rfl
  | insertBatches rows => exact absurd rfl (insert rows)
  | _ => rfl

theorem apply_action_isSome (v : Write) (c : Tables) :
    (v.apply c).action.isSome = c.action.isSome := by
  cases v <;> simp [Write.apply]

theorem replay_action_isSome (ws : List Write) (c : Tables) :
    (replay Write.apply ws c).action.isSome = c.action.isSome :=
  replay_proj (f := fun c : Tables => c.action.isSome) (fun v _ c => apply_action_isSome v c) c

theorem apply_batch_isSome (v : Write) {c : Tables} {i : Nat} (h : (c.batches i).isSome) :
    ((v.apply c).batches i).isSome := by
  cases v with
  | batch j u now =>
    by_cases hj : i = j
    · subst hj
      simpa [Write.apply] using h
    · simpa [Write.apply, hj] using h
  | insertBatch row =>
    by_cases hj : i = row.batchIndex
    · subst hj
      simp [Write.apply]
    · simpa [Write.apply, hj] using h
  | action u now => exact h
  | logs rows => exact h

/-- A batch row is never removed. -/
theorem replay_batch_isSome (ws : List Write) {c : Tables} {i : Nat} (h : (c.batches i).isSome) :
    ((replay Write.apply ws c).batches i).isSome := by
  induction ws generalizing c with
  | nil => exact h
  | cons v ws ih => exact ih (apply_batch_isSome v h)

theorem apply_action_of_row {v : Write} (c : Tables) (h : v.row ≠ some .action) :
    (v.apply c).action = c.action := by
  cases v <;> simp_all [Write.apply, Write.row]

theorem apply_batch_of_row {v : Write} (c : Tables) {i : Nat} (h : v.row ≠ some (.batch i)) :
    (v.apply c).batches i = c.batches i := by
  cases v with
  | batch j u now =>
    have hj : i ≠ j := fun he => h (by simp [Write.row, he])
    simp [Write.apply, hj]
  | insertBatch row =>
    have hj : i ≠ row.batchIndex := fun he => h (by simp [Write.row, he])
    simp [Write.apply, hj]
  | action u now => rfl
  | logs rows => rfl

theorem replay_action_of_none {c : Tables} {ws : List Write}
    (h : ∀ v ∈ ws, v.row ≠ some .action) : (replay Write.apply ws c).action = c.action :=
  replay_proj (f := Tables.action) (fun v hv c => apply_action_of_row c (h v hv)) c

theorem replay_batch_of_none {c : Tables} {ws : List Write} {i : Nat}
    (h : ∀ v ∈ ws, v.row ≠ some (.batch i)) : (replay Write.apply ws c).batches i = c.batches i :=
  replay_proj (f := fun c : Tables => c.batches i) (fun v hv c => apply_batch_of_row c (h v hv)) c

section

variable {w w' : World} {p : Pid} {now : Timestamp} {st : Stmt} {reply : Reply}

/-- The database aside, a statement enqueues one job, publishes one message, or neither. -/
theorem exec_messages (h : w.exec p now st = some (w', reply)) :
    (w'.queue = w.queue ∧ w'.published = w.published) ∨
      (∃ job, st = .enqueue job ∧ w'.queue = w.queue ++ [job] ∧ w'.published = w.published) ∨
      ∃ payload, st = .publish payload ∧ w'.queue = w.queue ∧
        w'.published = w.published ++ [payload] := by
  cases st with
  | enqueue job =>
    cases Option.some.inj h
    exact Or.inr (Or.inl ⟨job, rfl, rfl, rfl⟩)
  | publish payload =>
    cases Option.some.inj h
    exact Or.inr (Or.inr ⟨payload, rfl, rfl, rfl⟩)
  | updateAction u =>
    rcases exec_updateAction h with ⟨_, rfl, _⟩ | ⟨a, _, _, _, rfl, _⟩ <;> exact Or.inl ⟨rfl, rfl⟩
  | updateBatch i u =>
    rcases exec_updateBatch h with ⟨_, rfl⟩ | ⟨b, _, _, _, rfl⟩ <;> exact Or.inl ⟨rfl, rfl⟩
  | insertBatches rows =>
    obtain ⟨fresh, _, _, rfl⟩ := exec_insertBatches h
    exact Or.inl ⟨insertAll_proj (f := World.queue) (fun _ _ => rfl) w fresh,
      insertAll_proj (f := World.published) (fun _ _ => rfl) w fresh⟩
  | _ => cases Option.some.inj h; exact Or.inl ⟨rfl, rfl⟩

theorem exec_queue (h : w.exec p now st = some (w', reply)) :
    w'.queue = w.queue ∨ ∃ job, st = .enqueue job ∧ w'.queue = w.queue ++ [job] := by
  rcases exec_messages h with ⟨hq, _⟩ | ⟨job, hst, hq, _⟩ | ⟨_, _, hq, _⟩
  · exact Or.inl hq
  · exact Or.inr ⟨job, hst, hq⟩
  · exact Or.inl hq

theorem exec_published (h : w.exec p now st = some (w', reply)) :
    w'.published = w.published ∨
      ∃ payload, st = .publish payload ∧ w'.published = w.published ++ [payload] := by
  rcases exec_messages h with ⟨_, hw⟩ | ⟨_, _, _, hw⟩ | ⟨payload, hst, _, hw⟩
  · exact Or.inl hw
  · exact Or.inl hw
  · exact Or.inr ⟨payload, hst, hw⟩

theorem exec_queue_mem (h : w.exec p now st = some (w', reply)) {job : Job}
    (hj : job ∈ w.queue) : job ∈ w'.queue := by
  rcases exec_queue h with hq | ⟨_, _, hq⟩ <;> simp [hq, hj]

end

end BulkActions
