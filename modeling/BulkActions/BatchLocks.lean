import BulkActions.EntityOutcomes
import BulkActions.DedupLedger
import BulkActions.LockOrder
import Mathlib.Data.String.Basic

namespace BulkActions

open ReadCommitted

/-- A row that the transaction of a batch locks: a key in `bulk_action_dedup`, an entity, the
row of its batch, the row of the action. -/
inductive LockRow where
  | key (key : String)
  | entity (id : Uuid)
  | batch (index : Nat)
  | action
  deriving DecidableEq

/-- The statement at which `run_batch` stands, with the rows it has still to lock. -/
inductive LockPc where
  | insertKeys (todo claimed : List String)
  | writeEntities (todo : List Uuid)
  | updateBatch
  | recordCompletion
  | recorded

/-- An open transaction of a batch, with the rows it has loaded. -/
structure BatchTx where
  index : Nat
  rows : List EntityRow
  pc : LockPc

/-- The row that the transaction locks next. -/
def BatchTx.next (tx : BatchTx) : Option LockRow :=
  match tx.pc with
  | .insertKeys (key :: _) _ => some (.key key)
  | .writeEntities (id :: _) => some (.entity id)
  | .updateBatch => some (.batch tx.index)
  | .recordCompletion => some .action
  | _ => none

/-- The transactions belong to two batches, which have no entity in common. -/
def BatchTx.Apart (tx tx' : BatchTx) : Prop :=
  tx.index ≠ tx'.index ∧ ∀ row ∈ tx.rows, ∀ row' ∈ tx'.rows, row.id ≠ row'.id

/-- Of the contents only the keys in the ledger are kept. -/
def LockRow.apply : LockRow → (String → Bool) → String → Bool
  | .key k, keys => insertKey k keys
  | _, keys => keys

/-- The transactions of the batches of one action. -/
structure LockSys where
  db : Store AttemptId LockRow LockRow (String → Bool)
  txs : AttemptId → Option BatchTx

/-- `run p ids` is the next step of a statement of `p`; `ids` are the entities that the
statement of `handler.execute` hits, in the order in which it comes to them. -/
inductive LockLabel where
  | load (p : AttemptId) (index : Nat) (rows : List EntityRow)
  | run (p : AttemptId) (ids : List Uuid)
  | commit (p : AttemptId)
  | rollback (p : AttemptId)

namespace LockSys

def wants (s : LockSys) (p : AttemptId) : Option LockRow :=
  (s.txs p).bind BatchTx.next

def set (s : LockSys) (db : Store AttemptId LockRow LockRow (String → Bool)) (p : AttemptId)
    (tx : Option BatchTx) : LockSys where
  db := db
  txs := Function.update s.txs p tx

/-- The row is locked for `p`, which waits as long as a rival holds it. -/
def lock (s : LockSys) (p : AttemptId) (r : LockRow) (tx : BatchTx) : Option LockSys :=
  if s.db.free p r then some (s.set (s.db.write some p r) p (some tx)) else none

/-- `ON CONFLICT DO NOTHING`: a key that is in the ledger is passed by. -/
def lockKey (s : LockSys) (p : AttemptId) (key : String) (todo claimed : List String)
    (tx : BatchTx) : Option LockSys :=
  if s.db.free p (.key key) && s.db.view LockRow.apply p key then
    some (s.set s.db p (some { tx with pc := .insertKeys todo claimed }))
  else s.lock p (.key key) { tx with pc := .insertKeys todo (claimed ++ [key]) }

def step (text : PyText) (config : Config) (s : LockSys) : LockLabel → Option LockSys
  | .load p index rows =>
    match s.txs p with
    | none => some (s.set s.db p (some ⟨index, rows, .insertKeys (ledgerKeys text config rows) []⟩))
    | some _ => none
  | .run p ids =>
    match s.txs p with
    | none => none
    | some tx =>
      match tx.pc with
      | .insertKeys (key :: todo) claimed => s.lockKey p key todo claimed tx
      | .insertKeys [] claimed =>
        if ids ⊆ config.targets (executedRows text config tx.rows claimed) then
          some (s.set s.db p (some { tx with pc := .writeEntities ids }))
        else none
      | .writeEntities (id :: todo) => s.lock p (.entity id) { tx with pc := .writeEntities todo }
      | .writeEntities [] => some (s.set s.db p (some { tx with pc := .updateBatch }))
      | .updateBatch => s.lock p (.batch tx.index) { tx with pc := .recordCompletion }
      | .recordCompletion => s.lock p .action { tx with pc := .recorded }
      | .recorded => none
  | .commit p =>
    match s.txs p with
    | some ⟨_, _, .recorded⟩ => some (s.set (s.db.commit LockRow.apply p) p none)
    | _ => none
  | .rollback p =>
    match s.txs p with
    | some _ => some (s.set (s.db.rollback p) p none)
    | none => none

/-- A batch is loaded whose entities and whose row no open transaction of an other batch
has. -/
def Disjoint (s : LockSys) : LockLabel → Prop
  | .load _ index rows => ∀ q tx, s.txs q = some tx → BatchTx.Apart ⟨index, rows, .recorded⟩ tx
  | _ => True

def Reaches (text : PyText) (config : Config) : LockSys → LockSys → Prop :=
  Runs.Reaches (step text config) Disjoint

/-- No transaction is open. -/
def start (ledger : String → Bool) : LockSys where
  db := ⟨ledger, fun _ => [], fun _ => none⟩
  txs _ := none

/-- `p` waits for a lock that `q` holds. -/
def WaitsFor (s : LockSys) : AttemptId → AttemptId → Prop :=
  s.db.WaitsFor s.wants

end LockSys

/-- An entity or a batch row that belongs to the batch; keys and the action are shared. -/
def BatchTx.Mine (tx : BatchTx) : LockRow → Prop
  | .entity id => ∃ row ∈ tx.rows, row.id = id
  | .batch index => index = tx.index
  | _ => True

/-- What a transaction has locked so far: of the keys those before the ones to come, of the
entities and batches its own, the action at the very end. -/
structure BatchTx.Holds (tx : BatchTx) (held : List LockRow) : Prop where
  mine : ∀ r ∈ held, tx.Mine r
  action : .action ∈ held → tx.pc = .recorded
  keys : ∀ todo claimed, tx.pc = .insertKeys todo claimed →
    todo.Pairwise (· < ·) ∧ ∀ key, .key key ∈ held → ∀ k ∈ todo, key < k
  entities : ∀ ids, tx.pc = .writeEntities ids → ∀ id ∈ ids, ∃ row ∈ tx.rows, row.id = id

structure LockSys.Safe (s : LockSys) : Prop where
  owned : s.db.Owned some
  holds : ∀ p tx, s.txs p = some tx → tx.Holds (s.db.writes p)
  closed : ∀ p, s.txs p = none → s.db.writes p = []
  apart : ∀ p q tx tx', p ≠ q → s.txs p = some tx → s.txs q = some tx' → tx.Apart tx'

/-- The order in which the contended rows are locked. -/
def LockRow.before : LockRow → LockRow → Prop
  | .key k, .key k' => k < k'
  | .key _, .action => True
  | _, _ => False

instance : IsTrans LockRow LockRow.before where
  trans a b c hab hbc := by
    cases a <;> cases b <;> cases c <;> simp only [LockRow.before] at *
    exact lt_trans hab hbc

instance : Std.Irrefl LockRow.before where
  irrefl a := by
    cases a <;> simp [LockRow.before]

/-- The sorted INSERT names each key once. -/
theorem ledgerKeys_sorted (text : PyText) (config : Config) (rows : List EntityRow) :
    (ledgerKeys text config rows).Pairwise (· < ·) := by
  unfold ledgerKeys
  split
  next field _ =>
    have hnames : (keyedRows text field rows).map Prod.fst = keysOf text field rows := by
      simp [keyedRows_eq, Function.comp_def]
    have hnodup : (insertKeys text field rows).Nodup := by
      rw [insertKeys, hnames]
      exact (List.mergeSort_perm _ _).nodup_iff.mpr (nodup_keysOf text field rows)
    have hle : (insertKeys text field rows).Pairwise (fun a b => decide (a ≤ b)) :=
      List.pairwise_mergeSort (by simpa using fun a b c => le_trans)
        (by simpa using fun a b => le_total a b) _
    refine (hle.and hnodup).imp ?_
    rintro a b ⟨hab, hne⟩
    exact lt_of_le_of_ne (of_decide_eq_true hab) hne
  next => exact List.Pairwise.nil

theorem BatchTx.Apart.symm {tx tx' : BatchTx} (h : tx.Apart tx') : tx'.Apart tx :=
  ⟨h.1.symm, fun row hrow row' hrow' => (h.2 row' hrow' row hrow).symm⟩

/-- Only keys and the action are contended. -/
theorem BatchTx.Apart.shared {tx tx' : BatchTx} (h : tx.Apart tx') {r : LockRow} (hr : tx.Mine r)
    (hr' : tx'.Mine r) : (∃ key, r = .key key) ∨ r = .action := by
  cases r with
  | key key => exact Or.inl ⟨key, rfl⟩
  | action => exact Or.inr rfl
  | batch index => exact absurd (hr.symm.trans hr') h.1
  | entity id =>
    obtain ⟨row, hrow, hid⟩ := hr
    obtain ⟨row', hrow', hid'⟩ := hr'
    exact absurd (hid.trans hid'.symm) (h.2 row hrow row' hrow')

section Steps

variable {text : PyText} {config : Config} {s s' : LockSys} {p : AttemptId} {tx : BatchTx}
  {held : List LockRow} {r : LockRow}

theorem mine_of_next (h : tx.Holds held) (hnext : tx.next = some r) : tx.Mine r := by
  unfold BatchTx.next at hnext
  split at hnext
  next => cases Option.some.inj hnext; trivial
  next id todo hpc =>
    cases Option.some.inj hnext
    exact h.entities _ hpc id List.mem_cons_self
  next => cases Option.some.inj hnext; rfl
  next => cases Option.some.inj hnext; trivial
  next => cases hnext

theorem BatchTx.Holds.action_free (h : tx.Holds held) (hpc : tx.pc ≠ .recorded) :
    .action ∉ held :=
  fun hr => hpc (h.action hr)

theorem BatchTx.Holds.mine_concat (h : tx.Holds held) (hr : tx.Mine r) :
    ∀ r' ∈ held ++ [r], tx.Mine r' := by
  intro r' hr'
  rcases List.mem_append.mp hr' with hr' | hr'
  · exact h.mine r' hr'
  · rwa [List.mem_singleton.mp hr']

theorem pc_of_next_key {key : String} (h : tx.next = some (.key key)) :
    ∃ todo claimed, tx.pc = .insertKeys (key :: todo) claimed := by
  unfold BatchTx.next at h
  split at h
  next key' todo claimed hpc =>
    obtain ⟨⟩ := Option.some.inj h
    exact ⟨todo, claimed, hpc⟩
  all_goals cases h

theorem set_txs (s : LockSys) (db : Store AttemptId LockRow LockRow (String → Bool))
    (p q : AttemptId) (tx : Option BatchTx) :
    (s.set db p tx).txs q = if q = p then tx else s.txs q := by
  simp only [LockSys.set, Function.update_apply]

theorem locks_set (h : s.Safe) {db : Store AttemptId LockRow LockRow (String → Bool)}
    {tx : Option BatchTx} (howned : db.Owned some)
    (hwrites : ∀ q, q ≠ p → db.writes q = s.db.writes q)
    (hholds : ∀ t, tx = some t → t.Holds (db.writes p)) (hclosed : tx = none → db.writes p = [])
    (hapart : ∀ t, tx = some t → ∀ q t', q ≠ p → s.txs q = some t' → t.Apart t') :
    (s.set db p tx).Safe := by
  refine ⟨howned, ?_, ?_, ?_⟩
  · intro q t hq
    rw [set_txs] at hq
    split_ifs at hq with he
    · subst he
      exact hholds t hq
    · have hold := h.holds q t hq
      rwa [← hwrites q he] at hold
  · intro q hq
    rw [set_txs] at hq
    split_ifs at hq with he
    · subst he
      exact hclosed hq
    · exact (hwrites q he).trans (h.closed q hq)
  · intro q q' t t' hne hq hq'
    rw [set_txs] at hq hq'
    split_ifs at hq hq' with he he' he'
    · exact absurd (he.trans he'.symm) hne
    · exact hapart t hq q' t' he' hq'
    · exact (hapart t' hq' q t he hq).symm
    · exact h.apart q q' t t' hne hq hq'

/-- The transaction goes on to `pc` and locks nothing. -/
theorem locks_move (h : s.Safe) (hp : s.txs p = some tx) {pc : LockPc}
    (hholds : BatchTx.Holds { tx with pc := pc } (s.db.writes p)) :
    (s.set s.db p (some { tx with pc := pc })).Safe := by
  refine locks_set h h.owned (fun _ _ => rfl) ?_ (by simp) ?_
  · rintro t ⟨⟩
    exact hholds
  · rintro t ⟨⟩ q t' hne hq
    exact h.apart p q tx t' hne.symm hp hq

theorem locks_lock (h : s.Safe) (hp : s.txs p = some tx) {pc : LockPc}
    (hs : s.lock p r { tx with pc := pc } = some s')
    (hholds : BatchTx.Holds { tx with pc := pc } (s.db.writes p ++ [r])) : s'.Safe := by
  unfold LockSys.lock at hs
  split_ifs at hs
  cases Option.some.inj hs
  refine locks_set h (Store.owned_write h.owned) (fun q hq => Store.write_writes_ne hq) ?_
    (by simp) ?_
  · rintro t ⟨⟩
    rwa [Store.write_writes_self]
  · rintro t ⟨⟩ q t' hne hq
    exact h.apart p q tx t' hne.symm hp hq

theorem locks_insertKey (h : s.Safe) {key : String} {todo claimed : List String}
    (hp : s.txs p = some tx) (hpc : tx.pc = .insertKeys (key :: todo) claimed)
    (hs : s.lockKey p key todo claimed tx = some s') : s'.Safe := by
  have hold := h.holds p tx hp
  obtain ⟨hsorted, hbefore⟩ := hold.keys _ _ hpc
  obtain ⟨hkey, htodo⟩ := List.pairwise_cons.mp hsorted
  have haction := hold.action_free (by simp [hpc])
  unfold LockSys.lockKey at hs
  split_ifs at hs
  · cases Option.some.inj hs
    refine locks_move h hp ⟨hold.mine, fun hr => absurd hr haction, ?_, by simp⟩
    rintro _ _ ⟨⟩
    exact ⟨htodo, fun k hk k' hk' => hbefore k hk k' (List.mem_cons_of_mem key hk')⟩
  · refine locks_lock h hp hs ⟨hold.mine_concat trivial, ?_, ?_, by simp⟩
    · intro hr
      exact absurd hr (by simp [haction])
    · rintro _ _ ⟨⟩
      refine ⟨htodo, fun k hk k' hk' => ?_⟩
      rcases List.mem_append.mp hk with hk | hk
      · exact hbefore k hk k' (List.mem_cons_of_mem key hk')
      · obtain ⟨⟩ := List.mem_singleton.mp hk
        exact hkey k' hk'

theorem locks_run (h : s.Safe) {ids : List Uuid}
    (hs : s.step text config (.run p ids) = some s') : s'.Safe := by
  simp only [LockSys.step] at hs
  split at hs
  next => cases hs
  next tx hp =>
    have hold := h.holds p tx hp
    split at hs
    next key todo claimed hpc => exact locks_insertKey h hp hpc hs
    next claimed hpc =>
      split_ifs at hs with hids
      cases Option.some.inj hs
      have haction := hold.action_free (by simp [hpc])
      refine locks_move h hp ⟨hold.mine, fun hr => absurd hr haction, by simp, ?_⟩
      rintro _ ⟨⟩ id hid
      obtain ⟨row, hrow, hid⟩ := mem_of_mem_targets (hids hid)
      exact ⟨row, mem_of_mem_executedRows hrow, hid⟩
    next id todo hpc =>
      have haction := hold.action_free (by simp [hpc])
      have hmine := hold.mine_concat (r := .entity id)
        (hold.entities _ hpc id List.mem_cons_self)
      refine locks_lock h hp hs ⟨hmine, fun hr => absurd hr (by simp [haction]), by simp, ?_⟩
      rintro _ ⟨⟩ id' hid'
      exact hold.entities _ hpc id' (List.mem_cons_of_mem id hid')
    next hpc =>
      cases Option.some.inj hs
      have haction := hold.action_free (by simp [hpc])
      exact locks_move h hp ⟨hold.mine, fun hr => absurd hr haction, by simp, by simp⟩
    next hpc =>
      have haction := hold.action_free (by simp [hpc])
      exact locks_lock h hp hs ⟨hold.mine_concat rfl, fun hr => absurd hr (by simp [haction]),
        by simp, by simp⟩
    next hpc =>
      exact locks_lock h hp hs ⟨hold.mine_concat trivial, fun _ => rfl, by simp, by simp⟩
    next => cases hs

theorem locks_step (h : s.Safe) {l : LockLabel} (hl : s.Disjoint l)
    (hs : s.step text config l = some s') : s'.Safe := by
  cases l with
  | load p index rows =>
    simp only [LockSys.step] at hs
    split at hs
    next hp =>
      cases Option.some.inj hs
      refine locks_set h h.owned (fun _ _ => rfl) ?_ (by simp) ?_
      · rintro t ⟨⟩
        rw [h.closed p hp]
        refine ⟨by simp, by simp, ?_, by simp⟩
        rintro _ _ ⟨⟩
        exact ⟨ledgerKeys_sorted text config rows, by simp⟩
      · rintro t ⟨⟩ q t' _ hq
        exact hl q t' hq
    next => cases hs
  | run p ids => exact locks_run h hs
  | commit p =>
    simp only [LockSys.step] at hs
    split at hs
    next =>
      cases Option.some.inj hs
      exact locks_set h (Store.owned_commit h.owned) (fun _ hq => Store.commit_writes_ne hq)
        (by simp) (fun _ => Store.commit_writes_self) (by simp)
    next => cases hs
  | rollback p =>
    simp only [LockSys.step] at hs
    split at hs
    next =>
      cases Option.some.inj hs
      exact locks_set h (Store.owned_rollback h.owned) (fun _ hq => Store.rollback_writes_ne hq)
        (by simp) (fun _ => Store.rollback_writes_self) (by simp)
    next => cases hs

theorem locks_safe {ledger : String → Bool} (h : LockSys.Reaches text config (.start ledger) s) :
    s.Safe := by
  refine h.invariant (fun hs hl hstep => locks_step hs hl hstep) ?_
  refine ⟨?_, ?_, fun _ _ => rfl, ?_⟩
  · intro p r hr
    cases hr
  · intro p tx hp
    cases hp
  · intro p q tx tx' _ hp
    cases hp

theorem lock_eq_none : s.lock p r tx = none ↔ s.db.free p r = false := by
  unfold LockSys.lock
  split_ifs with hfree <;> simp [hfree]

theorem lockKey_eq_none {key : String} {todo claimed : List String} :
    s.lockKey p key todo claimed tx = none ↔ s.db.free p (.key key) = false := by
  unfold LockSys.lockKey
  split_ifs with hfree
  · simp [(Bool.and_eq_true_iff.mp hfree).1]
  · exact lock_eq_none

/-- A transaction that wants a row is held up just as long as it waits for a rival. -/
theorem run_held_up (hp : s.wants p = some r) (ids : List Uuid) :
    s.step text config (.run p ids) = none ↔ ∃ q, s.WaitsFor p q := by
  obtain ⟨tx, htx, hnext⟩ := Option.bind_eq_some_iff.mp hp
  have hwaits : (∃ q, s.WaitsFor p q) ↔ s.db.free p r = false := by
    simp only [LockSys.WaitsFor, Store.WaitsFor, hp, Option.some.injEq, exists_eq_left',
      Store.not_free_iff]
  rw [hwaits]
  unfold BatchTx.next at hnext
  split at hnext
  next hpc =>
    cases Option.some.inj hnext
    simp only [LockSys.step, htx, hpc, lockKey_eq_none]
  next hpc =>
    cases Option.some.inj hnext
    simp only [LockSys.step, htx, hpc, lock_eq_none]
  next hpc =>
    cases Option.some.inj hnext
    simp only [LockSys.step, htx, hpc, lock_eq_none]
  next hpc =>
    cases Option.some.inj hnext
    simp only [LockSys.step, htx, hpc, lock_eq_none]
  next => cases hnext

/-- A lock that is waited for is a key or the action, and it is held by an open transaction. -/
theorem contended (h : s.Safe) {q : AttemptId} (hp : s.wants p = some r)
    (hq : s.db.lock r = some q) (hne : q ≠ p) :
    ((∃ key, r = .key key) ∨ r = .action) ∧ r ∈ s.db.writes q ∧ ∃ tx, s.txs q = some tx := by
  obtain ⟨tx, htx, hnext⟩ := Option.bind_eq_some_iff.mp hp
  obtain ⟨_, hheld, hr⟩ := h.owned q r hq
  cases Option.some.inj hr
  cases htx' : s.txs q with
  | none =>
    rw [h.closed q htx'] at hheld
    cases hheld
  | some tx' =>
    have hmine := mine_of_next (h.holds p tx htx) hnext
    have hmine' := (h.holds q tx' htx').mine r hheld
    exact ⟨(h.apart p q tx tx' hne.symm htx htx').shared hmine hmine', hheld, tx', rfl⟩

theorem locks_in_order (h : s.Safe) : s.db.InOrder s.wants LockRow.before := by
  intro p q t r r' hp hq hqp hq' ht htq
  obtain ⟨hshared, hheld, tx, htx⟩ := contended h hp hq hqp
  obtain ⟨hshared', _⟩ := contended h hq' ht htq
  obtain ⟨tx', htx', hnext⟩ := Option.bind_eq_some_iff.mp hq'
  cases Option.some.inj (htx.symm.trans htx')
  have hold := h.holds q tx htx
  rcases hshared with ⟨key, rfl⟩ | rfl
  · rcases hshared' with ⟨key', rfl⟩ | rfl
    · obtain ⟨todo, claimed, hpc⟩ := pc_of_next_key hnext
      exact (hold.keys _ _ hpc).2 key hheld key' List.mem_cons_self
    · trivial
  · simp [BatchTx.next, hold.action hheld] at hnext

/-- Whatever keys the batches share, their transactions never wait for each other in a
circle. -/
theorem batches_never_deadlock {ledger : String → Bool}
    (h : LockSys.Reaches text config (.start ledger) s) (p : AttemptId) :
    ¬ Relation.TransGen s.WaitsFor p p :=
  Store.no_wait_cycle (locks_in_order (locks_safe h)) p

end Steps

theorem ledgerKeys_of_perm {d : DedupAction} {rows : List EntityRow} {keys : List String}
    (hkeys : ((keyedRows d.text d.field rows).map Prod.fst).Perm keys)
    (hsorted : keys.Pairwise (· < ·)) : ledgerKeys d.text d.config rows = keys := by
  have hperm : (ledgerKeys d.text d.config rows).Perm keys := by
    rw [ledgerKeys_eq, insertKeys]
    exact (List.mergeSort_perm _ _).trans hkeys
  exact hperm.eq_of_pairwise (fun a b _ _ hab hba => absurd hba (lt_asymm hab))
    (ledgerKeys_sorted d.text d.config rows) hsorted

/-- Two batches with the same two emails in opposite orders: the second one waits for the
first one, which has inserted both. -/
theorem batches_never_deadlock_crossed :
    ∃ s, LockSys.Reaches deleteByEmail.text deleteByEmail.config (.start fun _ => false) s ∧
      s.WaitsFor 1 0 ∧ ¬ Relation.TransGen s.WaitsFor 1 1 := by
  let first := [emailRow 1 (.str "bob@x"), emailRow 2 (.str "ada@x")]
  let second := [emailRow 3 (.str "ada@x"), emailRow 4 (.str "bob@x")]
  let tx (index : Nat) (rows : List EntityRow) (todo claimed : List String) : BatchTx :=
    ⟨index, rows, .insertKeys todo claimed⟩
  let keys := ["ada@x", "bob@x"]
  let s₀ : LockSys := .start fun _ => false
  let s₁ := s₀.set s₀.db 0 (some (tx 0 first keys []))
  let s₂ := s₁.set s₁.db 1 (some (tx 1 second keys []))
  let step := LockSys.step deleteByEmail.text deleteByEmail.config
  have hfirst : ledgerKeys deleteByEmail.text deleteByEmail.config first = keys :=
    ledgerKeys_of_perm (by decide) (by decide)
  have hsecond : ledgerKeys deleteByEmail.text deleteByEmail.config second = keys :=
    ledgerKeys_of_perm (by decide) (by decide)
  have h₁ : step s₀ (.load 0 0 first) = some s₁ := by
    simp only [step, LockSys.step, hfirst]
    rfl
  have h₂ : step s₁ (.load 1 1 second) = some s₂ := by
    simp only [step, LockSys.step, hsecond]
    rfl
  have hempty : s₀.Disjoint (.load 0 0 first) := by
    intro q t hq
    cases hq
  have hapart : s₁.Disjoint (.load 1 1 second) := by
    intro q t hq
    rw [set_txs] at hq
    split_ifs at hq with he
    · cases hq
      exact ⟨by decide, by decide⟩
    · cases hq
  obtain ⟨s₃, h₃, s₄, h₄, hwaits⟩ : ∃ s₃, step s₂ (.run 0 []) = some s₃ ∧
      ∃ s₄, step s₃ (.run 0 []) = some s₄ ∧ s₄.WaitsFor 1 0 :=
    ⟨_, rfl, _, rfl, .key "ada@x", rfl, rfl, by decide⟩
  have h : LockSys.Reaches deleteByEmail.text deleteByEmail.config s₀ s₄ :=
    .head ⟨.load 0 0 first, hempty, h₁⟩
      (.head ⟨.load 1 1 second, hapart, h₂⟩
        (.head ⟨.run 0 [], trivial, h₃⟩ (.single ⟨.run 0 [], trivial, h₄⟩)))
  exact ⟨s₄, h, hwaits, batches_never_deadlock h 1⟩

end BulkActions
