import BulkActions.DedupFacts
import BulkActions.ReadCommitted
import BulkActions.System

namespace BulkActions

open ReadCommitted

/-- An action that de-duplicates by `field`. -/
structure DedupAction where
  text : PyText
  config : Config
  field : String
  active : config.activeDedup = some field

/-- Where an attempt at a batch stands, from its load on. `todo` are the keys that its INSERT
has still to insert, `claimed` those that it has inserted. -/
inductive AttemptPc where
  | idle
  | inserting (rows : List EntityRow) (todo claimed : List String)
  | committed (rows : List EntityRow) (claimed : List String) (result : BatchResult)
  | rolledBack

abbrev AttemptId := Nat

/-- The keys of `bulk_action_dedup` that belong to the action. -/
abbrev Ledger := Store AttemptId String String (String → Bool)

def insertKey (key : String) (keys : String → Bool) : String → Bool :=
  Function.update keys key true

/-- The ledger and the attempts at the batches of an action; a retry is an attempt of its
own. -/
structure DedupSys where
  ledger : Ledger
  attempts : AttemptId → AttemptPc

inductive DedupLabel where
  | load (p : AttemptId) (rows : List EntityRow)
  | insert (p : AttemptId)
  | commit (p : AttemptId) (entityCount : Nat) (affected : List Uuid)
  | rollback (p : AttemptId)

namespace DedupSys

def set (s : DedupSys) (ledger : Ledger) (p : AttemptId) (pc : AttemptPc) : DedupSys where
  ledger := ledger
  attempts := Function.update s.attempts p pc

/-- A key that a rival has inserted and not committed makes the INSERT wait. -/
def step (d : DedupAction) (s : DedupSys) : DedupLabel → Option DedupSys
  | .load p rows =>
    match s.attempts p with
    | .idle => some (s.set s.ledger p (.inserting rows (ledgerKeys d.text d.config rows) []))
    | _ => none
  | .insert p =>
    match s.attempts p with
    | .inserting rows (key :: todo) claimed =>
      if s.ledger.free p key then
        if s.ledger.view insertKey p key then some (s.set s.ledger p (.inserting rows todo claimed))
        else some (s.set (s.ledger.write some p key) p (.inserting rows todo (claimed ++ [key])))
      else none
    | _ => none
  | .commit p entityCount affected =>
    match s.attempts p with
    | .inserting rows [] claimed =>
      some (s.set (s.ledger.commit insertKey p) p (.committed rows claimed
        (runBatch d.text d.config entityCount rows claimed affected)))
    | _ => none
  | .rollback p =>
    match s.attempts p with
    | .inserting _ _ _ => some (s.set (s.ledger.rollback p) p .rolledBack)
    | _ => none

def Reaches (d : DedupAction) : DedupSys → DedupSys → Prop :=
  Runs.Reaches (step d) Runs.anyStep

def start : DedupSys where
  ledger := ⟨fun _ => false, fun _ => [], fun _ => none⟩
  attempts _ := .idle

/-- The rows with a key that a committed attempt has passed to `handler.execute`. -/
def executedWith (d : DedupAction) (s : DedupSys) (p : AttemptId) (key : String) :
    List EntityRow :=
  match s.attempts p with
  | .committed rows claimed _ =>
    rowsOf d.text d.field (executedRows d.text d.config rows claimed) key
  | _ => []

/-- The key occurs in a row that a committed attempt has loaded. -/
def Occurs (d : DedupAction) (s : DedupSys) (key : String) : Prop :=
  ∃ p rows claimed result, s.attempts p = .committed rows claimed result ∧
    ∃ row ∈ rows, keyOf d.text d.field row = some key

end DedupSys

/-- A committed attempt has claimed the key. -/
def DedupSys.Won (s : DedupSys) (p : AttemptId) (key : String) : Prop :=
  ∃ rows claimed result, s.attempts p = .committed rows claimed result ∧ key ∈ claimed

/-- An open attempt has claimed the keys it has inserted, which nobody has committed; the
keys it has passed by are claimed or committed. -/
structure DedupAction.Inserted (d : DedupAction) (committed : String → Bool)
    (writes : List String) (rows : List EntityRow) (todo claimed : List String) : Prop where
  writes : writes = claimed
  fresh : ∀ key ∈ claimed, committed key = false
  passed : ∀ key ∈ ledgerKeys d.text d.config rows,
    key ∈ todo ∨ key ∈ claimed ∨ committed key = true
  own : ∀ key, key ∈ todo ∨ key ∈ claimed → key ∈ ledgerKeys d.text d.config rows

/-- The keys of a committed attempt are committed, the ones it has claimed among them. -/
structure DedupAction.Settled (d : DedupAction) (committed : String → Bool)
    (writes : List String) (rows : List EntityRow) (claimed : List String) (result : BatchResult) :
    Prop where
  writes : writes = []
  passed : ∀ key ∈ ledgerKeys d.text d.config rows, committed key = true
  own : ∀ key ∈ claimed, key ∈ ledgerKeys d.text d.config rows
  result : ∃ entityCount affected,
    result = runBatch d.text d.config entityCount rows claimed affected

def AttemptPc.Safe (d : DedupAction) (committed : String → Bool) (writes : List String) :
    AttemptPc → Prop
  | .inserting rows todo claimed => d.Inserted committed writes rows todo claimed
  | .committed rows claimed result => d.Settled committed writes rows claimed result
  | _ => writes = []

/-- The committed keys are those that committed attempts have claimed, each of them once. -/
structure DedupSys.Safe (d : DedupAction) (s : DedupSys) : Prop where
  guarded : s.ledger.Guarded some
  attempts : ∀ p, (s.attempts p).Safe d s.ledger.committed (s.ledger.writes p)
  won : ∀ key, s.ledger.committed key = true ↔ ∃ p, s.Won p key
  once : ∀ p q key, s.Won p key → s.Won q key → p = q

theorem replay_insertKey (writes : List String) (keys : String → Bool) (key : String) :
    replay insertKey writes keys key = true ↔ key ∈ writes ∨ keys key = true := by
  induction writes generalizing keys with
  | nil => simp
  | cons k writes ih =>
    rw [replay_cons, ih, List.mem_cons, insertKey, Function.update_apply]
    by_cases hk : key = k <;> simp [hk]

section Steps

variable {d : DedupAction} {s : DedupSys} {p : AttemptId}

theorem set_attempts (s : DedupSys) (ledger : Ledger) (p q : AttemptId) (pc : AttemptPc) :
    (s.set ledger p pc).attempts q = if q = p then pc else s.attempts q := by
  simp only [DedupSys.set, Function.update_apply]

/-- A step of an attempt that does not commit. -/
theorem safe_set (h : s.Safe d) {ledger : Ledger} {pc : AttemptPc}
    (hguarded : ledger.Guarded some) (hcommitted : ledger.committed = s.ledger.committed)
    (hwrites : ∀ q, q ≠ p → ledger.writes q = s.ledger.writes q)
    (hpc : pc.Safe d s.ledger.committed (ledger.writes p))
    (hold : ∀ rows claimed result, s.attempts p ≠ .committed rows claimed result)
    (hnew : ∀ rows claimed result, pc ≠ .committed rows claimed result) :
    (s.set ledger p pc).Safe d := by
  have hwon : ∀ q key, (s.set ledger p pc).Won q key ↔ s.Won q key := by
    intro q key
    simp only [DedupSys.Won, set_attempts]
    by_cases hq : q = p
    · subst hq
      simp [hold, hnew]
    · simp [hq]
  refine ⟨hguarded, ?_, ?_, ?_⟩
  · intro q
    rw [set_attempts]
    show AttemptPc.Safe d ledger.committed (ledger.writes q) _
    rw [hcommitted]
    by_cases hq : q = p
    · subst hq
      rwa [if_pos rfl]
    · rw [if_neg hq, hwrites q hq]
      exact h.attempts q
  · intro key
    show ledger.committed key = true ↔ _
    simp only [hcommitted, h.won key, hwon]
  · intro q q' key hq hq'
    exact h.once q q' key ((hwon q key).mp hq) ((hwon q' key).mp hq')

theorem safe_insert (h : s.Safe d) {s' : DedupSys} (hs : s.step d (.insert p) = some s') :
    s'.Safe d := by
  simp only [DedupSys.step] at hs
  split at hs
  next rows key todo claimed hp =>
    have hold : d.Inserted s.ledger.committed (s.ledger.writes p) rows (key :: todo) claimed := by
      have hpc := h.attempts p
      rwa [hp] at hpc
    have hview : s.ledger.view insertKey p key = true ↔
        key ∈ claimed ∨ s.ledger.committed key = true := by
      rw [Store.view, replay_insertKey, hold.writes]
    split_ifs at hs with hfree hseen
    · cases Option.some.inj hs
      refine safe_set h h.guarded rfl (fun _ _ => rfl) ⟨hold.writes, hold.fresh, ?_, ?_⟩
        (by simp [hp]) (by simp)
      · intro k hk
        rcases hold.passed k hk with hk | hk
        · rcases List.mem_cons.mp hk with rfl | hk
          · exact Or.inr (hview.mp hseen)
          · exact Or.inl hk
        · exact Or.inr hk
      · exact fun k hk => hold.own k (hk.imp_left (List.mem_cons_of_mem key))
    · cases Option.some.inj hs
      rw [hview, not_or, Bool.not_eq_true] at hseen
      refine safe_set h (Store.guarded_write h.guarded (fun r hr => Option.some.inj hr ▸ hfree)) rfl
        (fun _ hq => Store.write_writes_ne hq) ⟨?_, ?_, ?_, ?_⟩ (by simp [hp]) (by simp)
      · rw [Store.write_writes_self, hold.writes]
      · intro k hk
        rcases List.mem_append.mp hk with hk | hk
        · exact hold.fresh k hk
        · rw [List.mem_singleton.mp hk]
          exact hseen.2
      · intro k hk
        rcases hold.passed k hk with hk | hk | hk
        · rcases List.mem_cons.mp hk with rfl | hk
          · exact Or.inr (Or.inl (by simp))
          · exact Or.inl hk
        · exact Or.inr (Or.inl (List.mem_append_left _ hk))
        · exact Or.inr (Or.inr hk)
      · rintro k (hk | hk)
        · exact hold.own k (Or.inl (List.mem_cons_of_mem key hk))
        · rcases List.mem_append.mp hk with hk | hk
          · exact hold.own k (Or.inr hk)
          · exact hold.own k (Or.inl (List.mem_singleton.mp hk ▸ List.mem_cons_self))
  next => simp at hs

/-- A key that an attempt has written and not committed is committed by none. -/
theorem AttemptPc.Safe.unpublished {committed : String → Bool} {writes : List String}
    {pc : AttemptPc} (h : pc.Safe d committed writes) {key : String} (hk : key ∈ writes) :
    committed key = false := by
  cases pc with
  | inserting rows todo claimed => exact h.fresh key (h.writes ▸ hk)
  | committed rows claimed result =>
    have hwrites : writes = [] := h.writes
    simp [hwrites] at hk
  | idle =>
    have hwrites : writes = [] := h
    simp [hwrites] at hk
  | rolledBack =>
    have hwrites : writes = [] := h
    simp [hwrites] at hk

/-- What an attempt has seen stays true when a rival commits other keys than it has written. -/
theorem AttemptPc.Safe.mono {committed committed' : String → Bool} {writes : List String}
    {pc : AttemptPc} (h : pc.Safe d committed writes)
    (hle : ∀ key, committed key = true → committed' key = true)
    (hfresh : ∀ key ∈ writes, committed' key = false) : pc.Safe d committed' writes := by
  cases pc with
  | inserting rows todo claimed =>
    refine ⟨h.writes, fun key hk => hfresh key (h.writes ▸ hk), ?_, h.own⟩
    intro key hk
    exact (h.passed key hk).imp_right (Or.imp_right (hle key))
  | committed rows claimed result =>
    exact ⟨h.writes, fun key hk => hle key (h.passed key hk), h.own, h.result⟩
  | idle => exact h
  | rolledBack => exact h

/-- The commit of an attempt adds the keys that it has claimed to those that are won. -/
theorem won_commit {rows : List EntityRow} {claimed : List String}
    (hp : s.attempts p = .inserting rows [] claimed) (ledger : Ledger) (result : BatchResult)
    (q : AttemptId) (key : String) :
    (s.set ledger p (.committed rows claimed result)).Won q key ↔
      (q = p ∧ key ∈ claimed) ∨ s.Won q key := by
  simp only [DedupSys.Won, set_attempts]
  by_cases hq : q = p
  · subst hq
    simp [hp]
  · simp [hq]

/-- A commit publishes the claimed keys, none of which an other attempt has claimed. -/
theorem safe_commit (h : s.Safe d) {s' : DedupSys} {entityCount : Nat} {affected : List Uuid}
    (hs : s.step d (.commit p entityCount affected) = some s') : s'.Safe d := by
  simp only [DedupSys.step] at hs
  split at hs
  next rows claimed hp =>
    cases Option.some.inj hs
    have hold : d.Inserted s.ledger.committed (s.ledger.writes p) rows [] claimed := by
      have hpc := h.attempts p
      rwa [hp] at hpc
    have hcommitted : ∀ key, (s.ledger.commit insertKey p).committed key = true ↔
        key ∈ claimed ∨ s.ledger.committed key = true := by
      intro key
      rw [Store.commit_committed, replay_insertKey, hold.writes]
    have notWon : ∀ q key, key ∈ claimed → ¬ s.Won q key := by
      intro q key hk hq
      have := (h.won key).mpr ⟨q, hq⟩
      simp [hold.fresh key hk] at this
    refine ⟨Store.guarded_commit h.guarded, ?_, ?_, ?_⟩
    · intro q
      rw [set_attempts]
      show AttemptPc.Safe d (s.ledger.commit insertKey p).committed
        ((s.ledger.commit insertKey p).writes q) _
      by_cases hq : q = p
      · subst hq
        rw [if_pos rfl]
        refine ⟨Store.commit_writes_self, ?_, fun key hk => hold.own key (Or.inr hk),
          entityCount, affected, rfl⟩
        intro key hk
        exact (hcommitted key).mpr ((hold.passed key hk).resolve_left (by simp))
      · rw [if_neg hq, Store.commit_writes_ne hq]
        refine (h.attempts q).mono (fun key hk => (hcommitted key).mpr (Or.inr hk)) ?_
        intro key hk
        rw [← Bool.not_eq_true, hcommitted, not_or]
        -- the two attempts cannot both have written the key
        refine ⟨fun hmem => hq ?_, by simp [(h.attempts q).unpublished hk]⟩
        exact Store.guarded_exclusive h.guarded hk (hold.writes.symm ▸ hmem) rfl rfl
    · intro key
      show (s.ledger.commit insertKey p).committed key = true ↔ _
      simp only [hcommitted, won_commit hp, h.won key]
      constructor
      · rintro (hk | ⟨q, hq⟩)
        · exact ⟨p, Or.inl ⟨rfl, hk⟩⟩
        · exact ⟨q, Or.inr hq⟩
      · rintro ⟨q, ⟨_, hk⟩ | hq⟩
        · exact Or.inl hk
        · exact Or.inr ⟨q, hq⟩
    · intro q q' key hq hq'
      rcases (won_commit hp _ _ q key).mp hq with ⟨rfl, hk⟩ | hw
      · rcases (won_commit hp _ _ q' key).mp hq' with ⟨rfl, _⟩ | hw'
        · rfl
        · exact absurd hw' (notWon q' key hk)
      · rcases (won_commit hp _ _ q' key).mp hq' with ⟨rfl, hk⟩ | hw'
        · exact absurd hw (notWon q key hk)
        · exact h.once q q' key hw hw'
  next => simp at hs

theorem safe_dedup_step (h : s.Safe d) {s' : DedupSys} {l : DedupLabel}
    (hs : s.step d l = some s') : s'.Safe d := by
  cases l with
  | load p rows =>
    simp only [DedupSys.step] at hs
    split at hs
    next hp =>
      cases Option.some.inj hs
      have hold := h.attempts p
      rw [hp] at hold
      exact safe_set h h.guarded rfl (fun _ _ => rfl)
        ⟨hold, by simp, fun key hk => Or.inl hk, by simp⟩ (by simp [hp]) (by simp)
    next => simp at hs
  | insert p => exact safe_insert h hs
  | commit p entityCount affected => exact safe_commit h hs
  | rollback p =>
    simp only [DedupSys.step] at hs
    split at hs
    next rows todo claimed hp =>
      cases Option.some.inj hs
      exact safe_set h (Store.guarded_rollback h.guarded) rfl
        (fun _ hq => Store.rollback_writes_ne hq) Store.rollback_writes_self (by simp [hp])
        (by simp)
    next => simp at hs

theorem dedup_safe (h : DedupSys.Reaches d .start s) : s.Safe d := by
  refine Runs.Reaches.invariant (fun hs _ hstep => safe_dedup_step hs hstep) h ?_
  refine ⟨?_, fun p => rfl, ?_, ?_⟩
  · intro p w r hw
    simp [DedupSys.start] at hw
  · simp [DedupSys.start, DedupSys.Won]
  · rintro p q key ⟨rows, claimed, result, hp, _⟩
    simp [DedupSys.start] at hp

end Steps

theorem ledgerKeys_eq (d : DedupAction) (rows : List EntityRow) :
    ledgerKeys d.text d.config rows = insertKeys d.text d.field rows := by
  rw [ledgerKeys, d.active]

theorem executedRows_eq (d : DedupAction) (rows : List EntityRow) (claimed : List String) :
    executedRows d.text d.config rows claimed =
      (partitionDuplicates d.text d.field rows claimed).uniqueRows := by
  rw [executedRows, d.active]

/-- Of the rows with a key, a committed attempt has executed the first if it has claimed the
key, and none otherwise. -/
theorem executedWith_committed {d : DedupAction} {s : DedupSys} {p : AttemptId}
    {rows : List EntityRow} {claimed : List String} {result : BatchResult}
    (hp : s.attempts p = .committed rows claimed result) (key : String) :
    s.executedWith d p key =
      if key ∈ claimed then (rowsOf d.text d.field rows key).take 1 else [] := by
  rw [DedupSys.executedWith, hp]
  dsimp only
  rw [executedRows_eq, rowsOf_uniqueRows]

theorem DedupSys.Safe.settled {d : DedupAction} {s : DedupSys} (safe : s.Safe d) {p : AttemptId}
    {rows : List EntityRow} {claimed : List String} {result : BatchResult}
    (hp : s.attempts p = .committed rows claimed result) :
    d.Settled s.ledger.committed (s.ledger.writes p) rows claimed result := by
  have hpc := safe.attempts p
  rwa [hp] at hpc

/-- Among the attempts that have committed, each key that occurs has exactly one row that was
executed, the other rows with the key are the ones that are logged as its duplicates, and the
rows without a key are all executed. -/
theorem dedup_elects_one_winner {d : DedupAction} {s : DedupSys}
    (h : DedupSys.Reaches d .start s) :
    (∀ key, s.Occurs d key → ∃ p row, s.executedWith d p key = [row] ∧
      ∀ q, q ≠ p → s.executedWith d q key = []) ∧
    ∀ p rows claimed result, s.attempts p = .committed rows claimed result →
      (∀ key, ∃ lost, rowsOf d.text d.field rows key = s.executedWith d p key ++ lost ∧
        result.naming d.field key = lost.map (fun row => duplicateOutcome d.field (row, key))) ∧
      ∀ row ∈ rows, keyOf d.text d.field row = none →
        row ∈ executedRows d.text d.config rows claimed := by
  have safe := dedup_safe h
  constructor
  · rintro key ⟨p₀, rows₀, _, _, hp₀, hkey₀⟩
    have hcommitted : s.ledger.committed key = true := by
      apply (safe.settled hp₀).passed
      rw [ledgerKeys_eq]
      exact mem_insertKeys.mpr hkey₀
    obtain ⟨p, hwon⟩ := (safe.won key).mp hcommitted
    have hwon' := hwon
    obtain ⟨rows, claimed, result, hp, hclaimed⟩ := hwon'
    have hkey := (safe.settled hp).own key hclaimed
    rw [ledgerKeys_eq] at hkey
    obtain ⟨row, hrow, hk⟩ := mem_insertKeys.mp hkey
    have hmem : row ∈ rowsOf d.text d.field rows key :=
      List.mem_filter.mpr ⟨hrow, decide_eq_true hk⟩
    obtain ⟨first, rest, hrows⟩ := List.exists_cons_of_ne_nil (List.ne_nil_of_mem hmem)
    refine ⟨p, first, ?_, ?_⟩
    · rw [executedWith_committed hp, if_pos hclaimed, hrows]
      rfl
    · intro q hq
      cases hpc : s.attempts q with
      | committed rows' claimed' result' =>
        rw [executedWith_committed hpc, if_neg]
        exact fun hk => hq (safe.once q p key ⟨rows', claimed', result', hpc, hk⟩ hwon)
      | _ => simp [DedupSys.executedWith, hpc]
  · intro p rows claimed result hp
    obtain ⟨entityCount, affected, rfl⟩ := (safe.settled hp).result
    constructor
    · intro key
      rw [executedWith_committed hp key, runBatch_naming d.active]
      refine ⟨_, ?_, rfl⟩
      split_ifs
      · exact (List.take_append_drop 1 _).symm
      · rfl
    · intro row hrow hnone
      rw [executedRows_eq]
      exact mem_uniqueRows_of_missing d.text d.field rows claimed hrow hnone

/-- The deletion of contacts, one for each email; `lower` is the identity on what the sample
stores. -/
def deleteByEmail : DedupAction where
  text := { asciiText with lower := fun s => s }
  config := .delete ⟨none, none, false, some "email"⟩
  field := "email"
  active := rfl

def emailRow (id : Uuid) (email : Value) : EntityRow := ⟨id, [("email", email)]⟩

theorem ledgerKeys_of_single {d : DedupAction} {rows : List EntityRow} {key : String}
    (h : (keyedRows d.text d.field rows).map Prod.fst = [key]) :
    ledgerKeys d.text d.config rows = [key] := by
  rw [ledgerKeys_eq, insertKeys, h]
  exact List.mergeSort_singleton key

theorem load_step {d : DedupAction} {s : DedupSys} {p : AttemptId} {rows : List EntityRow}
    {keys : List String} (hp : s.attempts p = .idle)
    (hkeys : ledgerKeys d.text d.config rows = keys) :
    s.step d (.load p rows) = some (s.set s.ledger p (.inserting rows keys [])) := by
  simp only [DedupSys.step, hp, hkeys]

/-- Attempt 0 claims the key and is rolled back, attempt 1 claims it for contact 4, and the
retry of the first batch finds its two contacts with that email to be duplicates. -/
theorem dedup_elects_one_winner_retried :
    ∃ s, DedupSys.Reaches deleteByEmail .start s ∧ s.Occurs deleteByEmail "ada@x" ∧
      ∃ p row, s.executedWith deleteByEmail p "ada@x" = [row] ∧
        ∀ q, q ≠ p → s.executedWith deleteByEmail q "ada@x" = [] := by
  let first := [emailRow 1 (.str "ada@x"), emailRow 2 (.str " ada@x"), emailRow 3 .null]
  let rival := [emailRow 4 (.str "ada@x")]
  let load (p : AttemptId) (rows : List EntityRow) (s : DedupSys) : DedupSys :=
    s.set s.ledger p (.inserting rows ["ada@x"] [])
  have hfirst : ledgerKeys deleteByEmail.text deleteByEmail.config first = ["ada@x"] :=
    ledgerKeys_of_single (by decide)
  have hrival : ledgerKeys deleteByEmail.text deleteByEmail.config rival = ["ada@x"] :=
    ledgerKeys_of_single (by decide)
  obtain ⟨s, hs, hretry⟩ : ∃ s, Runs.steps (DedupSys.step deleteByEmail)
      (load 2 first (load 1 rival (load 0 first .start)))
      [.insert 0, .rollback 0, .insert 1, .commit 1 1 [4], .insert 2, .commit 2 3 [3]] = some s ∧
      ∃ result, s.attempts 2 = .committed first [] result :=
    ⟨_, rfl, _, rfl⟩
  have hr : DedupSys.Reaches deleteByEmail .start s :=
    .head ⟨.load 0 first, trivial, load_step rfl hfirst⟩
      (.head ⟨.load 1 rival, trivial, load_step rfl hrival⟩
        (.head ⟨.load 2 first, trivial, load_step rfl hfirst⟩ (Runs.reaches_of_steps hs)))
  obtain ⟨result, hretry⟩ := hretry
  have occurs : s.Occurs deleteByEmail "ada@x" :=
    ⟨2, first, [], result, hretry, emailRow 1 (.str "ada@x"), by simp [first], by decide⟩
  exact ⟨s, hr, occurs, (dedup_elects_one_winner hr).1 "ada@x" occurs⟩

end BulkActions
