import Mathlib.Logic.Function.Basic

namespace ReadCommitted

variable {π ρ ω σ α : Type}

/-- A database under READ COMMITTED with row locks. Every open transaction keeps
the writes it has executed; they are replayed on the committed contents at its
commit, and the rows they touch stay locked until then. -/
structure Store (π ρ ω σ : Type) where
  committed : σ
  writes : π → List ω
  lock : ρ → Option π

def replay (apply : ω → σ → σ) (ws : List ω) (c : σ) : σ :=
  ws.foldl (fun c w => apply w c) c

@[simp] theorem replay_nil (apply : ω → σ → σ) (c : σ) : replay apply [] c = c := rfl

@[simp] theorem replay_cons (apply : ω → σ → σ) (w : ω) (ws : List ω) (c : σ) :
    replay apply (w :: ws) c = replay apply ws (apply w c) := rfl

@[simp] theorem replay_append (apply : ω → σ → σ) (ws vs : List ω) (c : σ) :
    replay apply (ws ++ vs) c = replay apply vs (replay apply ws c) := by
  simp [replay]

/-- A projection that no replayed write can change is left as it was. -/
theorem replay_proj {apply : ω → σ → σ} {f : σ → α} {ws : List ω}
    (h : ∀ w ∈ ws, ∀ c, f (apply w c) = f c) (c : σ) :
    f (replay apply ws c) = f c := by
  induction ws generalizing c with
  | nil => rfl
  | cons w ws ih =>
    rw [replay_cons, ih (fun v hv => h v (List.mem_cons_of_mem w hv))]
    exact h w (by simp) c

namespace Store

/-- What a statement of transaction `p` reads: the committed contents and its own writes. -/
def view (apply : ω → σ → σ) (s : Store π ρ ω σ) (p : π) : σ :=
  replay apply (s.writes p) s.committed

section

variable [DecidableEq π]

/-- Row `r` is not locked by a transaction other than `p`. -/
def free (s : Store π ρ ω σ) (p : π) (r : ρ) : Bool :=
  s.lock r = none || s.lock r = some p

def release (lock : ρ → Option π) (p : π) : ρ → Option π :=
  fun r => if lock r = some p then none else lock r

def commit (apply : ω → σ → σ) (s : Store π ρ ω σ) (p : π) : Store π ρ ω σ where
  committed := replay apply (s.writes p) s.committed
  writes := Function.update s.writes p []
  lock := release s.lock p

def rollback (s : Store π ρ ω σ) (p : π) : Store π ρ ω σ where
  committed := s.committed
  writes := Function.update s.writes p []
  lock := release s.lock p

def write [DecidableEq ρ] (row : ω → Option ρ) (s : Store π ρ ω σ) (p : π) (w : ω) :
    Store π ρ ω σ where
  committed := s.committed
  writes := Function.update s.writes p (s.writes p ++ [w])
  lock := match row w with
    | none => s.lock
    | some r => Function.update s.lock r (some p)

end

/-- Every row an open transaction has written is locked by it. -/
def Guarded (row : ω → Option ρ) (s : Store π ρ ω σ) : Prop :=
  ∀ p w r, w ∈ s.writes p → row w = some r → s.lock r = some p

/-- Two open transactions never hold writes on one row. -/
theorem guarded_exclusive {row : ω → Option ρ} {s : Store π ρ ω σ} (hg : s.Guarded row)
    {p q : π} {v w : ω} {r : ρ} (hv : v ∈ s.writes p) (hw : w ∈ s.writes q)
    (hr : row v = some r) (hr' : row w = some r) : p = q :=
  Option.some.inj ((hg p v r hv hr).symm.trans (hg q w r hw hr'))

/-- A row is locked only for a write of the transaction that holds it. -/
def Owned (row : ω → Option ρ) (s : Store π ρ ω σ) : Prop :=
  ∀ p r, s.lock r = some p → ∃ w ∈ s.writes p, row w = some r

section

variable [DecidableEq π] {row : ω → Option ρ} {apply : ω → σ → σ} {s : Store π ρ ω σ} {p q : π}
  {w : ω} {r : ρ}

@[simp] theorem commit_committed :
    (s.commit apply p).committed = replay apply (s.writes p) s.committed := rfl

@[simp] theorem commit_writes_self : (s.commit apply p).writes p = [] := by
  simp [commit]

theorem commit_writes_ne (h : q ≠ p) : (s.commit apply p).writes q = s.writes q := by
  simp [commit, h]

@[simp] theorem rollback_committed : (s.rollback p).committed = s.committed := rfl

@[simp] theorem rollback_writes_self : (s.rollback p).writes p = [] := by
  simp [rollback]

theorem rollback_writes_ne (h : q ≠ p) : (s.rollback p).writes q = s.writes q := by
  simp [rollback, h]

theorem release_of_ne {lock : ρ → Option π} (h : lock r = some q) (hne : q ≠ p) :
    release lock p r = some q := by
  simp [release, h, hne]

theorem guarded_of_released {s' : Store π ρ ω σ} (hg : s.Guarded row)
    (hw : s'.writes = Function.update s.writes p []) (hl : s'.lock = release s.lock p) :
    s'.Guarded row := by
  intro q w r hm hr
  rw [hw] at hm
  by_cases hq : q = p
  · subst hq
    simp at hm
  · rw [Function.update_of_ne hq] at hm
    rw [hl]
    exact release_of_ne (hg q w r hm hr) hq

theorem guarded_commit (hg : s.Guarded row) : (s.commit apply p).Guarded row :=
  guarded_of_released hg rfl rfl

theorem guarded_rollback (hg : s.Guarded row) : (s.rollback p).Guarded row :=
  guarded_of_released hg rfl rfl

theorem owned_of_released {s' : Store π ρ ω σ} (ho : s.Owned row)
    (hw : s'.writes = Function.update s.writes p []) (hl : s'.lock = release s.lock p) :
    s'.Owned row := by
  intro q r hr
  rw [hl] at hr
  unfold release at hr
  split at hr
  next => cases hr
  next hp =>
    have hq : q ≠ p := fun he => hp (he ▸ hr)
    rw [hw, Function.update_of_ne hq]
    exact ho q r hr

theorem owned_commit (ho : s.Owned row) : (s.commit apply p).Owned row :=
  owned_of_released ho rfl rfl

theorem owned_rollback (ho : s.Owned row) : (s.rollback p).Owned row :=
  owned_of_released ho rfl rfl

/-- While `p` holds row `r`, the commit of another transaction leaves it alone. -/
theorem commit_proj_of_locked {f : σ → α} (hg : s.Guarded row)
    (hp : ∀ v c, row v ≠ some r → f (apply v c) = f c)
    (hv : w ∈ s.writes p) (hr : row w = some r) (hne : q ≠ p) :
    f (s.commit apply q).committed = f s.committed := by
  apply replay_proj
  intro v hm c
  exact hp v c (fun hrow => hne (guarded_exclusive hg hm hv hrow hr))

end

section

variable [DecidableEq π] [DecidableEq ρ] {row : ω → Option ρ} {s : Store π ρ ω σ} {p q : π}
  {w : ω}

@[simp] theorem write_committed : (s.write row p w).committed = s.committed := rfl

@[simp] theorem write_writes_self : (s.write row p w).writes p = s.writes p ++ [w] := by
  simp [write]

theorem write_writes_ne (h : q ≠ p) : (s.write row p w).writes q = s.writes q := by
  simp [write, h]

theorem guarded_write (hg : s.Guarded row) (hf : ∀ r, row w = some r → s.free p r) :
    (s.write row p w).Guarded row := by
  intro q v r hm hr
  have old : v ∈ s.writes q → (s.write row p w).lock r = some q := by
    intro hv
    have hlock := hg q v r hv hr
    cases hw : row w with
    | none => simpa [write, hw] using hlock
    | some r' =>
      by_cases he : r' = r
      · subst he
        have hfree := hf r' hw
        simp only [free, hlock, Bool.or_eq_true, decide_eq_true_eq, reduceCtorEq, false_or,
          Option.some.injEq] at hfree
        simp [write, hw, hfree]
      · simpa [write, hw, Function.update_of_ne (Ne.symm he)] using hlock
  by_cases hq : q = p
  · subst hq
    rw [write_writes_self, List.mem_append] at hm
    rcases hm with hm | hm
    · exact old hm
    · have he : v = w := by simpa using hm
      subst he
      simp [write, hr]
  · rw [write_writes_ne hq] at hm
    exact old hm

theorem owned_write (ho : s.Owned row) : (s.write row p w).Owned row := by
  intro q r hr
  have old : s.lock r = some q → ∃ v ∈ (s.write row p w).writes q, row v = some r := by
    intro hl
    obtain ⟨v, hv, hrow⟩ := ho q r hl
    refine ⟨v, ?_, hrow⟩
    by_cases hq : q = p
    · subst hq
      rw [write_writes_self]
      exact List.mem_append_left _ hv
    · rwa [write_writes_ne hq]
  cases hw : row w with
  | none => exact old (by simpa [write, hw] using hr)
  | some r' =>
    by_cases he : r = r'
    · subst he
      have hq : p = q := by simpa [write, hw] using hr
      subst hq
      exact ⟨w, by simp, hw⟩
    · exact old (by simpa [write, hw, Function.update_of_ne he] using hr)

end

end Store

end ReadCommitted
