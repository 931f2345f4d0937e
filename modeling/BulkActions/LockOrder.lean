import BulkActions.ReadCommitted
import Mathlib.Logic.Relation
import Mathlib.Order.Defs.Unbundled

namespace ReadCommitted

variable {π ρ ω σ : Type}

namespace Store

/-- Transaction `p` wants a row that `q` has locked. -/
def WaitsFor (s : Store π ρ ω σ) (wants : π → Option ρ) (p q : π) : Prop :=
  ∃ r, wants p = some r ∧ s.lock r = some q ∧ q ≠ p

/-- A transaction that blocks another one and waits itself, wants a row that comes after the
one it blocks. -/
def InOrder (s : Store π ρ ω σ) (wants : π → Option ρ) (before : ρ → ρ → Prop) : Prop :=
  ∀ p q t r r', wants p = some r → s.lock r = some q → q ≠ p →
    wants q = some r' → s.lock r' = some t → t ≠ q → before r r'

variable {s : Store π ρ ω σ} {wants : π → Option ρ} {before : ρ → ρ → Prop}

/-- Along a chain of waits the wanted rows come one after the other. -/
theorem wants_before [IsTrans ρ before] (h : s.InOrder wants before) {p q t : π} {r r' : ρ}
    (hchain : Relation.TransGen (s.WaitsFor wants) p q) (hp : wants p = some r)
    (hq : wants q = some r') (hr' : s.lock r' = some t) (ht : t ≠ q) : before r r' := by
  induction hchain generalizing r' t with
  | single hwait =>
    obtain ⟨r₁, hp₁, hlock, hne⟩ := hwait
    cases Option.some.inj (hp.symm.trans hp₁)
    exact h p _ t r r' hp hlock hne hq hr' ht
  | tail _ hwait ih =>
    obtain ⟨r₁, hb, hlock, hne⟩ := hwait
    exact IsTrans.trans r r₁ r' (ih hb hlock hne) (h _ _ t r₁ r' hb hlock hne hq hr' ht)

theorem no_wait_cycle [IsTrans ρ before] [Std.Irrefl before] (h : s.InOrder wants before)
    (p : π) : ¬ Relation.TransGen (s.WaitsFor wants) p p := by
  intro hcycle
  obtain ⟨q, hwait, _⟩ := Relation.TransGen.head'_iff.mp hcycle
  obtain ⟨r, hp, hlock, hne⟩ := hwait
  exact Std.Irrefl.irrefl r (wants_before h hcycle hp hp hlock hne)

/-- Whoever waits, somebody at the end of the chain does not: the wanted rows come one after the
other, and there is a last one. -/
theorem exists_not_waiting (hlast : WellFounded (flip before)) (h : s.InOrder wants before)
    (p : π) : ∃ q, Relation.ReflTransGen (s.WaitsFor wants) p q ∧ ∀ t, ¬ s.WaitsFor wants q t := by
  have behind : ∀ r p q, wants p = some r → s.lock r = some q → q ≠ p →
      ∃ q', Relation.ReflTransGen (s.WaitsFor wants) p q' ∧ ∀ t, ¬ s.WaitsFor wants q' t := by
    intro r
    induction r using hlast.induction with
    | _ r ih =>
      intro p q hp hlock hne
      have hwait : s.WaitsFor wants p q := ⟨r, hp, hlock, hne⟩
      by_cases hq : ∃ t, s.WaitsFor wants q t
      · obtain ⟨t, r', hq, ht, hne'⟩ := hq
        obtain ⟨q', hchain, hend⟩ := ih r' (h p q t r r' hp hlock hne hq ht hne') q t hq ht hne'
        exact ⟨q', hchain.head hwait, hend⟩
      · exact ⟨q, .single hwait, not_exists.mp hq⟩
  by_cases hp : ∃ q, s.WaitsFor wants p q
  · obtain ⟨q, r, hr, hlock, hne⟩ := hp
    exact behind r p q hr hlock hne
  · exact ⟨p, .refl, not_exists.mp hp⟩

theorem not_free_iff [DecidableEq π] {p : π} {r : ρ} :
    s.free p r = false ↔ ∃ q, s.lock r = some q ∧ q ≠ p := by
  unfold free
  cases s.lock r with
  | none => simp
  | some q => simp

end Store

end ReadCommitted
