import BulkActions.System
import BulkActions.Validation

namespace BulkActions

/-- Whether PostgreSQL lets a column hold a value. -/
def Column.admits (c : Column) (value : Value) : Bool :=
  match value, c.type with
  | .null, _ => c.nullable
  | .str s, .string length => s.length ≤ length
  | .int n, .integer => -2147483648 ≤ n && n ≤ 2147483647
  | .time _, .timestamp => true
  | .uuid _, .uuid => true
  | _, _ => false

/-- The values of an annotation are within the type of a column. -/
def Annotation.fits (a : Annotation) (type : ColumnType) : Bool :=
  match a, type with
  | .str _ maxLength _, .string length => maxLength ≤ length
  | .int ge le, .integer => -2147483648 ≤ ge && le ≤ 2147483647
  | _, _ => false

def FieldSpec.fits (spec : FieldSpec) (c : Column) : Bool :=
  spec.annotation.fits c.type && spec.nullable == c.nullable

namespace EntityDescriptor

/-- A value that the column of a field can hold, null only where the field is declared
nullable. -/
def writable (e : EntityDescriptor) (field : String) (value : Value) : Bool :=
  (e.column field).any (fun c => c.admits value) &&
    (value ≠ .null || (e.updatableFields.lookup field).any FieldSpec.nullable)

/-- The columns can hold the values that are assigned to them. -/
def admits (e : EntityDescriptor) (values : List (String × Value)) : Bool :=
  values.all (fun v => (e.column v.1).any (fun c => c.admits v.2))

/-- The declared fields agree with the columns of the table. -/
def fieldsFit (e : EntityDescriptor) : Bool :=
  e.updatableFields.all (fun f => e.updatableFields.lookup f.1 = some f.2 &&
    (e.column f.1).any (fun c => f.2.fits c))

end EntityDescriptor

theorem Annotation.parse_admits {py : Pydantic} {a : Annotation} {c : Column} {v : Json}
    {value : Value} (hfit : a.fits c.type) (h : a.parse py v = some value) :
    value ≠ .null ∧ c.admits value := by
  cases a with
  | str minLength maxLength pattern =>
    cases htype : c.type with
    | string length =>
      have hle : maxLength ≤ length := by simpa [htype, Annotation.fits] using hfit
      cases v with
      | str s =>
        simp only [Option.ite_none_right_eq_some, Annotation.parse, Bool.and_eq_true,
          decide_eq_true_eq, Option.some.injEq] at h
        obtain ⟨⟨⟨_, hmax⟩, _⟩, rfl⟩ := h
        have hlen : (py.strip s).length ≤ length := by omega
        simp [Column.admits, htype, hlen]
      | _ => cases h
    | _ => simp [htype, Annotation.fits] at hfit
  | int ge le =>
    cases htype : c.type with
    | integer =>
      have hrange : -2147483648 ≤ ge ∧ le ≤ 2147483647 := by
        simpa [htype, Annotation.fits] using hfit
      simp only [Option.map_eq_some_iff, Annotation.parse, Option.filter_eq_some_iff,
        Bool.and_eq_true, decide_eq_true_eq] at h
      obtain ⟨n, ⟨_, hge, hle⟩, rfl⟩ := h
      have hn : -2147483648 ≤ n ∧ n ≤ 2147483647 := by omega
      simp [Column.admits, htype, hn]
    | _ => simp [htype, Annotation.fits] at hfit

section Updates

variable {py : Pydantic} {e : EntityDescriptor}

/-- A declared field has a column that it fits. -/
theorem field_column (hfit : e.fieldsFit) {field : String} {spec : FieldSpec}
    (hf : (field, spec) ∈ e.updatableFields) :
    e.updatableFields.lookup field = some spec ∧ ∃ c, e.column field = some c ∧
      spec.annotation.fits c.type ∧ spec.nullable = c.nullable := by
  have hboth := List.all_eq_true.mp hfit _ hf
  simp only [Bool.and_eq_true, decide_eq_true_eq, Option.any_eq_true] at hboth
  obtain ⟨hlookup, c, hc, hfits⟩ := hboth
  exact ⟨hlookup, c, hc, by simpa [FieldSpec.fits] using hfits⟩

/-- What the update model makes of a declared field. -/
theorem field_writable_iff (hfit : e.fieldsFit) {field : String} {spec : FieldSpec}
    (hf : (field, spec) ∈ e.updatableFields) {v : Json} {value : Value}
    (h : spec.updateTyping.orNone.parse py v = some value) :
    e.writable field value ↔ (v = .null → spec.nullable) := by
  obtain ⟨hlookup, c, hc, hann, hnull⟩ := field_column hfit hf
  by_cases hv : v = .null
  · subst hv
    have hvalue : value = .null := by
      simpa [Typing.parse, Typing.orNone, eq_comm] using h
    simp [EntityDescriptor.writable, hvalue, hc, hlookup, Column.admits, ← hnull]
  · have hparse : spec.annotation.parse py v = some value := by
      cases v with
      | null => exact absurd rfl hv
      | _ => exact h
    obtain ⟨hne, hadmits⟩ := Annotation.parse_admits hann hparse
    simp [EntityDescriptor.writable, hc, hne, hadmits, hv]

theorem mem_coerced {updates : List (String × Json)} {p : String × Value} :
    p ∈ e.coerced py updates ↔ ∃ f ∈ e.updatableFields, ∃ v, updates.lookup f.1 = some v ∧
      f.2.updateTyping.orNone.parse py v = some p.2 ∧ f.1 = p.1 := by
  simp only [EntityDescriptor.coerced, EntityDescriptor.updateModel, List.mem_filterMap,
    List.mem_map, Option.bind_eq_some_iff, Option.map_eq_some_iff]
  constructor
  · rintro ⟨_, ⟨f, hf, rfl⟩, v, hv, value, hvalue, rfl⟩
    exact ⟨f, hf, v, hv, hvalue, rfl⟩
  · rintro ⟨f, hf, v, hv, hvalue, hname⟩
    exact ⟨_, ⟨f, hf, rfl⟩, v, hv, p.2, hvalue, Prod.ext hname rfl⟩

theorem validateUpdates_eq_ok {text : PyText} {updates : List (String × Json)}
    {coerced : List (String × Value)} (h : e.validateUpdates text py updates = .ok coerced) :
    coerced = e.coerced py updates := by
  unfold EntityDescriptor.validateUpdates at h
  dsimp only at h
  split at h
  next => cases h
  next =>
    split at h
    next => cases h
    next =>
      split at h
      next => cases h
      next => exact (Except.ok.inj h).symm

/-- Accepted updates are writable when none of them is a null for a field that is not
nullable. -/
theorem validateUpdates_writable_iff {text : PyText} {updates : List (String × Json)}
    {coerced : List (String × Value)} (hfit : e.fieldsFit)
    (h : e.validateUpdates text py updates = .ok coerced) :
    (∀ p ∈ coerced, e.writable p.1 p.2) ↔
      ∀ f ∈ e.updatableFields, updates.lookup f.1 = some .null → f.2.nullable := by
  cases validateUpdates_eq_ok h
  constructor
  · intro hwritable f hf hnull
    have hparse : f.2.updateTyping.orNone.parse py .null = some .null := rfl
    have hp : (f.1, Value.null) ∈ e.coerced py updates :=
      mem_coerced.mpr ⟨f, hf, .null, hnull, hparse, rfl⟩
    exact (field_writable_iff hfit hf hparse).mp (hwritable _ hp) rfl
  · intro hnullable p hp
    obtain ⟨f, hf, v, hv, hparse, hname⟩ := mem_coerced.mp hp
    rw [← hname, field_writable_iff hfit hf hparse]
    intro hnull
    exact hnullable f hf (hnull ▸ hv)

/-- Of a declared field, a value that its column can hold is writable. -/
theorem writable_iff_admits (hfit : e.fieldsFit) {f : String × FieldSpec}
    (hf : f ∈ e.updatableFields) (value : Value) :
    e.writable f.1 value ↔ (e.column f.1).any (fun c => c.admits value) := by
  obtain ⟨hlookup, c, hc, _, hnull⟩ := field_column hfit hf
  cases value <;> simp [EntityDescriptor.writable, hc, hlookup, Column.admits, hnull]

/-- Accepted updates can be written when none of them is a null for a field that is not
nullable. -/
theorem validateUpdates_admits_iff {text : PyText} {updates : List (String × Json)}
    {coerced : List (String × Value)} (hfit : e.fieldsFit)
    (h : e.validateUpdates text py updates = .ok coerced) :
    e.admits coerced ↔
      ∀ f ∈ e.updatableFields, updates.lookup f.1 = some .null → f.2.nullable := by
  rw [← validateUpdates_writable_iff hfit h, EntityDescriptor.admits, List.all_eq_true]
  cases validateUpdates_eq_ok h
  refine forall₂_congr (fun p hp => ?_)
  obtain ⟨f, hf, _, _, _, hname⟩ := mem_coerced.mp hp
  rw [← hname]
  exact (writable_iff_admits hfit hf p.2).symm

end Updates

theorem getEntity_fieldsFit : ∀ t, (getEntity t).fieldsFit
  | .contact => by decide
  | .company => by decide

/-- The updates that the model of a registered entity accepts are writable exactly when no
field without a nullable column is set to null. -/
theorem accepted_updates_writable_iff {text : PyText} {py : Pydantic} (t : EntityType)
    {updates : List (String × Json)} {coerced : List (String × Value)}
    (h : (getEntity t).validateUpdates text py updates = .ok coerced) :
    (∀ p ∈ coerced, (getEntity t).writable p.1 p.2) ↔
      ∀ f ∈ (getEntity t).updatableFields, updates.lookup f.1 = some .null → f.2.nullable :=
  validateUpdates_writable_iff (getEntity_fieldsFit t) h

theorem accepted_updates_writable_churned :
    (∀ p ∈ [("status", Value.str "churned")], contactEntity.writable p.1 p.2) ↔
      ∀ f ∈ contactEntity.updatableFields,
        [("status", Json.str "churned")].lookup f.1 = some .null → f.2.nullable :=
  @accepted_updates_writable_iff asciiText plainPydantic .contact
    [("status", .str "churned")] _ rfl

/-- The name of a contact can be set to null. -/
theorem accepted_null_not_writable :
    ¬ ∀ (text : PyText) (py : Pydantic) (t : EntityType) (updates : List (String × Json))
      (coerced : List (String × Value)),
      (getEntity t).validateUpdates text py updates = .ok coerced →
      ∀ p ∈ coerced, (getEntity t).writable p.1 p.2 := by
  intro always
  have hname := always asciiText plainPydantic .contact [("name", .null)] [("name", .null)] rfl
    ("name", .null) List.mem_cons_self
  exact absurd hname (by decide)

end BulkActions
