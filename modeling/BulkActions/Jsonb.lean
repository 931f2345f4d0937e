import BulkActions.Filters
import Mathlib.Data.List.Nodup

namespace BulkActions

/-- A JSONB column. A number is kept as a `numeric`: one that was written with a point or an
exponent is read back as an `int` when it is printed without a point, else as a `float`. -/
structure Jsonb where
  number : Rat → Int ⊕ Rat

namespace Jsonb

/-- The order of the members of an object: by the length of the key in bytes, then by its bytes. -/
def memberLe (f g : String × Json) : Bool :=
  f.1.utf8ByteSize < g.1.utf8ByteSize ||
    (f.1.utf8ByteSize = g.1.utf8ByteSize && decide (f.1 ≤ g.1))

mutual

/-- What is read back of a value that has been stored. -/
def read (j : Jsonb) : Json → Json
  | .null => .null
  | .bool b => .bool b
  | .int n => .int n
  | .float q => (j.number q).elim .int .float
  | .str s => .str s
  | .arr items => .arr (j.readItems items)
  | .obj fields => .obj ((j.readFields fields).mergeSort memberLe)

def readItems (j : Jsonb) : List Json → List Json
  | [] => []
  | v :: items => j.read v :: j.readItems items

def readFields (j : Jsonb) : List (String × Json) → List (String × Json)
  | [] => []
  | (name, v) :: fields => (name, j.read v) :: j.readFields fields

end

/-- The members of an object, as they are read back. -/
def members (j : Jsonb) (fields : List (String × Json)) : List (String × Json) :=
  (j.readFields fields).mergeSort memberLe

variable {j : Jsonb}

@[simp] theorem read_null : j.read .null = .null := by
  rw [read]

@[simp] theorem read_bool (b : Bool) : j.read (.bool b) = .bool b := by
  rw [read]

@[simp] theorem read_int (n : Int) : j.read (.int n) = .int n := by
  rw [read]

@[simp] theorem read_str (s : String) : j.read (.str s) = .str s := by
  rw [read]

@[simp] theorem read_obj (fields : List (String × Json)) :
    j.read (.obj fields) = .obj (j.members fields) := by
  rw [read, members]

theorem readItems_eq (items : List Json) : j.readItems items = items.map j.read := by
  induction items with
  | nil => rw [readItems, List.map_nil]
  | cons v items ih => rw [readItems, ih, List.map_cons]

theorem readFields_eq (fields : List (String × Json)) :
    j.readFields fields = fields.map (fun f => (f.1, j.read f.2)) := by
  induction fields with
  | nil => rw [readFields, List.map_nil]
  | cons f fields ih => rw [readFields, ih, List.map_cons]

@[simp] theorem read_arr (items : List Json) : j.read (.arr items) = .arr (items.map j.read) := by
  rw [read, readItems_eq]

/-- No member is lost, and none is new. -/
theorem members_perm (fields : List (String × Json)) :
    (j.members fields).Perm (fields.map (fun f => (f.1, j.read f.2))) :=
  readFields_eq (j := j) fields ▸ List.mergeSort_perm _ _

theorem members_names_perm (fields : List (String × Json)) :
    ((j.members fields).map Prod.fst).Perm (fields.map Prod.fst) := by
  have h := (members_perm (j := j) fields).map Prod.fst
  rwa [List.map_map] at h

theorem mem_members {fields : List (String × Json)} {f : String × Json} :
    f ∈ j.members fields ↔ ∃ g ∈ fields, (g.1, j.read g.2) = f := by
  rw [(members_perm fields).mem_iff, List.mem_map]

/-- A member is looked up as it is read back. -/
theorem lookup_members {fields : List (String × Json)} (hnodup : (fields.map Prod.fst).Nodup)
    (name : String) : (j.members fields).lookup name = (fields.lookup name).map j.read := by
  have hmembers : ((j.members fields).map Prod.fst).Nodup :=
    (members_names_perm fields).nodup_iff.mpr hnodup
  refine Option.ext (fun v => ?_)
  rw [lookup_eq_some_iff_mem hmembers, mem_members, Option.map_eq_some_iff]
  constructor
  · rintro ⟨g, hg, he⟩
    cases he
    exact ⟨g.2, (lookup_eq_some_iff_mem hnodup).mpr hg, rfl⟩
  · rintro ⟨w, hw, rfl⟩
    exact ⟨(name, w), (lookup_eq_some_iff_mem hnodup).mp hw, rfl⟩

end Jsonb

end BulkActions
