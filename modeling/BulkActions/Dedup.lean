import BulkActions.Handlers

namespace BulkActions

/-- The characters `str.strip` removes. -/
def isPySpace (c : Char) : Bool :=
  let n := c.toNat
  (9 ≤ n && n ≤ 13) || (28 ≤ n && n ≤ 32) || n = 133 || n = 160 || n = 5760 ||
    (8192 ≤ n && n ≤ 8202) || n = 8232 || n = 8233 || n = 8239 || n = 8287 || n = 12288

def strip (s : String) : String :=
  String.ofList ((s.toList.dropWhile isPySpace).reverse.dropWhile isPySpace).reverse

/-- Canonical form of a dedup key; `none` for an empty one. -/
def normalise (text : PyText) (value : Value) : Option String :=
  match value with
  | .null => none
  | v =>
    let t := text.lower (strip (text.str v))
    if t = "" then none else some t

structure DedupResult where
  uniqueRows : List EntityRow
  duplicates : List (EntityRow × String)
  missingKeyRows : List EntityRow
  deriving DecidableEq, Repr

/-- `keyed.setdefault(key, []).append(row)` on an insertion-ordered dict. -/
def appendKeyed (key : String) (row : EntityRow) :
    List (String × List EntityRow) → List (String × List EntityRow)
  | [] => [(key, [row])]
  | (k, group) :: rest =>
    if k = key then (k, group ++ [row]) :: rest else (k, group) :: appendKeyed key row rest

def keyOf (text : PyText) (field : String) (row : EntityRow) : Option String :=
  normalise text (row.get field)

def keyedRows (text : PyText) (field : String) (rows : List EntityRow) :
    List (String × List EntityRow) :=
  rows.foldl (fun keyed row =>
    match keyOf text field row with
    | none => keyed
    | some key => appendKeyed key row keyed) []

def missingRows (text : PyText) (field : String) (rows : List EntityRow) : List EntityRow :=
  rows.filter (fun row => (keyOf text field row).isNone)

/-- The keys in the order of the INSERT's VALUES list. -/
def insertKeys (text : PyText) (field : String) (rows : List EntityRow) : List String :=
  sortedNames ((keyedRows text field rows).map Prod.fst)

def groupWinners (claimed : List String) (group : String × List EntityRow) : List EntityRow :=
  if group.1 ∈ claimed then group.2.take 1 else []

def groupLosers (claimed : List String) (group : String × List EntityRow) :
    List (EntityRow × String) :=
  (if group.1 ∈ claimed then group.2.drop 1 else group.2).map (fun row => (row, group.1))

/-- `partition_duplicates`, given the keys its INSERT statement returns. -/
def partitionDuplicates (text : PyText) (field : String) (rows : List EntityRow)
    (claimed : List String) : DedupResult :=
  let keyed := keyedRows text field rows
  let missing := missingRows text field rows
  { uniqueRows := missing ++ keyed.flatMap (groupWinners claimed)
    duplicates := keyed.flatMap (groupLosers claimed)
    missingKeyRows := missing }

end BulkActions
