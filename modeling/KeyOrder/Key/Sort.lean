import KeyOrder.Key.Basic

/-!
# KeyOrder.Key.Sort

Sorting keys. The comparisons of all pairs are made first, row by row, with one power table for
all of them (`CrossTable.rows`, for values of any type); the positions of the keys are then
sorted by them, equal keys in the order in which they came. If one of the comparisons fails the
keys have no order.
-/

namespace KeyOrder

namespace CrossTable

variable {α β : Type}

/-- One value against each of `values`. -/
def row (compare : α → α → PowerTable → β × PowerTable) (a : α) :
    List α → PowerTable → List β × PowerTable
  | [], powers => ([], powers)
  | b :: values, powers =>
    let (cell, powers) := compare a b powers
    let (cells, powers) := row compare a values powers
    (cell :: cells, powers)

/-- A row for each of `lefts`. -/
def rowsFrom (compare : α → α → PowerTable → β × PowerTable) (values : List α) :
    List α → PowerTable → List (List β) × PowerTable
  | [], powers => ([], powers)
  | a :: lefts, powers =>
    let (cells, powers) := row compare a values powers
    let (rows, powers) := rowsFrom compare values lefts powers
    (cells :: rows, powers)

def rows (compare : α → α → PowerTable → β × PowerTable) (values : List α)
    (powers : PowerTable) : List (List β) × PowerTable :=
  rowsFrom compare values values powers

end CrossTable

namespace Key

/-- Comparisons of every key with every key. -/
abbrev Comparisons := List (List (Except DecodeError Ordering))

namespace Comparisons

/-- Every key of `keys` against every one. -/
def ofKeys (fields : List FieldOrdering) (keys : List Bytes) (powers : PowerTable) :
    Comparisons × PowerTable :=
  CrossTable.rows (Key.compare fields) keys powers

def isComplete (rows : Comparisons) : Bool := rows.all fun row => row.all Except.isOk

/-- Whether the key at `i` may stand before the key at `j`. -/
def notAfter (rows : Comparisons) (i j : Nat) : Bool :=
  match rows[i]?.bind fun row => row[j]? with
  | some (.ok .gt) => false
  | _ => true

/-- The positions of the keys in sorted order. -/
def sorted? (rows : Comparisons) : Option (List Nat) :=
  if rows.isComplete then
    some ((List.range rows.length).mergeSort rows.notAfter)
  else
    none

end Comparisons

end Key

end KeyOrder
