import LogShipping.Bytes
import Std.Data.ExtTreeMap

/-!
# Ordered rows

The content of a store: values by key, in bytewise order of the keys. Equal rows are equal as maps,
however they came about. A batch applies its operations in order, later ones over earlier ones.
-/

namespace LogShipping

/-- Values by key, in bytewise order of the keys. -/
abbrev Rows := Std.ExtTreeMap Bytes Bytes

/-- A row, as searches return it. -/
abbrev Row := Bytes × Bytes

/-- One operation of a batch. -/
inductive BatchOp where
  /-- Writes a key, over any value that it has. -/
  | put (key value : Bytes)
  /-- Removes a key, if it is there. -/
  | delete (key : Bytes)
  deriving DecidableEq, Repr

/-- The key that an operation touches. -/
def BatchOp.key : BatchOp → Bytes
  | .put key _ => key
  | .delete key => key

namespace Rows

/-- The rows after one operation. -/
def apply (rows : Rows) : BatchOp → Rows
  | .put key value => rows.insert key value
  | .delete key => rows.erase key

/-- The rows after a batch. -/
def applyAll (rows : Rows) (ops : List BatchOp) : Rows := ops.foldl apply rows

/-- Where a value is found there is a row. -/
theorem mem_of_getElem? {rows : Rows} {key value : Bytes} (h : rows[key]? = some value) :
    key ∈ rows := by
  rw [Std.ExtTreeMap.mem_iff_isSome_getElem?, h]
  rfl

theorem getElem?_apply (rows : Rows) (op : BatchOp) (key : Bytes) :
    (rows.apply op)[key]? =
      if op.key = key then (match op with | .put _ value => some value | .delete _ => none)
      else rows[key]? := by
  cases op with
  | put k v =>
    by_cases h : k = key <;> simp [apply, BatchOp.key, Std.ExtTreeMap.getElem?_insert, h]
  | delete k =>
    by_cases h : k = key <;> simp [apply, BatchOp.key, Std.ExtTreeMap.getElem?_erase, h]

@[simp] theorem applyAll_nil (rows : Rows) : rows.applyAll [] = rows := rfl

@[simp] theorem applyAll_cons (rows : Rows) (op : BatchOp) (ops : List BatchOp) :
    rows.applyAll (op :: ops) = (rows.apply op).applyAll ops := rfl

theorem applyAll_append (rows : Rows) (first second : List BatchOp) :
    rows.applyAll (first ++ second) = (rows.applyAll first).applyAll second :=
  List.foldl_append

/-- A batch leaves every key alone that none of its operations touches. -/
theorem getElem?_applyAll_of_notMem (rows : Rows) (ops : List BatchOp) (key : Bytes)
    (h : key ∉ ops.map BatchOp.key) : (rows.applyAll ops)[key]? = rows[key]? := by
  induction ops generalizing rows with
  | nil => rfl
  | cons op ops ih =>
    simp only [List.map_cons, List.mem_cons, not_or] at h
    rw [applyAll_cons, ih _ h.2, getElem?_apply, if_neg (Ne.symm h.1)]

end Rows

/-- Whether the first key comes strictly before the second. -/
def Bytes.before (a b : Bytes) : Bool := (compare a b).isLT

end LogShipping
