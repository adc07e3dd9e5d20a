import LogShipping.Store.Rows

/-!
# Search engines

Two engines search the same rows. The tree walks its rows in order from the lower bound on. The table
filters by a condition, sorts, and cuts off at a signed limit, where a negative limit means none. A
limit above the signed range therefore reaches the table as "no limit", which no store is large
enough to tell from the limit itself.
-/

namespace LogShipping

/-- How a store searches its rows. -/
inductive Engine where
  /-- An ordered tree in memory. -/
  | tree
  /-- A relational table. -/
  | table
  deriving DecidableEq, Repr

namespace Engine

/-! ## The tree -/

/-- The last row whose key comes before `key`: the end of the rows passed on the way to it. -/
def treeSeekPrev (rows : Rows) (key : Bytes) : Option Row :=
  (rows.toList.takeWhile fun row => Bytes.before row.1 key).getLast?

/-- The first `limit` rows from `start` on that come before `stop`. -/
def treeScan (rows : Rows) (start stop : Bytes) (limit : UInt64) : List Row :=
  if Bytes.before start stop then
    ((rows.toList.dropWhile fun row => Bytes.before row.1 start).takeWhile
      fun row => Bytes.before row.1 stop).take limit.toNat
  else []

/-! ## The table -/

/-- The first rows of a selection, a negative limit meaning all of them. -/
def limited (limit : Int64) (rows : List Row) : List Row :=
  if limit < 0 then rows else rows.take limit.toInt.toNat

/-- The selected rows in descending order, cut off after one. -/
def tableSeekPrev (rows : Rows) (key : Bytes) : Option Row :=
  (limited 1 (rows.toList.reverse.filter fun row => Bytes.before row.1 key)).head?

/-- The selected rows in ascending order, cut off at the signed limit. -/
def tableScan (rows : Rows) (start stop : Bytes) (limit : UInt64) : List Row :=
  limited limit.toInt64
    (rows.toList.filter fun row => !Bytes.before row.1 start && Bytes.before row.1 stop)

/-! ## Dispatch -/

/-- The last row whose key comes before `key`. -/
def seekPrev : Engine → Rows → Bytes → Option Row
  | .tree => treeSeekPrev
  | .table => tableSeekPrev

/-- At most `limit` rows from `start` on, in order, that come before `stop`. -/
def scan : Engine → Rows → Bytes → Bytes → UInt64 → List Row
  | .tree => treeScan
  | .table => tableScan

end Engine

end LogShipping
