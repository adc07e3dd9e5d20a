import LogShipping.Proofs.Key.Order

/-!
# The ordered map

What a store is asked and what it should answer, in the terms of a mathematical map: every key, a list
of octets, has a value or none, and keys stand in the order of lists. The map says of an answer whether
it is right (`Answers`), not how it is found. There is never more than one right answer
(`Answers.unique`), so there is one right list of answers to a list of requests (`Follows.unique`).

The map is a function and knows no rows, no order of insertion and no engine. A search is right if it
names the greatest key below a bound, or the smallest keys within bounds, all of them if there are no
more than were asked for; nobody searches in saying so.

That there is a right answer is not clear from here, since a map may have infinitely many keys. It is
where an engine gives one (`Proofs.Store.Interchange`), and uniqueness makes it the answer of the other
engine as well.
-/

namespace LogShipping

/-! ## Requests and answers -/

/-- What a store can be asked. -/
inductive StoreRequest where
  | get (key : Bytes)
  | put (key value : Bytes)
  | delete (key : Bytes)
  | writeBatch (ops : List BatchOp)
  | seekPrev (key : Bytes)
  | scan (start stop : Bytes) (limit : UInt64)
  deriving DecidableEq, Repr

/-- What a store answers. -/
inductive StoreAnswer where
  | value (value : Option Bytes)
  | done
  | row (found : Option Row)
  | rows (found : List Row)
  deriving DecidableEq, Repr

/-- The operations that a request has done on the rows, in their order. -/
def StoreRequest.ops : StoreRequest → List BatchOp
  | .put key value => [.put key value]
  | .delete key => [.delete key]
  | .writeBatch ops => ops
  | .get _ | .seekPrev _ | .scan _ _ _ => []

/-! ## The map -/

/-- Values by key. -/
def OrderedMap := Bytes → Option Bytes

namespace OrderedMap

variable {m : OrderedMap}

/-- The map without keys. -/
def empty : OrderedMap := fun _ => none

/-- The map after one operation: the key of the operation has a new value or none, all others have what
they had. -/
def after (m : OrderedMap) : BatchOp → OrderedMap
  | .put key value => fun other => if other = key then some value else m other
  | .delete key => fun other => if other = key then none else m other

/-- The map after operations in their order. -/
def afterAll (m : OrderedMap) (ops : List BatchOp) : OrderedMap := ops.foldl after m

/-- The row found is the one with the greatest key below `key`, and none is found if there is none. -/
def IsLastBefore (m : OrderedMap) (key : Bytes) : Option Row → Prop
  | none => ∀ other < key, m other = none
  | some (found, value) =>
    m found = some value ∧ found < key ∧ ∀ other < key, m other ≠ none → other ≤ found

/-- The rows are the ones with the `limit` smallest keys from `start` on below `stop`, in the order of
their keys; all of them, if there are no more. -/
structure IsFirstWithin (m : OrderedMap) (start stop : Bytes) (limit : Nat) (rows : List Row) :
    Prop where
  sorted : rows.Pairwise fun a b => a.1 < b.1
  held : ∀ row ∈ rows, m row.1 = some row.2
  within : ∀ row ∈ rows, start ≤ row.1 ∧ row.1 < stop
  limited : rows.length ≤ limit
  smallest : ∀ key value, m key = some value → start ≤ key → key < stop →
    (key, value) ∈ rows ∨ rows.length = limit ∧ ∀ row ∈ rows, row.1 < key

/-- Whether an answer is right. -/
def Answers (m : OrderedMap) : StoreRequest → StoreAnswer → Prop
  | .get key, .value value => value = m key
  | .put _ _, .done => True
  | .delete _, .done => True
  | .writeBatch _, .done => True
  | .seekPrev key, .row found => m.IsLastBefore key found
  | .scan start stop limit, .rows found => m.IsFirstWithin start stop limit.toNat found
  | _, _ => False

/-- Whether the answers to requests are right, one after the other. -/
def Follows (m : OrderedMap) : List StoreRequest → List StoreAnswer → Prop
  | [], [] => True
  | request :: requests, answer :: answers =>
    m.Answers request answer ∧ (m.afterAll request.ops).Follows requests answers
  | _, _ => False

/-! ## Right answers are unique -/

theorem IsLastBefore.unique {key : Bytes} {found found' : Option Row} (h : m.IsLastBefore key found)
    (h' : m.IsLastBefore key found') : found = found' := by
  have hheld {k v : Bytes} (hk : m k = some v) : m k ≠ none := by
    rw [hk]
    exact Option.some_ne_none v
  match found, found', h, h' with
  | none, none, _, _ => rfl
  | none, some (k, v), hnone, ⟨hk, hbefore, _⟩ => exact absurd (hnone k hbefore) (hheld hk)
  | some (k, v), none, ⟨hk, hbefore, _⟩, hnone => exact absurd (hnone k hbefore) (hheld hk)
  | some (k, v), some (k', v'), ⟨hk, hbefore, hlast⟩, ⟨hk', hbefore', hlast'⟩ =>
    obtain rfl : k = k' := List.le_antisymm (hlast' k hbefore (hheld hk)) (hlast k' hbefore' (hheld hk'))
    rw [Option.some.inj (hk.symm.trans hk')]

/-- Two selections of the smallest rows have the same rows. -/
theorem IsFirstWithin.subset {start stop : Bytes} {limit : Nat} {rows rows' : List Row}
    (h : m.IsFirstWithin start stop limit rows) (h' : m.IsFirstWithin start stop limit rows') :
    rows ⊆ rows' := by
  intro row hrow
  obtain ⟨hstart, hstop⟩ := h.within row hrow
  rcases h'.smallest row.1 row.2 (h.held row hrow) hstart hstop with hmem | ⟨hfull, hbelow⟩
  · exact hmem
  · -- all of the other rows come before this one, so they are among the rows of the first selection,
    -- which then has one more than the limit
    have hothers : row :: rows' ⊆ rows := by
      intro other hother
      rcases List.mem_cons.mp hother with rfl | hother
      · exact hrow
      · obtain ⟨hstart', hstop'⟩ := h'.within other hother
        refine (h.smallest other.1 other.2 (h'.held other hother) hstart' hstop').resolve_right ?_
        exact fun habove => List.lt_asymm (habove.2 row hrow) (hbelow other hother)
    have hnew : row ∉ rows' := fun hmem => List.lt_irrefl _ (hbelow row hmem)
    have hnodup := List.nodup_cons.mpr ⟨hnew, Rows.nodup_of_increasing h'.sorted⟩
    have hcount := (List.subperm_of_subset hnodup hothers).length_le
    rw [List.length_cons, hfull] at hcount
    exact absurd (hcount.trans h.limited) (Nat.not_succ_le_self limit)

theorem IsFirstWithin.unique {start stop : Bytes} {limit : Nat} {rows rows' : List Row}
    (h : m.IsFirstWithin start stop limit rows) (h' : m.IsFirstWithin start stop limit rows') :
    rows = rows' :=
  Rows.eq_of_increasing h.sorted h'.sorted fun _ =>
    ⟨fun hmem => h.subset h' hmem, fun hmem => h'.subset h hmem⟩

theorem Answers.unique {request : StoreRequest} {answer answer' : StoreAnswer}
    (h : m.Answers request answer) (h' : m.Answers request answer') : answer = answer' := by
  match request, answer, answer', h, h' with
  | .get _, .value _, .value _, rfl, rfl => rfl
  | .put _ _, .done, .done, _, _ => rfl
  | .delete _, .done, .done, _, _ => rfl
  | .writeBatch _, .done, .done, _, _ => rfl
  | .seekPrev _, .row _, .row _, h, h' => exact congrArg StoreAnswer.row (IsLastBefore.unique h h')
  | .scan _ _ _, .rows _, .rows _, h, h' => exact congrArg StoreAnswer.rows (IsFirstWithin.unique h h')

/-- There is one list of right answers. -/
theorem Follows.unique {requests : List StoreRequest} {answers answers' : List StoreAnswer}
    (h : m.Follows requests answers) (h' : m.Follows requests answers') : answers = answers' := by
  induction requests generalizing m answers answers' with
  | nil =>
    match answers, answers', h, h' with
    | [], [], _, _ => rfl
  | cons request requests ih =>
    match answers, answers', h, h' with
    | answer :: answers, answer' :: answers', h, h' => rw [h.1.unique h'.1, ih h.2 h'.2]

end OrderedMap

end LogShipping
