import LogShipping.Proofs.Store.OrderedMap
import LogShipping.Proofs.Store.Search
import LogShipping.Store

/-!
# Either engine

A store that starts empty answers every list of requests as the ordered map does (`OrderedMap.Follows`),
whichever engine searches its rows, so the engines may stand in for each other (`engines_interchange`).
The rows denote a map (`Rows.denote`), every request changes rows and map alike, and each engine's
searches are what the map asks for. For the table there is one condition: a limit above the signed range
is no limit there, so it must not be less than the rows there are (`Rows.Countable`).

The condition is about more than 2^63 rows, and no store gets there: what a list of requests writes is
countable whenever it has fewer operations than that (`countable_of_length`). Limits themselves are any
numbers of 64 bits, nothing and the greatest among them.

Agreement is one induction over the requests, for any engine whose replies are right (`exists_follows`),
with what a reply needs as a parameter; the engines come in at its end. Requests are answered without an
outage, one after the other. What either engine keeps on disk, and whether it survives a crash, is
beyond what is modelled of it.
-/

namespace LogShipping

open Std

/-! ## Rows as a map -/

namespace Rows

/-- The map that rows stand for. -/
def denote (rows : Rows) : OrderedMap := fun key => rows[key]?

theorem denote_empty : (∅ : Rows).denote = .empty :=
  funext fun _ => ExtTreeMap.getElem?_empty

theorem denote_apply (rows : Rows) (op : BatchOp) : (rows.apply op).denote = rows.denote.after op := by
  funext key
  rw [denote, getElem?_apply]
  cases op with
  | put written value => exact ite_congr (propext eq_comm) (fun _ => rfl) fun _ => rfl
  | delete removed => exact ite_congr (propext eq_comm) (fun _ => rfl) fun _ => rfl

/-- A batch does to the map what its operations do in their order. -/
theorem denote_applyAll (rows : Rows) (ops : List BatchOp) :
    (rows.applyAll ops).denote = rows.denote.afterAll ops := by
  induction ops generalizing rows with
  | nil => rfl
  | cons op ops ih =>
    rw [applyAll_cons, ih, denote_apply]
    rfl

/-- There is a row where the map has a value. -/
theorem mem_iff_denote {rows : Rows} {key : Bytes} : key ∈ rows ↔ rows.denote key ≠ none := by
  rw [ExtTreeMap.mem_iff_isSome_getElem?, Option.isSome_iff_ne_none]
  rfl

/-- The rows of a map are what it holds. -/
theorem mem_toList_iff_denote {rows : Rows} {row : Row} :
    row ∈ rows.toList ↔ rows.denote row.1 = some row.2 :=
  ExtTreeMap.mem_toList_iff_getElem?_eq_some

/-! ## Rows that a signed limit can count -/

/-- Wherever a limit above the signed range is asked for, that range counts the rows. No store outgrows
it: an address space of 2 ^ 64 octets has no room for 2 ^ 63 rows of several octets each. -/
def Countable (rows : Rows) : List StoreRequest → Prop
  | [] => True
  | request :: requests =>
    (∀ start stop limit, request = .scan start stop limit →
      limit.toNat < 2 ^ 63 ∨ rows.size ≤ 2 ^ 63) ∧ (rows.applyAll request.ops).Countable requests

theorem size_apply_le (rows : Rows) (op : BatchOp) : (rows.apply op).size ≤ rows.size + 1 := by
  cases op with
  | put key value => exact ExtTreeMap.size_insert_le
  | delete key => exact ExtTreeMap.size_erase_le.trans (Nat.le_succ _)

theorem size_applyAll_le (rows : Rows) (ops : List BatchOp) :
    (rows.applyAll ops).size ≤ rows.size + ops.length := by
  induction ops generalizing rows with
  | nil => exact Nat.le_refl _
  | cons op ops ih =>
    calc ((rows.apply op).applyAll ops).size
        ≤ (rows.apply op).size + ops.length := ih _
      _ ≤ rows.size + 1 + ops.length := Nat.add_le_add_right (size_apply_le rows op) _
      _ = rows.size + (op :: ops).length := by rw [List.length_cons]; omega

/-- Requests that do not write too much leave the rows countable. -/
theorem countable_of_length {rows : Rows} {requests : List StoreRequest}
    (h : rows.size + (requests.flatMap StoreRequest.ops).length ≤ 2 ^ 63) : rows.Countable requests := by
  induction requests generalizing rows with
  | nil => trivial
  | cons request requests ih =>
    rw [List.flatMap_cons, List.length_append] at h
    refine ⟨fun _ _ _ _ => Or.inr (by omega), ih ?_⟩
    have hsize := size_applyAll_le rows request.ops
    omega

end Rows

/-! ## Searches as the map asks for -/

namespace Engine

/-- What is found before a key is the row with the greatest key below it. -/
theorem isLastBefore_seekPrev (engine : Engine) (rows : Rows) (key : Bytes) :
    rows.denote.IsLastBefore key (engine.seekPrev rows key) := by
  cases hfound : engine.seekPrev rows key with
  | none =>
    intro other hother
    by_contra hheld
    obtain ⟨k, v, hsome, -⟩ :=
      exists_seekPrev engine (Rows.mem_iff_denote.mpr hheld) (Bytes.before_iff_lt.mpr hother)
    rw [hfound] at hsome
    cases hsome
  | some row =>
    have hrow := hfound
    rw [seekPrev_eq_getLast?] at hrow
    obtain ⟨hmem, hbefore⟩ := List.mem_filter.mp (List.mem_of_getLast? hrow)
    have hheld := Rows.mem_toList_iff_denote.mp hmem
    obtain ⟨k, v, hsome, -, -, hlast⟩ := exists_seekPrev engine (Rows.mem_of_getElem? hheld) hbefore
    obtain rfl : row = (k, v) := Option.some.inj (hfound.symm.trans hsome)
    refine ⟨hheld, Bytes.before_iff_lt.mp hbefore, fun other hother hpresent => ?_⟩
    have hbetween := hlast other (Rows.mem_iff_denote.mpr hpresent) (Bytes.before_iff_lt.mpr hother)
    exact fun hlt => Bool.eq_false_iff.mp hbetween (Bytes.before_iff_lt.mpr hlt)

/-- The first rows of a range are the ones with the smallest keys in it. -/
theorem isFirstWithin_take (rows : Rows) (start stop : Bytes) (limit : Nat) :
    rows.denote.IsFirstWithin start stop limit ((rows.toList.filter fun row =>
      !Bytes.before row.1 start && Bytes.before row.1 stop).take limit) := by
  set range := rows.toList.filter fun row =>
    !Bytes.before row.1 start && Bytes.before row.1 stop with hrange
  have hin (row : Row) :
      row ∈ range ↔ rows.denote row.1 = some row.2 ∧ start ≤ row.1 ∧ row.1 < stop := by
    rw [hrange, List.mem_filter, Rows.mem_toList_iff_denote, Bool.and_eq_true, Bool.not_eq_true',
      Bool.eq_false_iff, Ne, Bytes.before_iff_lt, Bytes.before_iff_lt]
    rfl
  have sorted : range.Pairwise fun a b => a.1 < b.1 := (increasing_toList rows).filter _
  constructor
  case sorted => exact sorted.sublist (List.take_sublist _ _)
  case held => exact fun row hrow => ((hin row).mp (List.mem_of_mem_take hrow)).1
  case within => exact fun row hrow => ((hin row).mp (List.mem_of_mem_take hrow)).2
  case limited => exact List.length_take_le _ _
  case smallest =>
    intro key value hheld hstart hstop
    have hmem := (hin (key, value)).mpr ⟨hheld, hstart, hstop⟩
    rw [← List.take_append_drop limit range] at hmem sorted
    rcases List.mem_append.mp hmem with htaken | hleft
    · exact Or.inl htaken
    · -- a row is left over, so the limit is reached, and the rows before it are the smaller ones
      refine Or.inr ⟨?_, fun row hrow => (List.pairwise_append.mp sorted).2.2 row hrow _ hleft⟩
      have hmore := List.length_pos_of_mem hleft
      rw [List.length_drop] at hmore
      rw [List.length_take]
      omega

/-- What a store with these rows answers if nothing goes wrong. -/
def reply (engine : Engine) (rows : Rows) : StoreRequest → StoreAnswer
  | .get key => .value rows[key]?
  | .put _ _ | .delete _ | .writeBatch _ => .done
  | .seekPrev key => .row (engine.seekPrev rows key)
  | .scan start stop limit => .rows (engine.scan rows start stop limit)

/-- A reply is right if the search in a scan is. -/
theorem answers_reply {engine : Engine} {rows : Rows} {request : StoreRequest}
    (hscan : ∀ start stop limit, request = .scan start stop limit →
      rows.denote.IsFirstWithin start stop limit.toNat (engine.scan rows start stop limit)) :
    rows.denote.Answers request (engine.reply rows request) := by
  cases request with
  | get key => rfl
  | put key value => trivial
  | delete key => trivial
  | writeBatch ops => trivial
  | seekPrev key => exact isLastBefore_seekPrev engine rows key
  | scan start stop limit => exact hscan start stop limit rfl

theorem tree_answers (rows : Rows) (request : StoreRequest) :
    rows.denote.Answers request (Engine.tree.reply rows request) := by
  refine answers_reply fun start stop limit _ => ?_
  show rows.denote.IsFirstWithin start stop limit.toNat (treeScan rows start stop limit)
  rw [treeScan_eq_take]
  exact isFirstWithin_take rows start stop limit.toNat

theorem table_answers {rows : Rows} {request : StoreRequest}
    (hcount : ∀ start stop limit, request = .scan start stop limit →
      limit.toNat < 2 ^ 63 ∨ rows.size ≤ 2 ^ 63) :
    rows.denote.Answers request (Engine.table.reply rows request) := by
  refine answers_reply fun start stop limit hrequest => ?_
  show rows.denote.IsFirstWithin start stop limit.toNat (tableScan rows start stop limit)
  rw [tableScan_eq_take]
  · exact isFirstWithin_take rows start stop limit.toNat
  · refine (hcount start stop limit hrequest).imp_right fun hsize => ?_
    rw [← ExtTreeMap.length_toList] at hsize
    exact (List.length_filter_le _ _).trans hsize

end Engine

/-! ## Requests of a store -/

namespace Store

/-- Asks a store for an answer. -/
def answer : StoreRequest → Access StoreAnswer
  | .get key => return .value (← lookup key)
  | .put key value => do
    put key value
    return .done
  | .delete key => do
    delete key
    return .done
  | .writeBatch ops => do
    writeBatch ops
    return .done
  | .seekPrev key => return .row (← seekPrev key)
  | .scan start stop limit => return .rows (← scan start stop limit)

/-- What a store answers to requests, one after the other. -/
def answersTo (s : Store) : List StoreRequest → List (Except Error StoreAnswer)
  | [] => []
  | request :: requests =>
    let (answered, left) := (answer request).run.run s
    answered :: left.answersTo requests

/-- Without an outage a request is answered from the rows, and its operations are done on them. -/
theorem run_answer (engine : Engine) (rows : Rows) (request : StoreRequest) :
    (answer request).run.run { engine := engine, rows := rows } =
      (.ok (engine.reply rows request), { engine := engine, rows := rows.applyAll request.ops }) := by
  cases request <;> rfl

/-- What an engine replies to requests is right all along if each reply is. -/
theorem exists_follows (engine : Engine) (Admits : Rows → List StoreRequest → Prop)
    (hadmits : ∀ rows request requests, Admits rows (request :: requests) →
      rows.denote.Answers request (engine.reply rows request) ∧
      Admits (rows.applyAll request.ops) requests)
    (rows : Rows) {requests : List StoreRequest} (h : Admits rows requests) :
    ∃ answers, rows.denote.Follows requests answers ∧
      answersTo { engine := engine, rows := rows } requests = answers.map .ok := by
  induction requests generalizing rows with
  | nil => exact ⟨[], trivial, rfl⟩
  | cons request requests ih =>
    obtain ⟨hanswer, hrest⟩ := hadmits rows request requests h
    obtain ⟨answers, hfollows, hanswers⟩ := ih _ hrest
    refine ⟨engine.reply rows request :: answers, ⟨hanswer, ?_⟩, ?_⟩
    · rw [← Rows.denote_applyAll]
      exact hfollows
    · rw [answersTo, run_answer, List.map_cons]
      exact congrArg _ hanswers

/-- Whatever a store that starts empty is asked, there is one right list of answers, that of the ordered
map. The tree gives these answers, and so does the table as long as its rows can be counted. -/
theorem engines_interchange (requests : List StoreRequest) :
    ∃ answers, OrderedMap.empty.Follows requests answers ∧
      (∀ others, OrderedMap.empty.Follows requests others → others = answers) ∧
      answersTo { engine := .tree } requests = answers.map .ok ∧
      ((∅ : Rows).Countable requests →
        answersTo { engine := .table } requests = answers.map .ok) := by
  obtain ⟨answers, hfollows, htree⟩ := exists_follows .tree (fun _ _ => True)
    (fun rows request _ _ => ⟨Engine.tree_answers rows request, trivial⟩) ∅ trivial
  rw [Rows.denote_empty] at hfollows
  refine ⟨answers, hfollows, fun others hothers => hothers.unique hfollows, htree, fun hcount => ?_⟩
  obtain ⟨answers', hfollows', htable⟩ := exists_follows .table Rows.Countable
    (fun rows request _ hcount => ⟨Engine.table_answers hcount.1, hcount.2⟩) ∅ hcount
  rw [Rows.denote_empty] at hfollows'
  rw [hfollows.unique hfollows']
  exact htable

/-- Requests with an empty key, an empty value, a key twice in a batch, bounds the wrong way round, and
limits at both ends of the range. -/
def borderline : List StoreRequest :=
  [.put [] [], .writeBatch [.put [2] [1], .put [2] [2], .put [3] [], .delete [3]], .delete [9],
    .seekPrev [2], .scan [2] [1] 5, .scan [] [9] 0, .scan [] [9] 18446744073709551615, .get [3]]

theorem engines_interchange_borderline :
    (∅ : Rows).Countable borderline ∧
    answersTo { engine := .table } borderline =
      [.ok .done, .ok .done, .ok .done, .ok (.row (some ([], []))), .ok (.rows []), .ok (.rows []),
        .ok (.rows [([], []), ([2], [2])]), .ok (.value none)] := by
  have hcount : (∅ : Rows).Countable borderline := by
    apply Rows.countable_of_length
    rw [ExtTreeMap.size_empty]
    decide
  obtain ⟨answers, -, -, htree, htable⟩ := engines_interchange borderline
  exact ⟨hcount, (htable hcount).trans (htree.symm.trans (by rfl))⟩

end Store

end LogShipping
