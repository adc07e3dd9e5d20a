import LogShipping.Proofs.Key.Layout
import LogShipping.Proofs.Log.AppendOnly

/-!
# The log and the data do not meet

Pages of the log, listings by time and the search for the last record all look at keys that come before
the partitions of data. So stores that agree there (`Rows.AgreeBefore`) give the same pages, listings
and last record, and nothing that is written under keys of data shows in any of them
(`keys_keep_apart`).

Work on a store that comes to the same over two stores is closed under going on (`AnswersAlike.bind`),
so the three readers need no lemma but for the calls of the store that they make: a scan is the same
over rows that agree before its upper bound, and a search for the last row before a key over rows that
agree before that key. An outage answers both alike.

That the two do not meet is one-sided here. Writes of data do not show in the log; that writes of the
log do not show in the data is part of what a replay is (`Proofs.Log.Replay`).
-/

namespace LogShipping

open Std

/-! ## Rows before a bound -/

/-- Rows that hold the same before a bound. -/
def Rows.AgreeBefore (bound : Bytes) (rows rows' : Rows) : Prop :=
  ∀ key, key < bound → rows[key]? = rows'[key]?

/-- Rows that agree before a bound agree before a lower one. -/
theorem Rows.AgreeBefore.lower {bound lower : Bytes} {rows rows' : Rows}
    (h : Rows.AgreeBefore bound rows rows') (hlower : lower < bound) :
    Rows.AgreeBefore lower rows rows' :=
  fun key hkey => h key (List.lt_trans hkey hlower)

/-- Writes of data leave everything before the partitions of data alone. -/
theorem Rows.agreeBefore_applyAll (rows : Rows) {ops : List BatchOp}
    (hdata : ∀ op ∈ ops, Key.isData op.key = true) :
    Rows.AgreeBefore (Key.fence .profile) (rows.applyAll ops) rows := by
  intro key hbefore
  apply getElem?_applyAll_of_notMem
  intro hmem
  obtain ⟨op, hop, rfl⟩ := List.mem_map.mp hmem
  exact Key.not_lt_fence_profile (hdata op hop) hbefore

namespace Store

/-! ## Work that answers the same -/

variable {α β : Type}

/-- Work that comes to the same from two stores. -/
def AnswersAlike (work : Access α) (s t : Store) : Prop :=
  (work.run.run s).1 = (work.run.run t).1

/-- Work that goes on without the store comes to the same if its first part does. -/
theorem AnswersAlike.bind {work : Access α} {next : α → Access β} {s t : Store}
    (h : AnswersAlike work s t) (hnext : ∀ a s' t', AnswersAlike (next a) s' t') :
    AnswersAlike (work >>= next) s t := by
  unfold AnswersAlike at h ⊢
  rw [run_bind_work, run_bind_work]
  generalize work.run.run s = before, work.run.run t = after at h
  rcases before with ⟨r, s'⟩
  rcases after with ⟨r', t'⟩
  obtain rfl : r = r' := h
  cases r with
  | error fault => rfl
  | ok a => exact hnext a s' t'

/-- Whether a call is let through depends on the outage alone. -/
theorem exists_run_allow (call : StoreCall) (outage : Option Outage) :
    ∃ (r : Except Error Unit) (left : Option Outage), ∀ engine rows,
      (allow call).run.run ⟨engine, rows, outage⟩ = (r, ⟨engine, rows, left⟩) := by
  rcases outage with _ | ⟨failing, reason, spared⟩
  · exact ⟨.ok (), none, fun engine rows => rfl⟩
  · by_cases hcall : failing = call
    · subst hcall
      cases spared with
      | zero =>
        refine ⟨.error (.storage (.stated reason)), some ⟨failing, reason, 0⟩, fun engine rows => ?_⟩
        cases failing <;> rfl
      | succ spared =>
        refine ⟨.ok (), some ⟨failing, reason, spared⟩, fun engine rows => ?_⟩
        cases failing <;> rfl
    · refine ⟨.ok (), some ⟨failing, reason, spared⟩, fun engine rows => ?_⟩
      show ((ite (failing = call) _ _ : Access Unit)).run.run _ = _
      rw [if_neg hcall]
      rfl

section Rows

variable {s : Store} {rows : Rows}

/-- A call comes to the same over other rows if the work behind it does. -/
theorem alike_allow {call : StoreCall} {work : Access α}
    (h : ∀ outage, AnswersAlike work ⟨s.engine, s.rows, outage⟩ ⟨s.engine, rows, outage⟩) :
    AnswersAlike (do allow call; work) s { s with rows := rows } := by
  obtain ⟨r, left, hrun⟩ := exists_run_allow call s.outage
  unfold AnswersAlike
  rw [run_bind_work, run_bind_work, hrun s.engine rows, hrun s.engine s.rows]
  cases r with
  | error fault => rfl
  | ok allowed => exact h left

/-- A scan comes to the same over rows that agree before its upper bound. -/
theorem alike_scan {start stop : Bytes} (limit : UInt64) (h : Rows.AgreeBefore stop rows s.rows) :
    AnswersAlike (scan start stop limit) s { s with rows := rows } := by
  refine alike_allow fun outage => ?_
  show Except.ok (s.engine.scan s.rows start stop limit) = .ok (s.engine.scan rows start stop limit)
  rw [Engine.scan_congr s.engine limit fun key _ hstop => (h key (Bytes.before_iff_lt.mp hstop)).symm]

/-- So does a search for the last row before a key, over rows that agree before that key. -/
theorem alike_seekPrev {key : Bytes} (h : Rows.AgreeBefore key rows s.rows) :
    AnswersAlike (seekPrev key) s { s with rows := rows } := by
  refine alike_allow fun outage => ?_
  show Except.ok (s.engine.seekPrev s.rows key) = .ok (s.engine.seekPrev rows key)
  rw [Engine.seekPrev_congr s.engine fun other hbefore =>
    (h other (Bytes.before_iff_lt.mp hbefore)).symm]

/-- The last number of a partition depends on the rows before the next partition. -/
theorem alike_lastSequence {p next : Partition} (hnext : p.next? = some next)
    (h : Rows.AgreeBefore (Key.fence next) rows s.rows) :
    AnswersAlike (lastSequence p) s { s with rows := rows } := by
  unfold lastSequence
  rw [hnext]
  refine (alike_seekPrev h).bind fun found s' t' => ?_
  -- what becomes of the row found does not depend on the store
  rcases found with _ | ⟨key, value⟩
  · rfl
  · simp only
    split
    · cases Key.sequence? key <;> rfl
    · rfl

end Rows

end Store

namespace Log

open Store

variable {s : Store} {rows : Rows}

/-! ## The log over other data -/

/-- A page depends on the rows before the time index. -/
theorem alike_readLog (position : LogId) (now : Instant) (lastSeen : LogId) (limit : UInt32)
    (h : Rows.AgreeBefore (Key.upperBound .log) rows s.rows) :
    AnswersAlike (readLog position now lastSeen limit) s { s with rows := rows } := by
  unfold readLog
  by_cases hahead : position < lastSeen
  · simp only [if_pos hahead]
    rfl
  · by_cases hcurrent : lastSeen = position
    · simp only [if_neg hahead, if_pos hcurrent]
      rfl
    · simp only [if_neg hahead, if_neg hcurrent]
      refine (alike_scan _ h).bind fun found s' t' => ?_
      -- the entries are read off the rows found
      cases hentries : entriesFrom (lastSeen + 1) found with
      | error fault => rfl
      | ok page => rfl

/-- A listing depends on the rows before the profiles. -/
theorem alike_idsSince (since : Instant) (limit : UInt64)
    (h : Rows.AgreeBefore (Key.upperBound .logTime) rows s.rows) :
    AnswersAlike (idsSince since limit) s { s with rows := rows } :=
  (alike_scan limit h).bind fun _ _ _ => rfl

/-- Keys stand in the order of partition, sequence number and suffix, and say what partition and number
they were made of. Keys of data lie in exactly one of the partitions of data and clear of all that
belongs to the log, so that writes of data change no page, no listing by time and no last record that
is found. -/
theorem keys_keep_apart :
    (∀ (p q : Partition) (s t : UInt64) (x y : Bytes),
      Key.encode p s x < Key.encode q t y ↔ p.Precedes q ∨ p = q ∧ (s < t ∨ s = t ∧ x < y)) ∧
    (∀ (p : Partition) (s : UInt64) (x : Bytes),
      Key.partition? (Key.encode p s x) = some p ∧ Key.sequence? (Key.encode p s x) = some s) ∧
    (∀ key, Key.isData key = true → Key.Apart key) ∧
    ∀ (store : Store) (ops : List BatchOp), (∀ op ∈ ops, Key.isData op.key = true) →
      let written := { store with rows := store.rows.applyAll ops }
      (∀ position now lastSeen limit,
        AnswersAlike (readLog position now lastSeen limit) store written) ∧
      (∀ since limit, AnswersAlike (idsSince since limit) store written) ∧
      AnswersAlike (lastSequence .log) store written := by
  refine ⟨fun p q s t x y => Key.encode_lt_encode_iff,
    fun p s x => ⟨Key.partition?_encode p s x, Key.sequence?_encode p s x⟩,
    fun key => Key.apart_of_isData, fun store ops hdata => ?_⟩
  have hagree := Rows.agreeBefore_applyAll store.rows hdata
  have hlog : Rows.AgreeBefore (Key.fence .logTime) (store.rows.applyAll ops) store.rows :=
    hagree.lower (Key.encode_lt_encode_iff.mpr (Or.inl (by decide)))
  exact ⟨fun position now lastSeen limit => alike_readLog position now lastSeen limit hlog,
    fun since limit => alike_idsSince since limit hagree, alike_lastSequence rfl hlog⟩

/-- A key of a blob may begin like the fence of the blobs. -/
theorem keys_keep_apart_blob :
    Key.Apart (Key.encode .blob 0 [110]) ∧
    AnswersAlike (lastSequence .log) (fresh alone .tree).store
      { (fresh alone .tree).store with
        rows := (fresh alone .tree).store.rows.applyAll [.put (Key.encode .blob 0 [110]) []] } :=
  ⟨keys_keep_apart.2.2.1 _ (by decide),
    (keys_keep_apart.2.2.2 (fresh alone .tree).store [.put (Key.encode .blob 0 [110]) []]
      (by simp only [List.mem_singleton, forall_eq]; decide)).2.2⟩

end Log

end LogShipping
