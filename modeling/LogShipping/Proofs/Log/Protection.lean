import LogShipping.Proofs.Log.Applying
import LogShipping.Proofs.Log.Reopening

/-!
# Keys out of reach

The mutations of an entry belong into the data. A commit looks at their keys and refuses an entry that
touches anything else, while an application trusts the node that committed the entry. For entries that a
commit lets through, both ways of writing leave everything outside the data alone but the two keys of
the entries themselves (`Log.Spares`, `writes_spare_reserved`). An application of any other entry may
take fences away and move the position that is found when the log is opened again
(`reserved_keys_applied`).

Next to nothing is asked of the log itself: its rows and its outage may be anything, and it need not
hold a history; only a commit is asked to find an id left. So the protection does not hang on the log
having been treated well before.

What is spared are rows, by their keys. Sparing says nothing about whether what an entry writes into the
data is any good; the program does not look at values, and neither is it looked at here.
-/

namespace LogShipping

open Std

namespace Log

/-- The log `log'` is the log `log` after it took the entries `new` in and spared what is not theirs:
outside the data, only the record and the place in the time index of these entries are written, no
fence and no earlier record is touched, and a log that can be opened again is found at its position. -/
structure Spares (log : Log) (new : List Entry) (log' : Log) : Prop where
  writes : ∃ ops, log'.store.rows = log.store.rows.applyAll ops ∧
    ∀ op ∈ ops, Key.isData op.key = true ∨ ∃ e ∈ new, op ∈ e.recordOps
  follows : ∀ (i : Nat) (h : i < new.length), new[i].id.toNat = log.position.toNat + i + 1
  position : log'.position.toNat = log.position.toNat + new.length
  fences : ∀ p, log'.store.rows[Key.fence p]? = log.store.rows[Key.fence p]?
  records : ∀ id ≤ log.position, log'.store.rows[Key.log id]? = log.store.rows[Key.log id]?
  reopens : log.Recoverable → (∀ p, Key.fence p ∈ log'.store.rows) ∧
    ∀ standing, ∃ again, ((openOver standing).run.run log'.store).1 = .ok again ∧
      again.store.rows = log'.store.rows ∧ again.position = log'.position

variable {log log' : Log} {new : List Entry}

theorem mem_ops_cases {op : BatchOp} (hdata : ∀ e ∈ new, e.reserved? = none)
    (hop : op ∈ new.flatMap Entry.ops) :
    Key.isData op.key = true ∨ ∃ e ∈ new, op ∈ e.recordOps := by
  obtain ⟨e, he, hop⟩ := List.mem_flatMap.mp hop
  rcases List.mem_append.mp hop with hop | hop
  · exact Or.inr ⟨e, he, hop⟩
  · exact Or.inl (Entry.data_key (Entry.reserved?_eq_none_iff.mp (hdata e he)) hop)

/-- Keys outside the data that do not belong to the entries keep their rows. -/
theorem Took.getElem?_eq (h : log.Took new log') (hdata : ∀ e ∈ new, e.reserved? = none)
    {key : Bytes} (hkey : Key.isData key = false)
    (hown : ∀ e ∈ new, key ≠ Key.log e.id ∧ key ≠ Key.logTime e.timestamp e.id) :
    log'.store.rows[key]? = log.store.rows[key]? := by
  rw [h.rows]
  apply Rows.getElem?_applyAll_of_notMem
  intro hmem
  obtain ⟨op, hop, rfl⟩ := List.mem_map.mp hmem
  rcases mem_ops_cases hdata hop with hop | ⟨e, he, hop⟩
  · rw [hop] at hkey
    cases hkey
  · obtain ⟨hrecord, hindex⟩ := hown e he
    rcases List.mem_cons.mp hop with rfl | hop
    · exact hrecord rfl
    · rw [List.mem_singleton.mp hop] at hindex
      exact hindex rfl

/-- An entry that is taken in has an id beyond the position. -/
theorem Took.position_lt (h : log.Took new log') {e : Entry} (he : e ∈ new) :
    log.position < e.id := by
  obtain ⟨i, hi, rfl⟩ := List.getElem_of_mem he
  rw [UInt64.lt_iff_toNat_lt, h.numbered i hi]
  omega

/-- Entries that a commit lets through are taken in without touching what is not theirs. -/
theorem Took.spares (h : log.Took new log') (hdata : ∀ e ∈ new, e.reserved? = none) :
    log.Spares new log' where
  writes := ⟨_, h.rows, fun _ hop => mem_ops_cases hdata hop⟩
  follows := h.numbered
  position := h.position
  fences p := by
    refine h.getElem?_eq hdata (Key.isData_fence p) fun e he => ⟨?_, ?_⟩
    · intro hfence
      have hlt := UInt64.lt_iff_toNat_lt.mp (h.position_lt he)
      rw [(Key.log_eq_fence_iff.mp hfence.symm).2] at hlt
      exact absurd hlt (Nat.not_lt_zero _)
    · exact (Key.logTime_ne_fence _ _ p).symm
  records id hid := by
    refine h.getElem?_eq hdata (Key.isData_eq_false (Key.partition?_log id) rfl) fun e he => ⟨?_, ?_⟩
    · intro hkey
      rw [Key.log_inj.mp hkey] at hid
      exact UInt64.not_le.mpr (h.position_lt he) hid
    · intro hkey
      have hpartition := congrArg Key.partition? hkey
      rw [Key.partition?_log, Key.partition?_logTime] at hpartition
      cases hpartition
  reopens hlog := by
    have hafter : log'.Recoverable :=
      hlog.took h fun e he => Entry.reserved?_eq_none_iff.mp (hdata e he)
    refine ⟨hafter.rows.fences, fun standing => ?_⟩
    obtain ⟨again, hr, hagain⟩ := hafter.reopen standing
    exact ⟨again, hr, hagain.rows, hagain.position⟩

/-- **What is not an entry's own stays as it is.** In whatever state a log is, a commit of any entry
spares what does not belong to that entry, because it looks at the keys first; so does an application of
any list of entries, as long as each of them would pass the same check. -/
theorem writes_spare_reserved (log : Log) :
    (∀ now e, log.position + 1 ≠ 0 →
      ∃ new, (new = [] ∨ new = [{ e with id := log.position + 1, timestamp := now }]) ∧
        log.Spares new ((commit now e).run.run log).2) ∧
    ∀ entries, (∀ e ∈ entries, e.reserved? = none) →
      ∃ new, new.Sublist entries ∧ log.Spares new (log.applied entries).2 := by
  constructor
  · intro now e hroom
    rcases @ensures_commit log now e hroom with ⟨_, -, htook, rfl, hreserved, -⟩ | ⟨-, hsame, -⟩
    · refine ⟨_, Or.inr rfl, htook.spares fun f hf => ?_⟩
      rw [List.mem_singleton.mp hf]
      exact hreserved
    · rw [hsame]
      exact ⟨[], Or.inl rfl, (Took.refl log).spares fun f hf => absurd hf List.not_mem_nil⟩
  · intro entries hdata
    obtain ⟨new, hsub, htook, -⟩ := @ensures_applyReplicated log entries
    exact ⟨new, hsub, htook.spares fun e he => hdata e (hsub.subset he)⟩

/-- An entry that no commit lets through: it removes a fence and writes a record of the log. -/
def intruder : Entry where
  id := 1
  timestamp := 5
  updater := "x"
  items := [.delete (Key.fence .logTime), .put (Key.log 99) []]

/-- A commit refuses such an entry and leaves the log alone, and a follower applies the entry of an
honest master. -/
theorem writes_spare_reserved_led :
    (fresh alone .tree).position + 1 ≠ 0 ∧
    (∃ new, (new = [] ∨ new = [{ intruder with id := 1, timestamp := 7 }]) ∧
      (fresh alone .tree).Spares new ((commit 7 intruder).run.run (fresh alone .tree)).2) ∧
    (∀ e ∈ [foreign 1, foreign 2], e.reserved? = none) ∧
    ∃ new, new.Sublist [foreign 1, foreign 2] ∧
      (fresh led .table).Spares new ((fresh led .table).applied [foreign 1, foreign 2]).2 := by
  have hdata : ∀ e ∈ [foreign 1, foreign 2], e.reserved? = none := by decide
  exact ⟨by decide, (writes_spare_reserved (fresh alone .tree)).1 7 intruder (by decide), hdata,
    (writes_spare_reserved (fresh led .table)).2 _ hdata⟩

/-- The check is missing where entries are applied: a follower takes the intruder in, loses a fence by
it, and is found at position 99 instead of 1 when it is opened again. -/
theorem reserved_keys_applied :
    let log := fresh led .tree
    let log' := (log.applied [intruder]).2
    log.Recoverable ∧ (log.applied [intruder]).1 = .ok 1 ∧ log'.position = 1 ∧
      Key.fence .logTime ∈ log.store.rows ∧ Key.fence .logTime ∉ log'.store.rows ∧
      (∃ again, ((openOver led).run.run log'.store).1 = .ok again ∧ again.position = 99) ∧
      ∀ new, ¬ log.Spares new log' := by
  intro log log'
  have hthere : Key.fence .logTime ∈ log.store.rows := by decide +kernel
  have hgone : Key.fence .logTime ∉ log'.store.rows := by decide +kernel
  refine ⟨recoverable_fresh led .tree, rfl, by decide +kernel, hthere, hgone, ?_, ?_⟩
  · exact ⟨_, rfl, by decide +kernel⟩
  · intro new h
    exact hgone ((h.reopens (recoverable_fresh led .tree)).1 .logTime)

end Log

end LogShipping
