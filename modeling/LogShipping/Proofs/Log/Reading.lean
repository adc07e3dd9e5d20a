import LogShipping.Proofs.Log.Holding

/-!
# What a log hands out

A log that holds a history hands out the entries of that history: one by one (`ensures_readOne`) and in
pages, which report its position (`ensures_readLog`). Opened again over its store, it stands where it
stood (`ensures_reopen`), because the last key before the time index is that of the last entry.

Each lemma says what comes back and, in the other cases, why nothing does: the reader is ahead, the
store refuses the scan, or the history has an entry of the last id, behind which the search for more
breaks down. Nothing is changed by reading but an outage come closer, so what was read can be read
again.

It is enough for all that follows that the entries handed out are ones of the history. Which of them
come in a page, and how many, is the subject of `Proofs.Log.Pages`, where it is not assumed that the log
holds a history.
-/

namespace LogShipping

open Std

namespace Rows

variable {entries : List Entry}

/-! ## The rows of a replay -/

theorem fence_mem_replay (h : IsHistory entries) (p : Partition) : Key.fence p ∈ replay entries :=
  mem_of_getElem? (getElem?_replay_fence h p)

theorem headed_replay (h : IsHistory entries) : (replay entries).Headed := by
  intro key hkey
  cases hdata : Key.isData key with
  | true =>
    obtain ⟨p, hp, -, -, hlength⟩ := Key.isData_spec hdata
    exact ⟨p, Key.exists_encode hp hlength⟩
  | false =>
    rcases (mem_replay_iff h hdata).mp hkey with ⟨p, rfl⟩ | ⟨e, -, rfl | rfl⟩
    · exact ⟨p, 0, [], rfl⟩
    · exact ⟨.log, e.id, [], rfl⟩
    · exact ⟨.logTime, e.timestamp, _, rfl⟩

/-- A key of the log partition is its fence or that of a record. -/
theorem mem_replay_encode_log (h : IsHistory entries) {sequence : UInt64} {suffix : Bytes}
    (hmem : Key.encode .log sequence suffix ∈ replay entries) :
    suffix = [] ∧ (sequence = 0 ∨ ∃ e ∈ entries, e.id = sequence) := by
  have hdata : Key.isData (Key.encode .log sequence suffix) = false :=
    Key.isData_eq_false (Key.partition?_encode .log sequence suffix) rfl
  rcases (mem_replay_iff h hdata).mp hmem with ⟨p, hkey⟩ | ⟨e, he, hkey | hkey⟩
  · obtain ⟨-, hsequence, hsuffix⟩ := Key.encode_inj.mp hkey
    exact ⟨hsuffix, Or.inl hsequence⟩
  · obtain ⟨-, hsequence, hsuffix⟩ := Key.encode_inj.mp hkey
    exact ⟨hsuffix, Or.inr ⟨e, he, hsequence.symm⟩⟩
  · obtain ⟨hp, -, -⟩ := Key.encode_inj.mp hkey
    cases hp

/-- The last sequence number of the log partition is the number of entries. -/
theorem toNat_lastSequence (h : IsHistory entries) {last : UInt64}
    (hlast : (replay entries).IsLastSequence .log last) : last.toNat = entries.length := by
  obtain ⟨⟨suffix, hmem⟩, hmax⟩ := hlast
  have hupper : last.toNat ≤ entries.length := by
    rcases (mem_replay_encode_log h hmem).2 with rfl | ⟨e, he, rfl⟩
    · exact Nat.zero_le _
    · exact (h.id_bounds he).2
  refine Nat.le_antisymm hupper ?_
  rcases List.eq_nil_or_concat entries with rfl | ⟨front, e, rfl⟩
  · exact Nat.zero_le _
  · have he : e ∈ front.concat e := by simp
    have hid : e.id.toNat = (front.concat e).length := by
      rw [List.concat_eq_append] at h ⊢
      rw [h.id_last, List.length_append, List.length_singleton]
    have hrow := mem_of_getElem? (getElem?_replay_log h he)
    have := UInt64.le_iff_toNat_le.mp (hmax e.id [] hrow)
    omega

end Rows

namespace Log

variable {log : Log} {entries : List Entry}

/-! ## Single entries -/

/-- The entry of an id is handed out, if the history has one. -/
theorem ensures_readOne {s : Store} (hrows : s.rows = Rows.replay entries) (h : IsHistory entries)
    (id : LogId) :
    Ensures (readOne id) s fun r t => s.Aged t ∧
      ((∃ e ∈ entries, e.id = id ∧ r = .ok (some e)) ∨
        (∀ e ∈ entries, e.id ≠ id) ∧ (r = .ok none ∨ ∃ error, r = .error error) ∨
        s.Refused .get r) := by
  refine Ensures.bind ((Store.ensures_lookup (Key.log id)).mono ?_)
  rintro r t ⟨ht, rfl | ⟨hnot, fault, rfl⟩⟩
  · rw [hrows]
    by_cases hex : ∃ e ∈ entries, e.id = id
    · obtain ⟨e, he, rfl⟩ := hex
      rw [Rows.getElem?_replay_log h he]
      simp only [Stored.decode_encode (h.proper e he).fits]
      exact Ensures.pure ⟨ht, Or.inl ⟨e, he, rfl, rfl⟩⟩
    · have hnone : ∀ e ∈ entries, e.id ≠ id := fun e he hid => hex ⟨e, he, hid⟩
      cases hrow : (Rows.replay entries)[Key.log id]? with
      | none => exact Ensures.pure ⟨ht, Or.inr (Or.inl ⟨hnone, Or.inl rfl⟩)⟩
      | some record =>
        -- what stands there can only be the fence, which no entry is read from
        rcases (Rows.mem_replay_encode_log h (Rows.mem_of_getElem? hrow)).2 with rfl | ⟨e, he, hid⟩
        · have hfence : (Rows.replay entries)[Key.log 0]? = some [] :=
            Rows.getElem?_replay_fence h .log
          rw [hfence] at hrow
          cases hrow
          exact Ensures.fail ⟨ht, Or.inr (Or.inl ⟨hnone, Or.inr ⟨_, rfl⟩⟩)⟩
        · exact absurd hid (hnone e he)
  · exact ⟨ht, Or.inr (Or.inr ⟨hnot, fault, rfl⟩)⟩

/-! ## Pages -/

/-- The entries of rows of the log partition behind its fence are ones of the history; the search for
more breaks down only behind an entry of the last id. -/
theorem entriesFrom_replay (h : IsHistory entries) {rows : List Row} (expected : LogId)
    (hrows : ∀ row ∈ rows, (Rows.replay entries)[row.1]? = some row.2 ∧ row.1 ≠ Key.fence .log ∧
      Bytes.before row.1 (Key.upperBound .log) = true) :
    (∃ page next, entriesFrom expected rows = .ok (page, next) ∧ ∀ e ∈ page, e ∈ entries) ∨
      (entriesFrom expected rows = .error .overflow ∧ ∃ e ∈ entries, e.id + 1 = 0) := by
  induction rows generalizing expected with
  | nil => exact Or.inl ⟨[], expected, rfl, by simp⟩
  | cons row rest ih =>
    obtain ⟨key, record⟩ := row
    obtain ⟨hrow, hfence, hbefore⟩ := hrows (key, record) List.mem_cons_self
    unfold entriesFrom
    by_cases hsequence : Key.sequence? key = some expected
    · have hmem : key ∈ Rows.replay entries := Rows.mem_of_getElem? hrow
      obtain ⟨p, sequence, suffix, rfl⟩ := Rows.headed_replay h key hmem
      rw [Key.sequence?_encode] at hsequence
      cases hsequence
      -- the scan stops before the time index, so the key is one of the log
      have hp : p = .log := by
        have htag : p.tag < Partition.logTime.tag := Key.tag_lt_of_before_fence hbefore
        revert htag
        cases p <;> decide
      subst hp
      obtain ⟨rfl, rfl | ⟨e, he, rfl⟩⟩ := Rows.mem_replay_encode_log h hmem
      · exact absurd rfl hfence
      · have hrecord : record = Stored.encode e := by
          have := Rows.getElem?_replay_log h he
          change (Rows.replay entries)[Key.log e.id]? = some record at hrow
          rw [this] at hrow
          exact (Option.some.inj hrow).symm
        subst hrecord
        simp only [Key.sequence?_encode, ne_eq, not_true_eq_false, if_false,
          Stored.decode_encode (h.proper e he).fits]
        cases hnext : Counters.next? e.id with
        | none => exact Or.inr ⟨rfl, e, he, Counters.next?_eq_none_iff.mp hnext⟩
        | some following =>
          rcases ih following fun row hr => hrows row (List.mem_cons_of_mem _ hr) with
            ⟨page, next, hpage, hmem⟩ | ⟨hover, hlast⟩
          · refine Or.inl ⟨e :: page, next, ?_, List.forall_mem_cons.mpr ⟨he, hmem⟩⟩
            simp only [hpage]
            rfl
          · refine Or.inr ⟨?_, hlast⟩
            simp only [hover]
            rfl
    · rw [if_pos hsequence]
      exact Or.inl ⟨[], expected, rfl, by simp⟩

/-- A page holds entries of the history and reports the position; a reader who is not ahead gets one,
unless the store refuses the scan or the history has used up the ids. -/
theorem ensures_readLog {s : Store} (hrows : s.rows = Rows.replay entries) (h : IsHistory entries)
    (position : LogId) (now : Instant) (lastSeen : LogId) (limit : UInt32) :
    Ensures (readLog position now lastSeen limit) s fun r t => s.Aged t ∧
      ((∃ chunk, r = .ok chunk ∧ lastSeen ≤ position ∧ chunk.currid = position ∧
          ∀ e ∈ chunk.entries, e ∈ entries) ∨
        (position < lastSeen ∧ ∃ error, r = .error error) ∨
        (r = .error .overflow ∧ ∃ e ∈ entries, e.id + 1 = 0) ∨ s.Refused .scan r) := by
  unfold readLog
  by_cases hahead : position < lastSeen
  · simp only [if_pos hahead]
    exact Ensures.fail ⟨Store.Aged.refl s, Or.inr (Or.inl ⟨hahead, _, rfl⟩)⟩
  have hle : lastSeen ≤ position := UInt64.not_lt.mp hahead
  simp only [if_neg hahead]
  by_cases hcurrent : lastSeen = position
  · simp only [if_pos hcurrent]
    refine Ensures.pure ⟨Store.Aged.refl s, Or.inl ⟨_, rfl, hle, rfl, ?_⟩⟩
    intro e he
    cases he
  simp only [if_neg hcurrent]
  refine Ensures.bind ((Store.ensures_scan _ _ _).mono ?_)
  rintro r t ⟨ht, rfl | ⟨hnot, fault, rfl⟩⟩
  -- the scan starts behind the fence of the log
  · have hnext : Bytes.before (Key.fence .log) (Key.log (lastSeen + 1)) = true := by
      apply Key.before_encode_of_sequence
      have hlt := UInt64.lt_iff_toNat_lt.mp (UInt64.lt_of_le_of_ne hle hcurrent)
      have hmax := position.toNat_lt
      rw [UInt64.lt_iff_toNat_lt, UInt64.toNat_add, UInt64.toNat_one, UInt64.toNat_zero]
      omega
    refine Ensures.bind ?_
    rcases @entriesFrom_replay entries h
        (s.engine.scan s.rows (Key.log (lastSeen + 1)) (Key.upperBound .log)
          (pageSize limit).toUInt64) (lastSeen + 1) (by
      intro row hrow
      obtain ⟨hin, hstart, hstop⟩ := Engine.mem_scan hrow
      rw [hrows] at hin
      refine ⟨hin, ?_, hstop⟩
      intro hfence
      rw [hfence, hnext] at hstart
      cases hstart) with ⟨page, next, hpage, hmem⟩ | ⟨hover, hlast⟩
    · rw [hpage]
      exact Ensures.pure ⟨ht, Or.inl ⟨_, rfl, hle, rfl, hmem⟩⟩
    · rw [hover]
      exact ⟨ht, Or.inr (Or.inr (Or.inl ⟨rfl, hlast⟩))⟩
  · exact ⟨ht, Or.inr (Or.inr (Or.inr ⟨hnot, fault, rfl⟩))⟩

/-! ## Opening again -/

/-- Opened over a store that holds a history, a log holds that history. -/
theorem ensures_reopen {s : Store} (hrows : s.rows = Rows.replay entries) (h : IsHistory entries)
    (standing : Standing) :
    Ensures (do let _ ← Store.ensureFences; reopen standing) s fun r t => s.Aged t ∧
      ((∃ log, r = .ok log ∧ log.Holds entries ∧ log.standing = standing ∧ log.store = t) ∨
        s.Refused .get r ∨ s.Refused .seekPrev r) := by
  have hfences : ∀ p, Key.fence p ∈ s.rows := by
    intro p
    rw [hrows]
    exact Rows.fence_mem_replay h p
  refine Ensures.bind ((Store.ensures_ensureFences_of_present hfences).mono ?_)
  rintro r t ⟨ht, rfl | ⟨hnot, fault, rfl⟩⟩
  · have htrows : t.rows = Rows.replay entries := ht.1.trans hrows
    obtain ⟨position, primary, hposition, -, hrun⟩ := @Store.ensures_recoverCounters t
      (by rw [htrows]; exact Rows.headed_replay h) (by rw [ht.1]; exact hfences)
    refine Ensures.bind (hrun.mono ?_)
    rintro r u ⟨hu, rfl | hr⟩
    · apply Ensures.read_bind
      refine Ensures.pure ⟨ht.trans hu, Or.inl ⟨_, rfl, ⟨hu.1.trans htrows, ?_, h⟩, rfl, rfl⟩⟩
      rw [htrows] at hposition
      exact Rows.toNat_lastSequence h hposition
    · obtain ⟨hnot, fault, rfl⟩ := ht.refused hr
      exact ⟨ht.trans hu, Or.inr (Or.inr ⟨hnot, fault, rfl⟩)⟩
  · exact ⟨ht, Or.inr (Or.inl ⟨hnot, fault, rfl⟩)⟩

end Log

end LogShipping
