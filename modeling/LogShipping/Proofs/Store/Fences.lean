import LogShipping.Proofs.Store.Recovery

/-!
# Recovery from any rows

Opening a store that answers adds the fences that it lacks and nothing else (`run_ensureFences`),
however many it lacks. A fence has sequence number 0, so it is the last of its partition only where the
partition holds nothing. The counters that are recovered afterwards are therefore the greatest sequence
numbers of the rows that were there before (`run_recoverCounters`).

The greatest sequence number is said of rows as a maximum over the keys of a partition (`lastSequence`),
with no search in it and without the fences. `Proofs.Store.Recovery` finds it by a search; that the two
agree once the fences are in place is `IsLastSequence.eq_lastSequence`.

Rows are asked to have full heads. A key that is cut off within its sequence number would be found by
the search but has no number to speak of, and such keys are not written by anything here. The store is
one that answers: with an outage, opening fails and is told why.
-/

namespace LogShipping

open Std

instance instLawfulOrderMaxUInt64 : LawfulOrderMax UInt64 where
  max_eq_or a b := by
    show (if a ≤ b then b else a) = a ∨ (if a ≤ b then b else a) = b
    split
    · exact Or.inr rfl
    · exact Or.inl rfl
  max_le_iff a b c := by
    show (if a ≤ b then b else a) ≤ c ↔ _
    grind

namespace Rows

variable {rows : Rows} {p : Partition}

/-! ## Keys with a full head -/

/-- A key has a full head if it lies in a partition and is long enough for a sequence number. -/
theorem headed_iff : rows.Headed ↔
    ∀ key ∈ rows.keys, (Key.partition? key).isSome ∧ Key.headLength ≤ key.length := by
  simp only [ExtTreeMap.mem_keys]
  constructor
  · intro h key hkey
    obtain ⟨p, sequence, suffix, rfl⟩ := h key hkey
    refine ⟨by rw [Key.partition?_encode]; rfl, ?_⟩
    simp [Key.encode, Key.headLength]
  · intro h key hkey
    obtain ⟨hsome, hlength⟩ := h key hkey
    obtain ⟨p, hp⟩ := Option.isSome_iff_exists.mp hsome
    exact ⟨p, Key.exists_encode hp hlength⟩

instance (rows : Rows) : Decidable rows.Headed := decidable_of_iff _ headed_iff.symm

/-! ## Sequence numbers -/

/-- The sequence numbers of the keys of a partition. -/
def sequences (rows : Rows) (p : Partition) : List UInt64 :=
  (rows.keys.filter fun key => Key.partition? key = some p).filterMap Key.sequence?

/-- The greatest sequence number of a partition, 0 where it holds no key. -/
def lastSequence (rows : Rows) (p : Partition) : UInt64 := (rows.sequences p).max?.getD 0

theorem mem_sequences_iff {sequence : UInt64} :
    sequence ∈ rows.sequences p ↔ ∃ suffix, Key.encode p sequence suffix ∈ rows := by
  simp only [sequences, List.mem_filterMap, List.mem_filter, ExtTreeMap.mem_keys,
    decide_eq_true_eq]
  constructor
  · rintro ⟨key, ⟨hkey, hp⟩, hsequence⟩
    have hlength : Key.headLength ≤ key.length := by
      by_contra hshort
      rw [Key.sequence?, if_pos (Nat.lt_of_not_le hshort)] at hsequence
      cases hsequence
    obtain ⟨found, suffix, rfl⟩ := Key.exists_encode hp hlength
    rw [Key.sequence?_encode] at hsequence
    cases hsequence
    exact ⟨suffix, hkey⟩
  · rintro ⟨suffix, hmem⟩
    exact ⟨_, ⟨hmem, Key.partition?_encode p sequence suffix⟩, Key.sequence?_encode p sequence suffix⟩

theorem le_lastSequence {sequence : UInt64} {suffix : Bytes}
    (h : Key.encode p sequence suffix ∈ rows) : sequence ≤ rows.lastSequence p := by
  have hmem : sequence ∈ rows.sequences p := mem_sequences_iff.mpr ⟨suffix, h⟩
  cases hmax : (rows.sequences p).max? with
  | none =>
    rw [List.max?_eq_none_iff.mp hmax] at hmem
    cases hmem
  | some last =>
    rw [lastSequence, hmax]
    exact (List.max?_eq_some_iff.mp hmax).2 sequence hmem

/-- The greatest sequence number is that of a key, or it is 0. -/
theorem lastSequence_eq_zero_or_mem :
    rows.lastSequence p = 0 ∨ ∃ suffix, Key.encode p (rows.lastSequence p) suffix ∈ rows := by
  cases hmax : (rows.sequences p).max? with
  | none =>
    left
    rw [lastSequence, hmax]
    rfl
  | some last =>
    right
    rw [lastSequence, hmax]
    exact mem_sequences_iff.mp (List.max?_eq_some_iff.mp hmax).1

/-! ## Fences -/

/-- The rows with all fences, those in place left as they are. -/
def withFences (rows : Rows) : Rows := rows.applyAll (Store.absentFences rows Partition.all)

theorem key_of_mem_absentFences {partitions : List Partition} {op : BatchOp}
    (h : op ∈ Store.absentFences rows partitions) : ∃ p, op.key = Key.fence p ∧ op.key ∉ rows := by
  obtain ⟨p, hp, rfl⟩ := List.mem_map.mp h
  refine ⟨p, rfl, ?_⟩
  rw [ExtTreeMap.mem_iff_isSome_getElem?, Option.not_isSome_iff_eq_none, ← Option.isNone_iff_eq_none]
  exact (List.mem_filter.mp hp).2

/-- What is in place stays as it is. -/
theorem getElem?_withFences {key : Bytes} (h : key ∈ rows) : rows.withFences[key]? = rows[key]? := by
  apply getElem?_applyAll_of_notMem
  intro hmem
  obtain ⟨op, hop, rfl⟩ := List.mem_map.mp hmem
  obtain ⟨p, -, hnot⟩ := key_of_mem_absentFences hop
  exact hnot h

theorem mem_or_fence_of_mem_withFences {key : Bytes} (h : key ∈ rows.withFences) :
    key ∈ rows ∨ ∃ p, key = Key.fence p := by
  by_cases hmem : key ∈ (Store.absentFences rows Partition.all).map BatchOp.key
  · obtain ⟨op, hop, rfl⟩ := List.mem_map.mp hmem
    obtain ⟨p, hp, -⟩ := key_of_mem_absentFences hop
    exact Or.inr ⟨p, hp⟩
  · left
    rw [ExtTreeMap.mem_iff_isSome_getElem?] at h ⊢
    rw [← getElem?_applyAll_of_notMem rows _ key hmem]
    exact h

/-- A batch that only writes leaves every key that it writes in place. -/
theorem mem_applyAll_puts {keys : List Bytes} {key : Bytes} (h : key ∈ keys) :
    key ∈ rows.applyAll (keys.map fun k => .put k []) := by
  induction keys generalizing rows with
  | nil => cases h
  | cons first rest ih =>
    rw [List.map_cons, applyAll_cons]
    by_cases hrest : key ∈ rest
    · exact ih hrest
    · have hfirst : key = first := (List.mem_cons.mp h).resolve_right hrest
      subst hfirst
      have hnot : key ∉ (rest.map fun k => BatchOp.put k []).map BatchOp.key := by
        simpa [BatchOp.key] using hrest
      rw [ExtTreeMap.mem_iff_isSome_getElem?, getElem?_applyAll_of_notMem _ _ _ hnot, getElem?_apply,
        if_pos (show BatchOp.key (.put key []) = key from rfl)]
      rfl

theorem fence_mem_withFences (p : Partition) : Key.fence p ∈ rows.withFences := by
  by_cases hmem : Key.fence p ∈ rows
  · rw [ExtTreeMap.mem_iff_isSome_getElem?, getElem?_withFences hmem]
    exact ExtTreeMap.mem_iff_isSome_getElem?.mp hmem
  · have hkeys : Store.absentFences rows Partition.all =
        ((Partition.all.filter fun q => rows[Key.fence q]?.isNone).map Key.fence).map
          fun k => .put k [] := by
      rw [List.map_map]
      rfl
    rw [withFences, hkeys]
    apply mem_applyAll_puts
    refine List.mem_map_of_mem (List.mem_filter.mpr ⟨?_, ?_⟩)
    · cases p <;> decide
    · rwa [Option.isNone_iff_eq_none, ← Option.not_isSome_iff_eq_none,
        ← ExtTreeMap.mem_iff_isSome_getElem?]

theorem Headed.withFences (h : rows.Headed) : rows.withFences.Headed := by
  intro key hkey
  rcases mem_or_fence_of_mem_withFences hkey with hmem | ⟨p, rfl⟩
  · exact h key hmem
  · exact ⟨p, 0, [], rfl⟩

/-- With the fences in place the last sequence number of a partition is the one without them. -/
theorem IsLastSequence.eq_lastSequence {last : UInt64} (h : rows.withFences.IsLastSequence p last) :
    last = rows.lastSequence p := by
  obtain ⟨⟨suffix, hmem⟩, hmax⟩ := h
  apply UInt64.le_antisymm
  · rcases mem_or_fence_of_mem_withFences hmem with hmem | ⟨q, hfence⟩
    · exact le_lastSequence hmem
    · obtain ⟨-, rfl, -⟩ := Key.encode_inj.mp hfence
      exact UInt64.zero_le
  · rcases @lastSequence_eq_zero_or_mem rows p with hzero | ⟨other, hother⟩
    · rw [hzero]
      exact UInt64.zero_le
    · refine hmax _ other ?_
      rw [ExtTreeMap.mem_iff_isSome_getElem?, getElem?_withFences hother]
      exact ExtTreeMap.mem_iff_isSome_getElem?.mp hother

end Rows

namespace Store

variable {s : Store}

/-! ## Stores that answer -/

/-- A store that suffers no outage is only changed by its own writes. -/
theorem Aged.eq_of_no_outage {t : Store} (h : s.Aged t) (hs : s.outage = none) : t = s := by
  have hnone : t.outage = none := by
    cases ht : t.outage with
    | none => rfl
    | some o => exact absurd rfl (h.2.2 o.call (answers_of_no_outage hs o.call) o ht)
  rcases s with ⟨engine, rows, outage⟩
  rcases t with ⟨engine', rows', outage'⟩
  obtain ⟨rfl, rfl, -⟩ := h
  change outage' = none at hnone
  change outage = none at hs
  rw [hs, hnone]

/-- What is ensured of an outcome in so many words is the outcome. -/
theorem run_eq_of_ensures {α : Type} {work : Access α} {r : Except Error α} {t : Store}
    (h : Ensures work s fun r' t' => r' = r ∧ t' = t) : work.run.run s = (r, t) :=
  Prod.ext h.1 h.2

/-- What holds of the outcome and the state that work ends in is ensured. -/
theorem ensures_of_run {α : Type} {work : Access α} {r : Except Error α} {t : Store}
    {Q : Except Error α → Store → Prop} (hrun : work.run.run s = (r, t)) (h : Q r t) :
    Ensures work s Q := by
  unfold Ensures
  rw [hrun]
  exact h

/-- The missing fences are written, and nothing else. -/
theorem run_ensureFences (hs : s.outage = none) :
    ensureFences.run.run s =
      (.ok (absentFences s.rows Partition.all).length, { s with rows := s.rows.withFences }) := by
  apply run_eq_of_ensures
  refine Ensures.bind ((ensures_missingFences Partition.all).mono ?_)
  rintro r t ⟨ht, rfl | hr⟩
  · obtain rfl := ht.eq_of_no_outage hs
    cases hops : absentFences t.rows Partition.all with
    | nil =>
      refine Ensures.pure ⟨rfl, ?_⟩
      rw [Rows.withFences, hops]
      rfl
    | cons op ops =>
      refine Ensures.bind ((ensures_writeBatch (op :: ops)).mono ?_)
      rintro r u (⟨rfl, hu⟩ | ⟨hr, -⟩)
      · refine Ensures.pure ⟨rfl, ?_⟩
        rw [Rows.withFences, hops]
        exact hu.eq_of_no_outage hs
      · exact absurd (answers_of_no_outage hs _) hr.1
  · exact absurd (answers_of_no_outage hs _) hr.1

/-- Fences that are all in place are not written again. -/
theorem run_ensureFences_again (hs : s.outage = none) :
    ensureFences.run.run { s with rows := s.rows.withFences } =
      (.ok 0, { s with rows := s.rows.withFences }) := by
  apply run_eq_of_ensures
  refine (ensures_ensureFences_of_present Rows.fence_mem_withFences).mono ?_
  rintro r t ⟨ht, rfl | hr⟩
  · exact ⟨rfl, ht.eq_of_no_outage hs⟩
  · exact absurd (answers_of_no_outage hs _) hr.1

/-- With the fences in place, the counters are found at the greatest sequence numbers of the rows. -/
theorem run_recoverCounters (headed : s.rows.Headed) (hs : s.outage = none) :
    recoverCounters.run.run { s with rows := s.rows.withFences } =
      (.ok ⟨s.rows.lastSequence .record, s.rows.lastSequence .log⟩,
        { s with rows := s.rows.withFences }) := by
  obtain ⟨position, primary, hposition, hprimary, hrun⟩ :=
    @ensures_recoverCounters { s with rows := s.rows.withFences } headed.withFences
      Rows.fence_mem_withFences
  apply run_eq_of_ensures
  refine hrun.mono ?_
  rintro r t ⟨ht, rfl | hr⟩
  · rw [Rows.IsLastSequence.eq_lastSequence hposition, Rows.IsLastSequence.eq_lastSequence hprimary]
    exact ⟨rfl, ht.eq_of_no_outage hs⟩
  · exact absurd (answers_of_no_outage hs _) hr.1

end Store

end LogShipping
