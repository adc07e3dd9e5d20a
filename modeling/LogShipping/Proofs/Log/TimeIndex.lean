import LogShipping.Proofs.Log.Scanning

/-!
# Entries by time

The time index has one key per entry, made of the timestamp and the id. Because both numbers are written
with the least octet last, the keys stand in the order of the timestamps and, at the same time, of the
ids (`Key.before_logTime_iff`). So a scan from the first key of a time on meets exactly the entries
since that time, and reads their ids off the keys (`run_lists_since`), whichever way the clock went when
they were committed.

What is to be listed is said on the entries alone (`stampedSince`): those since the time, sorted. The
rows of the index in that range are shown to hold the same, and two lists in a strict order with the
same members are equal; no scan is followed row by row.

The engine that keeps its rows in a table reads a limit as a signed number and takes one beyond 2^63 for
none. So the limit, or what the log holds, is asked to be no more than 2^63 with that engine: a bound on
the count of rows that no store reaches. Timestamps are those of the committing node and are not
compared with any clock here.
-/

namespace LogShipping

open Std

/-! ## Keys of the time index -/

namespace Key

theorem compare_logTime (s t : Instant) (a b : LogId) :
    compare (logTime s a) (logTime t b) =
      (compare s.toNat t.toNat).then (compare a.toNat b.toNat) := by
  have bound (n : UInt64) : n.toNat < Bytes.values 8 := n.toNat_lt
  have hids := Bytes.compare_bigEndian_append (bound a) (bound b) [] []
  have hnil : compare ([] : Bytes) [] = .eq := ReflCmp.compare_self
  have htag : compare Partition.logTime.tag Partition.logTime.tag = .eq := ReflCmp.compare_self
  rw [List.append_nil, List.append_nil, hnil, Ordering.then_eq] at hids
  rw [logTime, logTime, compare_encode, htag, Ordering.eq_then, hids]

/-- The index is in the order of time and, at the same time, of the ids. -/
theorem before_logTime_iff {s t : Instant} {a b : LogId} :
    Bytes.before (logTime s a) (logTime t b) = true ↔ s < t ∨ s = t ∧ a < b := by
  rw [Bytes.before_iff, compare_logTime, Ordering.then_eq_lt, Nat.compare_eq_lt, Nat.compare_eq_eq,
    Nat.compare_eq_lt, UInt64.toNat_inj, UInt64.lt_iff_toNat_lt, UInt64.lt_iff_toNat_lt]

/-- All keys of the index come behind its fence, which has no id at its end. -/
theorem before_fence_logTime (t : Instant) (id : LogId) :
    Bytes.before (fence .logTime) (logTime t id) = true := by
  rcases UInt64.lt_or_eq_of_le (UInt64.zero_le (a := t)) with hlt | rfl
  · exact before_encode_of_sequence hlt _ _
  · rw [Bytes.before_iff, fence, logTime, compare_encode]
    rfl

theorem before_logTime_upperBound (t : Instant) (id : LogId) :
    Bytes.before (logTime t id) (upperBound .logTime) = true :=
  before_encode_of_tag (by decide) _ _ _ _

/-- A key with a full head between the first key of a time and the end of the index is one of the
index. -/
theorem eq_logTime_of_range {p : Partition} {sequence : UInt64} {suffix : Bytes} {since : Instant}
    (hstart : Bytes.before (encode p sequence suffix) (logTime since 0) = false)
    (hstop : Bytes.before (encode p sequence suffix) (upperBound .logTime) = true) :
    p = .logTime := by
  have hhigh : p.tag < Partition.profile.tag := tag_lt_of_before_fence hstop
  have hlow : ¬ p.tag < Partition.logTime.tag := by
    intro hlt
    rw [logTime, before_encode_of_tag hlt] at hstart
    cases hstart
  revert hlow hhigh
  cases p <;> decide

end Key

namespace Log

/-- The id in a key of the index is that of the entry. -/
theorem indexedId?_logTime (t : Instant) (id : LogId) : indexedId? (Key.logTime t id) = some id := by
  have hdrop : (Key.logTime t id).drop Key.headLength = Bytes.bigEndian 8 id.toNat := by
    have hhead : (Partition.logTime.tag :: Bytes.bigEndian 8 t.toNat).length = Key.headLength := by
      rw [List.length_cons, Bytes.length_bigEndian]
      rfl
    rw [Key.logTime, Key.encode, ← hhead, List.drop_left]
  have hlt : id.toNat < Bytes.values 8 := id.toNat_lt
  have hlength := Bytes.length_bigEndian 8 id.toNat
  rw [indexedId?, hdrop, List.take_of_length_le (Nat.le_of_eq hlength)]
  simp only [hlength, if_pos, Bytes.ofBigEndian_bigEndian, Nat.mod_eq_of_lt hlt, UInt64.ofNat_toNat]

end Log

/-! ## Entries in the order of the index -/

namespace Entry

/-- The place of the entry in the time index. -/
def indexKey (e : Entry) : Bytes := Key.logTime e.timestamp e.id

/-- Whether an entry comes no later than another one: by its time and, at the same time, by its id. -/
def notLater (a b : Entry) : Bool :=
  decide (a.timestamp < b.timestamp ∨ a.timestamp = b.timestamp ∧ a.id ≤ b.id)

theorem notLater_trans {a b c : Entry} (hab : notLater a b = true) (hbc : notLater b c = true) :
    notLater a c = true := by
  simp only [notLater, decide_eq_true_iff] at *
  grind

theorem notLater_total (a b : Entry) : (notLater a b || notLater b a) = true := by
  simp only [notLater, Bool.or_eq_true, decide_eq_true_iff]
  grind

end Entry

/-- The entries since a time, the oldest first and those of the same time in the order of their ids. -/
def stampedSince (since : Instant) (entries : List Entry) : List Entry :=
  (entries.filter fun e => since ≤ e.timestamp).mergeSort Entry.notLater

section History

variable {entries : List Entry} {since : Instant}

theorem mem_stampedSince {e : Entry} :
    e ∈ stampedSince since entries ↔ e ∈ entries ∧ since ≤ e.timestamp := by
  rw [stampedSince, List.mem_mergeSort, List.mem_filter, decide_eq_true_iff]

/-- No id comes twice. -/
theorem nodup_stampedSince (h : IsHistory entries) (since : Instant) :
    ((stampedSince since entries).map (·.id)).Nodup := by
  have hperm := (List.mergeSort_perm (entries.filter fun e => since ≤ e.timestamp) Entry.notLater).map
    (fun e : Entry => e.id)
  refine hperm.nodup_iff.mpr (List.Nodup.sublist (List.filter_sublist.map _) ?_)
  refine List.pairwise_map.mpr (List.pairwise_iff_getElem.mpr fun i j hi hj hij hsame => ?_)
  have hnumber := congrArg UInt64.toNat hsame
  rw [h.numbered i hi, h.numbered j hj] at hnumber
  omega

/-- The entries since a time stand in the order of the index. -/
theorem pairwise_stampedSince (h : IsHistory entries) (since : Instant) :
    (stampedSince since entries).Pairwise fun a b =>
      a.timestamp < b.timestamp ∨ a.timestamp = b.timestamp ∧ a.id < b.id := by
  have hsorted := @List.pairwise_mergeSort _ Entry.notLater (fun _ _ _ => Entry.notLater_trans)
    Entry.notLater_total (entries.filter fun e => since ≤ e.timestamp)
  have hdistinct := List.pairwise_map.mp (nodup_stampedSince h since)
  refine (List.pairwise_and_iff.mpr ⟨hsorted, hdistinct⟩).imp ?_
  rintro a b ⟨hle, hne⟩
  have hle := of_decide_eq_true hle
  grind

theorem map_indexKey_pairwise (h : IsHistory entries) (since : Instant) :
    ((stampedSince since entries).map Entry.indexKey).Pairwise fun a b =>
      Bytes.before a b = true :=
  List.pairwise_map.mpr ((pairwise_stampedSince h since).imp Key.before_logTime_iff.mpr)

/-! ## The range of a scan -/

/-- The rows of the index since a time, in key order. -/
def Rows.indexedSince (rows : Rows) (since : Instant) : List Row :=
  rows.toList.filter fun row =>
    !Bytes.before row.1 (Key.logTime since 0) && Bytes.before row.1 (Key.upperBound .logTime)

/-- A key is in the range exactly if it is the place of an entry since the time: neither the fence of
the index nor a key of another partition comes in between. -/
theorem Rows.mem_indexedSince (h : IsHistory entries) {key : Bytes} :
    key ∈ ((replay entries).indexedSince since).map (·.1) ↔
      key ∈ (stampedSince since entries).map Entry.indexKey := by
  have hrow : key ∈ ((replay entries).indexedSince since).map (·.1) ↔ key ∈ replay entries ∧
      Bytes.before key (Key.logTime since 0) = false ∧
      Bytes.before key (Key.upperBound .logTime) = true := by
    simp only [indexedSince, List.mem_map, List.mem_filter, Prod.exists, exists_and_right,
      exists_eq_right, Bool.and_eq_true, Bool.not_eq_true', ExtTreeMap.mem_toList_iff_getElem?_eq_some,
      ExtTreeMap.mem_iff_isSome_getElem?, Option.isSome_iff_exists]
  rw [hrow, List.mem_map]
  constructor
  · rintro ⟨hmem, hstart, hstop⟩
    obtain ⟨p, sequence, suffix, rfl⟩ := headed_replay h key hmem
    obtain rfl := Key.eq_logTime_of_range hstart hstop
    have hdata := Key.isData_eq_false (Key.partition?_encode .logTime sequence suffix) rfl
    rcases (mem_replay_iff h hdata).mp hmem with ⟨p, hkey⟩ | ⟨e, he, hkey | hkey⟩
    · have hp := congrArg Key.partition? hkey
      rw [Key.partition?_encode, Key.partition?_fence] at hp
      cases hp
      rw [hkey, Key.before_fence_logTime] at hstart
      cases hstart
    · have hp := congrArg Key.partition? hkey
      rw [Key.partition?_encode, Key.partition?_log] at hp
      cases hp
    · refine ⟨e, mem_stampedSince.mpr ⟨he, ?_⟩, hkey.symm⟩
      rw [hkey, Bool.eq_false_iff, ne_eq, Key.before_logTime_iff] at hstart
      exact UInt64.not_lt.mp fun hlt => hstart (Or.inl hlt)
  · rintro ⟨e, he, rfl⟩
    obtain ⟨he, hsince⟩ := mem_stampedSince.mp he
    have hdata := Key.isData_eq_false (Key.partition?_logTime e.timestamp e.id) rfl
    refine ⟨(mem_replay_iff h hdata).mpr (Or.inr ⟨e, he, Or.inr rfl⟩), ?_,
      Key.before_logTime_upperBound _ _⟩
    rw [Bool.eq_false_iff, ne_eq, Entry.indexKey, Key.before_logTime_iff]
    rintro (hlt | ⟨-, hlt⟩)
    · exact UInt64.not_lt.mpr hsince hlt
    · exact UInt64.not_lt.mpr UInt64.zero_le hlt

/-- The range holds the places of the entries since the time, in their order. -/
theorem Rows.map_indexedSince (h : IsHistory entries) (since : Instant) :
    ((replay entries).indexedSince since).map (·.1) =
      (stampedSince since entries).map Entry.indexKey := by
  have hrange : (((replay entries).indexedSince since).map (·.1)).Pairwise fun a b =>
      Bytes.before a b = true :=
    List.pairwise_map.mpr ((Engine.sorted_toList _).filter _)
  have hlisted := map_indexKey_pairwise h since
  have hdistinct : ∀ {a b : Bytes}, Bytes.before a b = true → a ≠ b := by
    rintro a b hbefore rfl
    rw [Bytes.not_before_self] at hbefore
    cases hbefore
  -- strictly ordered lists with the same members are the same
  refine List.Perm.eq_of_pairwise ?_ hrange hlisted ?_
  · intro a b _ _ hab hba
    rw [Bytes.before_asymm hab] at hba
    cases hba
  · exact (List.perm_ext_iff_of_nodup (hrange.imp hdistinct) (hlisted.imp hdistinct)).mpr
      fun key => mem_indexedSince h

/-- The ids in the first keys of the range are those of the first entries since the time. -/
theorem Log.ids_indexedSince (h : IsHistory entries) (since : Instant) (count : Nat) :
    (((Rows.replay entries).indexedSince since).take count).filterMap (fun row => indexedId? row.1) =
      ((stampedSince since entries).map (·.id)).take count := by
  have hkeys := congrArg (List.take count) (Rows.map_indexedSince h since)
  rw [← List.map_take, ← List.map_take] at hkeys
  have hids := congrArg (List.filterMap indexedId?) hkeys
  rw [List.filterMap_map, List.filterMap_map] at hids
  rw [← List.map_take]
  refine hids.trans ?_
  rw [← List.filterMap_eq_map]
  exact List.filterMap_congr fun e _ => indexedId?_logTime e.timestamp e.id

end History

/-! ## Listing -/

namespace Log

variable {log : Log} {entries : List Entry}

/-- Of a log that holds a history, the first ids since a time are listed. -/
theorem Good.idsSince_eq (h : log.Good entries) (since : Instant) {limit : UInt64}
    (hcount : log.store.engine = .table → limit.toNat < 2 ^ 63 ∨ log.position.toNat ≤ 2 ^ 63) :
    ((idsSince since limit).run.run log.store).1 =
      .ok (((stampedSince since entries).map (·.id)).take limit.toNat) := by
  have hrange : log.store.engine.scan log.store.rows (Key.logTime since 0) (Key.upperBound .logTime)
      limit = (log.store.rows.indexedSince since).take limit.toNat := by
    cases hengine : log.store.engine with
    | tree => exact Engine.treeScan_eq_take _ _ _ _
    | table =>
      refine Engine.tableScan_eq_take _ _ _ ((hcount hengine).imp_right fun hposition => ?_)
      have hlength := congrArg List.length (Rows.map_indexedSince h.holds.history since)
      rw [List.length_map, List.length_map, ← h.holds.rows, stampedSince, List.length_mergeSort]
        at hlength
      show (log.store.rows.indexedSince since).length ≤ 2 ^ 63
      rw [hlength]
      exact (List.length_filter_le _ _).trans (h.holds.position ▸ hposition)
  have hlist : Ensures (idsSince since limit) log.store fun r _ =>
      r = .ok (((stampedSince since entries).map (·.id)).take limit.toNat) := by
    refine Ensures.bind ((Store.ensures_scan _ _ _).mono ?_)
    rintro r t ⟨-, rfl | ⟨hnot, -⟩⟩
    · refine Ensures.pure ?_
      rw [hrange, h.holds.rows, ids_indexedSince h.holds.history since]
    · exact absurd (h.answers .scan (by decide)) hnot
  exact hlist

/-- Whatever a log has been through, the ids listed since a time are the first ones of all entries since
that time, in the order of time and, at the same time, of the ids. A table takes a limit beyond the
signed range for none. That could show only if it held more entries than that range has numbers, which
is more than a database file has room for. -/
theorem run_lists_since (standing : Standing) (engine : Engine) (events : List LogEvent)
    (hadmits : (fresh standing engine).AdmitsAll events) (since : Instant) (limit : UInt64)
    (hcount : ((fresh standing engine).run events).store.engine = .table →
      limit.toNat < 2 ^ 63 ∨ ((fresh standing engine).run events).position.toNat ≤ 2 ^ 63) :
    let log := (fresh standing engine).run events
    ∃ listed : List Entry,
      ((idsSince since limit).run.run log.store).1 = .ok ((listed.map (·.id)).take limit.toNat) ∧
      (∀ e, e ∈ listed ↔ e ∈ log.contents ∧ since ≤ e.timestamp) ∧
      (listed.Pairwise fun a b =>
        a.timestamp < b.timestamp ∨ a.timestamp = b.timestamp ∧ a.id < b.id) ∧
      (listed.map (·.id)).Nodup := by
  intro log
  have hgood : log.Good log.contents := good_run hadmits
  have hhistory := hgood.holds.history
  exact ⟨stampedSince since log.contents, hgood.idsSince_eq since hcount, fun e => mem_stampedSince,
    pairwise_stampedSince hhistory since, nodup_stampedSince hhistory since⟩

/-- The clock goes back between two commits, and the third entry comes at the time of the second: in the
index the first one is the last. -/
theorem run_lists_since_backward :
    let events := [LogEvent.commit 9 sample, .commit 5 sample, .commit 5 sample]
    let log := (fresh alone .table).run events
    (fresh alone .table).AdmitsAll events ∧
      (log.store.engine = .table → (10 : UInt64).toNat < 2 ^ 63 ∨ log.position.toNat ≤ 2 ^ 63) ∧
      ∃ listed : List Entry,
        (listed.map (·.id)).take 10 = [2, 3, 1] ∧
        (∀ e, e ∈ listed ↔ e ∈ log.contents ∧ 5 ≤ e.timestamp) ∧
        (listed.Pairwise fun a b =>
          a.timestamp < b.timestamp ∨ a.timestamp = b.timestamp ∧ a.id < b.id) ∧
        (listed.map (·.id)).Nodup := by
  intro events log
  have hadmits : (fresh alone .table).AdmitsAll events := by
    refine ⟨⟨sample_fits, ?_⟩, ⟨sample_fits, ?_⟩, ⟨sample_fits, ?_⟩, trivial⟩
    all_goals decide +kernel
  have hcount : log.store.engine = .table →
      (10 : UInt64).toNat < 2 ^ 63 ∨ log.position.toNat ≤ 2 ^ 63 := fun _ => Or.inl (by decide)
  have hids : ((idsSince 5 10).run.run log.store).1 = .ok [2, 3, 1] := by rfl
  obtain ⟨listed, hlisted, hmem, hsorted, hnodup⟩ :=
    run_lists_since alone .table events hadmits 5 10 hcount
  exact ⟨hadmits, hcount, listed, Except.ok.inj (hlisted.symm.trans hids), hmem, hsorted, hnodup⟩

end Log

end LogShipping
