import LogShipping.Proofs.Entry.History
import Mathlib.Data.List.Induction

/-!
# Replaying a log

A store that started with the fences alone and then took the batches of some entries, one after the
other, has the rows `Rows.replay entries`. For a history every partition can be read off: the log holds
its fence and one record per entry, the time index its fence and one key per entry, and the rest is what
the mutations alone make of an empty store (`Rows.replayData`). Keys of different partitions never meet,
which is why the three kinds of writes in one batch do not disturb each other.

The data are told apart from the program. What a mutation is meant to do is said on the mutation itself
(`Rows.mutate`): a removal takes its key out, a write puts its value there, over any that the key has.
That the operations of a batch do this is a lemma (`apply_toOp`) and not a definition, so a batch that
wrote where it should remove would not pass for a replay.

What a batch makes of a key depends on that key alone (`getElem?_applyAll_congr`), and this carries the
comparison of the whole batch with its mutations from key to key. The order within an entry matters, and
is kept: of two mutations of one key the later one counts.
-/

namespace LogShipping

open Std

namespace Rows

/-- The rows of a store that holds the fences and nothing else. -/
def fenced : Rows := applyAll ∅ (Partition.all.map fun p => .put (Key.fence p) [])

/-- The rows after the batches of some entries, from the fences alone. -/
def replay (entries : List Entry) : Rows := fenced.applyAll (entries.flatMap Entry.ops)

/-- What a mutation is meant to make of the rows: a removal takes its key out, a write puts its value
there, over any value that the key has. -/
def mutate (rows : Rows) (item : Mutation) : Rows :=
  if item.isDelete then rows.erase item.key else rows.insert item.key item.value

/-- What the mutations of some entries make of an empty store, one after the other. -/
def replayData (entries : List Entry) : Rows := (entries.flatMap (·.items)).foldl mutate ∅

/-- Whether a key lies in a partition that holds data and is not the fence of that partition. -/
def holdsKey (key : Bytes) : Bool :=
  match Key.partition? key with
  | some p => p.holdsData && key != Key.fence p
  | none => false

/-- The rows of the partitions that hold data, without the fences. -/
def data (rows : Rows) : Rows := rows.filter fun key _ => holdsKey key

/-! ## Batches, key by key -/

/-- The operation of a mutation does what the mutation is meant to do. -/
theorem apply_toOp (rows : Rows) (item : Mutation) : rows.apply item.toOp = rows.mutate item := by
  unfold Mutation.toOp mutate
  split <;> rfl

theorem applyAll_dataOps (rows : Rows) (e : Entry) :
    rows.applyAll e.dataOps = e.items.foldl mutate rows := by
  simp only [applyAll, Entry.dataOps, List.foldl_map, apply_toOp]

theorem replayData_eq_applyAll (entries : List Entry) :
    replayData entries = applyAll ∅ (entries.flatMap Entry.dataOps) := by
  simp only [replayData, applyAll, List.foldl_flatMap, Entry.dataOps, List.foldl_map, apply_toOp]

/-- What a batch makes of a key depends on the batch and on that key alone. -/
theorem getElem?_applyAll_congr {rows other : Rows} {key : Bytes} (ops : List BatchOp)
    (h : rows[key]? = other[key]?) : (rows.applyAll ops)[key]? = (other.applyAll ops)[key]? := by
  induction ops generalizing rows other with
  | nil => exact h
  | cons op ops ih =>
    rw [applyAll_cons, applyAll_cons]
    apply ih
    rw [getElem?_apply, getElem?_apply, h]

theorem getElem?_applyAll_recordOps (rows : Rows) (e : Entry) (key : Bytes) :
    (rows.applyAll e.recordOps)[key]? =
      if Key.logTime e.timestamp e.id = key then some []
      else if Key.log e.id = key then some (Stored.encode e) else rows[key]? := by
  simp only [Entry.recordOps, applyAll_cons, applyAll_nil, getElem?_apply, BatchOp.key]
  rfl

/-- The mutations of an entry leave the keys alone that are not ones of data. -/
theorem getElem?_applyAll_dataOps (rows : Rows) {e : Entry}
    (he : ∀ item ∈ e.items, Key.isData item.key = true) {key : Bytes}
    (hkey : Key.isData key = false) : (rows.applyAll e.dataOps)[key]? = rows[key]? := by
  apply getElem?_applyAll_of_notMem
  intro hmem
  obtain ⟨op, hop, rfl⟩ := List.mem_map.mp hmem
  rw [Entry.data_key he hop] at hkey
  exact absurd hkey (by decide)

/-- Outside the data, the batch of an entry writes its record and its place in the time index. -/
theorem getElem?_applyAll_ops (rows : Rows) {e : Entry}
    (he : ∀ item ∈ e.items, Key.isData item.key = true) {key : Bytes} (hkey : Key.isData key = false) :
    (rows.applyAll e.ops)[key]? =
      if Key.logTime e.timestamp e.id = key then some []
      else if Key.log e.id = key then some (Stored.encode e) else rows[key]? := by
  rw [Entry.ops, applyAll_append, getElem?_applyAll_dataOps _ he hkey, getElem?_applyAll_recordOps]

/-- Of the records, the batch of an entry writes its own. -/
theorem getElem?_log_applyAll_ops (rows : Rows) {e : Entry}
    (he : ∀ item ∈ e.items, Key.isData item.key = true) (id : LogId) :
    (rows.applyAll e.ops)[Key.log id]? =
      if e.id = id then some (Stored.encode e) else rows[Key.log id]? := by
  rw [getElem?_applyAll_ops rows he (Key.isData_eq_false (Key.partition?_log id) rfl),
    if_neg (Key.logTime_ne_log _ _ id)]
  simp only [Key.log_inj]

/-- On keys of data, the batch of an entry does what its mutations do. -/
theorem getElem?_applyAll_ops_of_data (rows : Rows) (e : Entry) {key : Bytes} {p : Partition}
    (hp : Key.partition? key = some p) (hd : p.holdsData = true) :
    (rows.applyAll e.ops)[key]? = (rows.applyAll e.dataOps)[key]? := by
  rw [Entry.ops, applyAll_append]
  apply getElem?_applyAll_congr
  rw [getElem?_applyAll_recordOps, if_neg, if_neg]
  · rintro rfl
    rw [Key.partition?_log] at hp
    cases hp
    exact absurd hd (by decide)
  · rintro rfl
    rw [Key.partition?_logTime] at hp
    cases hp
    exact absurd hd (by decide)

/-! ## The fences -/

theorem getElem?_fenced_fence (p : Partition) : fenced[Key.fence p]? = some [] := by
  cases p <;> decide

/-- Nothing but the fences is there at first. -/
theorem getElem?_fenced_eq_none {key : Bytes} (h : ∀ p, key ≠ Key.fence p) : fenced[key]? = none := by
  have hmem : key ∉ (Partition.all.map fun p => BatchOp.put (Key.fence p) []).map BatchOp.key := by
    intro hin
    obtain ⟨op, hop, rfl⟩ := List.mem_map.mp hin
    obtain ⟨p, -, rfl⟩ := List.mem_map.mp hop
    exact h p rfl
  rw [fenced, getElem?_applyAll_of_notMem _ _ _ hmem]
  exact ExtTreeMap.getElem?_empty

/-! ## Replay, entry by entry -/

theorem replay_nil : replay [] = fenced := rfl

theorem replay_append (entries : List Entry) (e : Entry) :
    replay (entries ++ [e]) = (replay entries).applyAll e.ops := by
  rw [replay, replay, List.flatMap_append, applyAll_append, List.flatMap_singleton]

theorem replayData_append (entries : List Entry) (e : Entry) :
    replayData (entries ++ [e]) = (replayData entries).applyAll e.dataOps := by
  rw [replayData_eq_applyAll, replayData_eq_applyAll, List.flatMap_append, applyAll_append,
    List.flatMap_singleton]

section History

variable {entries : List Entry}

/-- The fences outlast every batch. -/
theorem getElem?_replay_fence (h : IsHistory entries) (p : Partition) :
    (replay entries)[Key.fence p]? = some [] := by
  induction entries using List.reverseRecOn with
  | nil => exact getElem?_fenced_fence p
  | append_singleton entries e ih =>
    have he : e ∈ entries ++ [e] := List.mem_append_right _ (List.mem_singleton_self e)
    rw [replay_append, getElem?_applyAll_ops _ (h.proper e he).data (Key.isData_fence p),
      if_neg (Key.logTime_ne_fence _ _ p), if_neg, ih h.of_append]
    intro hfence
    exact h.id_ne_zero he (Key.log_eq_fence_iff.mp hfence).2

/-- The record of every entry is in place. -/
theorem getElem?_replay_log (h : IsHistory entries) {e : Entry} (he : e ∈ entries) :
    (replay entries)[Key.log e.id]? = some (Stored.encode e) := by
  induction entries using List.reverseRecOn with
  | nil => cases he
  | append_singleton entries last ih =>
    have hlast : last ∈ entries ++ [last] := List.mem_append_right _ (List.mem_singleton_self last)
    rw [replay_append, getElem?_log_applyAll_ops _ (h.proper last hlast).data]
    by_cases hid : last.id = e.id
    · have hsame : last = e := h.eq_of_id hlast he hid
      rw [if_pos hid, hsame]
    · rw [if_neg hid]
      refine ih h.of_append ?_
      rcases List.mem_append.mp he with he | he
      · exact he
      · exact absurd (by rw [List.mem_singleton.mp he]) hid

/-- A key outside the data is a fence, a record's key or a key of the time index. -/
theorem mem_replay_iff (h : IsHistory entries) {key : Bytes} (hkey : Key.isData key = false) :
    key ∈ replay entries ↔ (∃ p, key = Key.fence p) ∨
      ∃ e ∈ entries, key = Key.log e.id ∨ key = Key.logTime e.timestamp e.id := by
  rw [ExtTreeMap.mem_iff_isSome_getElem?]
  induction entries using List.reverseRecOn with
  | nil =>
    constructor
    · intro hsome
      left
      by_contra hnone
      rw [replay_nil, getElem?_fenced_eq_none (fun p hp => hnone ⟨p, hp⟩)] at hsome
      cases hsome
    · rintro (⟨p, rfl⟩ | ⟨e, he, -⟩)
      · rw [replay_nil, getElem?_fenced_fence]
        rfl
      · cases he
  | append_singleton entries last ih =>
    have hlast : last ∈ entries ++ [last] := List.mem_append_right _ (List.mem_singleton_self last)
    rw [replay_append, getElem?_applyAll_ops _ (h.proper last hlast).data hkey]
    -- a key that is not of data was written by the last entry, or it was there before
    by_cases hindex : Key.logTime last.timestamp last.id = key
    · rw [if_pos hindex]
      exact ⟨fun _ => Or.inr ⟨last, hlast, Or.inr hindex.symm⟩, fun _ => rfl⟩
    · by_cases hrecord : Key.log last.id = key
      · rw [if_neg hindex, if_pos hrecord]
        exact ⟨fun _ => Or.inr ⟨last, hlast, Or.inl hrecord.symm⟩, fun _ => rfl⟩
      · rw [if_neg hindex, if_neg hrecord, ih h.of_append]
        apply or_congr Iff.rfl
        constructor
        · rintro ⟨e, he, hkeys⟩
          exact ⟨e, List.mem_append_left _ he, hkeys⟩
        · rintro ⟨e, he, hkeys⟩
          rcases List.mem_append.mp he with he | he
          · exact ⟨e, he, hkeys⟩
          · rw [List.mem_singleton.mp he] at hkeys
            rcases hkeys with hkeys | hkeys
            · exact absurd hkeys.symm hrecord
            · exact absurd hkeys.symm hindex

/-- On a partition that holds data, the replay of the batches is that of the mutations alone. -/
theorem getElem?_replay_data (entries : List Entry) {key : Bytes} {p : Partition}
    (hp : Key.partition? key = some p) (hd : p.holdsData = true) (hne : key ≠ Key.fence p) :
    (replay entries)[key]? = (replayData entries)[key]? := by
  induction entries using List.reverseRecOn with
  | nil =>
    have hfence : ∀ q, key ≠ Key.fence q := by
      rintro q rfl
      rw [Key.partition?_fence] at hp
      cases hp
      exact hne rfl
    rw [replay_nil, getElem?_fenced_eq_none hfence]
    exact ExtTreeMap.getElem?_empty.symm
  | append_singleton entries e ih =>
    rw [replay_append, replayData_append, getElem?_applyAll_ops_of_data _ e hp hd]
    exact getElem?_applyAll_congr _ ih

theorem holdsKey_of_isData {key : Bytes} (h : Key.isData key = true) : holdsKey key = true := by
  obtain ⟨p, hp, hd, hne, -⟩ := Key.isData_spec h
  simp [holdsKey, hp, hd, hne]

/-- Mutations of data put nothing anywhere else. -/
theorem getElem?_replayData_eq_none (h : IsHistory entries) {key : Bytes}
    (hkey : holdsKey key = false) : (replayData entries)[key]? = none := by
  rw [replayData_eq_applyAll, getElem?_applyAll_of_notMem]
  · exact ExtTreeMap.getElem?_empty
  · intro hmem
    obtain ⟨op, hop, rfl⟩ := List.mem_map.mp hmem
    obtain ⟨e, he, hop⟩ := List.mem_flatMap.mp hop
    rw [holdsKey_of_isData (Entry.data_key (h.proper e he).data hop)] at hkey
    cases hkey

/-- The data of a store that took in a history are what its mutations make of nothing. -/
theorem data_replay (h : IsHistory entries) : (replay entries).data = replayData entries := by
  apply ExtTreeMap.ext_getElem?
  intro key
  rw [data, ExtTreeMap.getElem?_filter']
  cases hkey : holdsKey key with
  | false =>
    rw [getElem?_replayData_eq_none h hkey]
    cases (replay entries)[key]? <;> rfl
  | true =>
    unfold holdsKey at hkey
    split at hkey
    · next p hp =>
      rw [Bool.and_eq_true, bne_iff_ne] at hkey
      rw [← getElem?_replay_data entries hp hkey.1 hkey.2]
      cases (replay entries)[key]? <;> rfl
    · cases hkey

end History

end Rows

end LogShipping
