import LogShipping.Entry.Batch
import LogShipping.Proofs.Entry.Stored
import LogShipping.Proofs.Key.Order

/-!
# Histories

What a log is made of: entries numbered from 1 on without a gap, each of which a commit would let
through (`IsHistory`). A history only ever grows at its end, an entry stands at the place that its id
names, and a history that is made of entries of another one is a beginning of it.

The last of these is what relates logs of different nodes: a follower holds some entries of its master's
history, they are numbered from 1, and so they are the first ones of it (`eq_take_of_subset`). It is why
nothing has to be said of the order in which entries reached the follower.

That an entry is one which a commit would let through (`Proper`) is two things. Its mutations touch keys
of data, which a commit looks after. And its octets can be counted in eight octets, which nobody looks
after: no memory holds an entry that breaks it, and every statement about histories leaves such entries
out.
-/

namespace LogShipping

/-! ## Entries of an honest origin -/

namespace Entry

/-- What a commit makes sure of, and the memory of a node besides: the mutations touch keys of data,
and the octets of the entry can be counted. -/
structure Proper (e : Entry) : Prop where
  data : ∀ item ∈ e.items, Key.isData item.key = true
  fits : e.Fits

theorem reserved?_eq_none_iff {e : Entry} :
    e.reserved? = none ↔ ∀ item ∈ e.items, Key.isData item.key = true := by
  simp [reserved?]

theorem data_key {e : Entry} (h : ∀ item ∈ e.items, Key.isData item.key = true) {op : BatchOp}
    (hop : op ∈ e.dataOps) : Key.isData op.key = true := by
  obtain ⟨item, hitem, rfl⟩ := List.mem_map.mp hop
  have : (Mutation.toOp item).key = item.key := by
    unfold Mutation.toOp
    split <;> rfl
  rw [this]
  exact h item hitem

end Entry

/-- Entries in the order of their ids, which count from 1, each of an honest origin. -/
structure IsHistory (entries : List Entry) : Prop where
  numbered : ∀ (i : Nat) (h : i < entries.length), entries[i].id.toNat = i + 1
  proper : ∀ e ∈ entries, e.Proper

namespace IsHistory

theorem nil : IsHistory [] where
  numbered := by
    intro i h
    exact absurd h (Nat.not_lt_zero i)
  proper := by simp

/-- Entries that are numbered on from the last id continue a history. -/
theorem append {entries new : List Entry} (h : IsHistory entries)
    (hnumbered : ∀ (i : Nat) (hi : i < new.length), new[i].id.toNat = entries.length + i + 1)
    (hnew : ∀ e ∈ new, e.Proper) : IsHistory (entries ++ new) where
  numbered := by
    intro i hi
    by_cases hlt : i < entries.length
    · rw [List.getElem_append_left hlt]
      exact h.numbered i hlt
    · rw [List.length_append] at hi
      rw [List.getElem_append_right (by omega), hnumbered _ (by omega)]
      omega
  proper := by
    intro f hf
    rcases List.mem_append.mp hf with hf | hf
    · exact h.proper f hf
    · exact hnew f hf

theorem of_append {first second : List Entry} (h : IsHistory (first ++ second)) :
    IsHistory first where
  numbered := by
    intro i hi
    have := h.numbered i (by rw [List.length_append]; omega)
    rwa [List.getElem_append_left hi] at this
  proper := fun e he => h.proper e (List.mem_append_left _ he)

/-- The last entry has the number of entries as its id. -/
theorem id_last {entries : List Entry} {e : Entry} (h : IsHistory (entries ++ [e])) :
    e.id.toNat = entries.length + 1 := by
  have := h.numbered entries.length (by simp)
  simpa using this

theorem mem_iff {entries : List Entry} (h : IsHistory entries) {e : Entry} :
    e ∈ entries ↔ 1 ≤ e.id.toNat ∧ entries[e.id.toNat - 1]? = some e := by
  constructor
  · intro he
    obtain ⟨i, hi, rfl⟩ := List.getElem_of_mem he
    rw [h.numbered i hi]
    exact ⟨by omega, by simp [hi]⟩
  · rintro ⟨-, he⟩
    exact List.mem_of_getElem? he

/-- No two entries have the same id. -/
theorem eq_of_id {entries : List Entry} (h : IsHistory entries) {e f : Entry} (he : e ∈ entries)
    (hf : f ∈ entries) (hid : e.id = f.id) : e = f := by
  have h1 := (h.mem_iff.mp he).2
  have h2 := (h.mem_iff.mp hf).2
  rw [hid, h2] at h1
  exact (Option.some.inj h1).symm

/-- Ids of entries are 1 at least and no more than the number of entries. -/
theorem id_bounds {entries : List Entry} (h : IsHistory entries) {e : Entry} (he : e ∈ entries) :
    1 ≤ e.id.toNat ∧ e.id.toNat ≤ entries.length := by
  obtain ⟨i, hi, rfl⟩ := List.getElem_of_mem he
  rw [h.numbered i hi]
  omega

theorem id_ne_zero {entries : List Entry} (h : IsHistory entries) {e : Entry} (he : e ∈ entries) :
    e.id ≠ 0 := by
  intro h0
  have := (h.id_bounds he).1
  rw [h0] at this
  exact absurd this (by decide)

/-- There is an entry of every id up to the number of entries. -/
theorem exists_of_id {entries : List Entry} (h : IsHistory entries) {id : LogId}
    (h1 : 1 ≤ id.toNat) (hn : id.toNat ≤ entries.length) : ∃ e ∈ entries, e.id = id := by
  have hi : id.toNat - 1 < entries.length := by omega
  refine ⟨entries[id.toNat - 1], List.getElem_mem hi, ?_⟩
  apply UInt64.toNat_inj.mp
  rw [h.numbered _ hi]
  omega

/-- A history that is made of entries of another one is a beginning of it. -/
theorem eq_take_of_subset {entries part : List Entry} (h : IsHistory entries)
    (hpart : IsHistory part) (hsub : ∀ e ∈ part, e ∈ entries) : part = entries.take part.length := by
  apply List.ext_getElem?
  intro i
  by_cases hi : i < part.length
  · have hmem := hsub part[i] (List.getElem_mem hi)
    have hat := (h.mem_iff.mp hmem).2
    rw [hpart.numbered i hi, Nat.add_sub_cancel] at hat
    rw [List.getElem?_take_of_lt hi, hat, List.getElem?_eq_getElem hi]
  · rw [List.getElem?_eq_none (by omega), List.getElem?_eq_none (by simp; omega)]

end IsHistory

end LogShipping
