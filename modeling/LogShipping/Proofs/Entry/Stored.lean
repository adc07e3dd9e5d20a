import LogShipping.Binary.Exact
import LogShipping.Entry
import Mathlib.Tactic.Common

/-!
# Stored records of entries

The binary form writes every length in eight octets, so it loses nothing of an entry whose own form can
be counted in eight octets (`Entry.Fits`), as that of anything held in memory can. The stored record of
such an entry is read back as the entry (`Stored.decode_encode`). Neither the id nor the timestamp
changes the length, so an entry fits before its commit exactly when it fits after it.

There are two notions of room. `Fits` speaks of the whole, and is what statements elsewhere ask for: the
form of the entry takes fewer than 2^64 octets. `Countable` speaks of each count that is written: the
name of the originator, the number of mutations, every key and every value. The first gives the second
(`Fits.countable`), as a part is no longer than the whole, and the codec asks for the second.

`Fits` is the one place where the development stops short of all entries. Beyond it a count would be cut
off at the eighth octet and another entry would be read back; no machine holds such an entry, and
nothing is said of it.
-/

namespace LogShipping

open Binary

namespace Binary.Codec

variable {α : Type}

/-- What an exact codec has written is read back, whatever follows it. -/
theorem ExactOn.decode_write {codec : Codec α} {P : α → Prop} (exact : codec.ExactOn P) {value : α}
    (h : P value) (rest : Bytes) : codec.decode (codec.write value ++ rest) = .ok value := by
  have hread := (exact (codec.write value ++ rest) value rest).mpr ⟨h, rfl⟩
  rw [decode, hread]
  rfl

/-- Octets that are read begin with what was written. -/
theorem ExactOn.of_decode {codec : Codec α} {P : α → Prop} (exact : codec.ExactOn P) {input : Bytes}
    {value : α} (h : codec.decode input = .ok value) : P value ∧ codec.write value <+: input := by
  rw [decode] at h
  cases hread : codec.read input with
  | error fault =>
    rw [hread] at h
    cases h
  | ok row =>
    obtain ⟨found, rest⟩ := row
    rw [hread] at h
    cases h
    obtain ⟨hvalue, hinput⟩ := (exact _ _ _).mp hread
    exact ⟨hvalue, rest, hinput.symm⟩

theorem length_write_list (codec : Codec α) (values : List α) :
    ((list codec).write values).length = 8 + (values.flatMap codec.write).length := by
  simp [list, word]

/-- The written form of a member is a part of the written form of the list. -/
theorem length_write_le_flatMap (codec : Codec α) {values : List α} {value : α}
    (h : value ∈ values) : (codec.write value).length ≤ (values.flatMap codec.write).length := by
  obtain ⟨front, back, rfl⟩ := List.append_of_mem h
  simp only [List.flatMap_append, List.flatMap_cons, List.length_append]
  omega

/-- A list is no longer than its written form, if every member has one. -/
theorem length_le_flatMap (codec : Codec α) (values : List α)
    (h : ∀ value ∈ values, 1 ≤ (codec.write value).length) :
    values.length ≤ (values.flatMap codec.write).length := by
  induction values with
  | nil => simp
  | cons value rest ih =>
    have hfirst := h value List.mem_cons_self
    have hrest := ih fun v hv => h v (List.mem_cons_of_mem _ hv)
    simp only [List.flatMap_cons, List.length_append, List.length_cons]
    omega

theorem length_write_octets (bytes : Bytes) : (octets.write bytes).length = 8 + bytes.length := by
  rw [octets, length_write_list]
  have h : bytes.flatMap octet.write = bytes := by
    induction bytes with
    | nil => rfl
    | cons b rest ih => rw [List.flatMap_cons, ih, write_octet]; rfl
  rw [h]

end Binary.Codec

/-! ## Entries that fit -/

namespace Mutation

theorem length_write (m : Mutation) :
    (codec.write m).length = 8 + m.key.length + (8 + m.value.length + 1) := by
  simp [codec, Codec.via, Codec.pair, Codec.length_write_octets, Codec.truth]

/-- A mutation is read back if its key and its value can be counted. -/
theorem exactOn_codec : codec.ExactOn fun m =>
    m.key.length < Bytes.values 8 ∧ m.value.length < Bytes.values 8 := by
  have octets := Codec.exactOn_octet.list
  have exact : codec.ExactOn _ :=
    (octets.pair (octets.pair Codec.exactOn_truth)).via (fun _ => rfl) (fun _ _ => rfl)
  intro input m rest
  simpa using exact input m rest

end Mutation

namespace Entry

/-- The octets of an entry can be counted, as those of anything held in memory can. -/
def Fits (e : Entry) : Prop := (codec.write e).length < Bytes.values 8

theorem length_write (e : Entry) :
    (codec.write e).length =
      32 + (Bytes.ofString e.updater).length + (e.items.flatMap Mutation.codec.write).length := by
  simp only [codec, Codec.via, Codec.pair, Codec.word64, Codec.word, Codec.text,
    List.length_append, Bytes.length_littleEndian, Codec.length_write_list]
  omega

/-- Only the originator and the mutations decide whether an entry fits. -/
theorem fits_congr {e f : Entry} (hupdater : e.updater = f.updater) (hitems : e.items = f.items) :
    e.Fits ↔ f.Fits := by
  rw [Fits, Fits, length_write, length_write, hupdater, hitems]

/-- Whether all counts of an entry have room in its binary form. -/
def Countable (e : Entry) : Prop :=
  (Bytes.ofString e.updater).length < Bytes.values 8 ∧ e.items.length < Bytes.values 8 ∧
    ∀ m ∈ e.items, m.key.length < Bytes.values 8 ∧ m.value.length < Bytes.values 8

theorem exactOn_codec : codec.ExactOn Countable := by
  have exact : codec.ExactOn _ :=
    (Codec.exactOn_word64.pair (Codec.exactOn_word64.pair
      (Codec.exactOn_text.pair Mutation.exactOn_codec.list))).via (fun _ => rfl) (fun _ _ => rfl)
  intro input e rest
  simpa [Countable] using exact input e rest

/-- If the whole can be counted then so can every part. -/
theorem Fits.countable {e : Entry} (h : e.Fits) : e.Countable := by
  rw [Fits, length_write] at h
  have hitems : e.items.length ≤ (e.items.flatMap Mutation.codec.write).length := by
    apply Codec.length_le_flatMap
    intro m _
    rw [Mutation.length_write]
    omega
  refine ⟨by omega, by omega, ?_⟩
  intro m hm
  have hpart := Codec.length_write_le_flatMap Mutation.codec hm
  rw [Mutation.length_write] at hpart
  constructor
  · omega
  · omega

end Entry

/-! ## Stored records -/

namespace Stored

theorem exactOn_frame : frame.ExactOn fun row => row.2.length < Bytes.values 8 := by
  have exact := Codec.exactOn_word32.pair Codec.exactOn_octet.list
  intro input row rest
  simpa [frame, Codec.octets] using exact input row rest

/-- A stored record is read back as the entry it was made of. -/
theorem decode_encode {e : Entry} (h : e.Fits) : decode (encode e) = .ok e := by
  have hframe : frame.decode (encode e) =
      .ok (Checksum.crc32 (Entry.codec.write e), Entry.codec.write e) := by
    have hread := @Codec.ExactOn.decode_write _ _ _ exactOn_frame
      (Checksum.crc32 (Entry.codec.write e), Entry.codec.write e) h []
    rwa [List.append_nil] at hread
  have hbody : Entry.codec.decode (Entry.codec.write e) = .ok e := by
    have hread := Entry.exactOn_codec.decode_write h.countable []
    rwa [List.append_nil] at hread
  rw [decode, hframe]
  simp only [ne_eq, not_true_eq_false, if_false, hbody]

/-- An entry that was read from a stored record fits into one. -/
theorem fits_of_decode {record : Bytes} {e : Entry} (h : decode record = .ok e) : e.Fits := by
  rw [decode] at h
  split at h
  · cases h
  · next checksum body hframe =>
    split at h
    · cases h
    · split at h
      · cases h
      · next hbody =>
        cases h
        exact Nat.lt_of_le_of_lt (Entry.exactOn_codec.of_decode hbody).2.length_le
          (exactOn_frame.of_decode hframe).1

/-- Different entries have different records. -/
theorem encode_inj {e f : Entry} (he : e.Fits) (hf : f.Fits) (h : encode e = encode f) : e = f := by
  have := decode_encode he
  rw [h, decode_encode hf] at this
  exact (Except.ok.inj this).symm

end Stored

end LogShipping
