import LogShipping.Proofs.Entry.Burst
import LogShipping.Proofs.Entry.Stored

/-!
# Damage to stored records

A stored record is four octets of checksum, eight of length, and the octets of the entry. It is read
back as its entry, and whatever stands behind it is left alone. Damage that keeps the length is noticed
as long as it stays within the checksum or within four neighbouring octets of the entry
(`decode_record_or_damaged`): no such damage turns a record into that of another entry.

Damage is looked at part by part. A checksum that was overwritten is another checksum of the same
octets; octets that were overwritten under the same checksum are a burst in what the checksum is of.
Either way the frame, which is known by what it holds (`frame_inj`), does not come out of the octets any
more.

The eight octets of length are left out. A length that was overwritten makes the reader take other
octets for the entry, and then the check is of octets that differ in number; whether it notices is not
settled here. Damage in both parts at once is not settled either.
-/

namespace LogShipping

open Binary Checksum

namespace Stored

/-- Where the octets of the entry begin in a stored record: behind the checksum and the length. -/
def bodyStart : Nat := 4 + 8

theorem write_frame (checksum : UInt32) (body : Bytes) :
    frame.write (checksum, body) =
      Bytes.littleEndian 4 checksum.toNat ++ (Bytes.littleEndian 8 body.length ++ body) := by
  have octets : body.flatMap Codec.octet.write = body := by
    induction body with
    | nil => rfl
    | cons b rest ih => rw [List.flatMap_cons, ih, Codec.write_octet]; rfl
  simp only [frame, Codec.pair, Codec.word32, Codec.via, Codec.word, Codec.octets, Codec.list,
    octets]

/-- Octets under the checksum of other octets are not read. -/
theorem decode_frame_of_ne {checksum : UInt32} {body : Bytes} (hfits : body.length < Bytes.values 8)
    (hne : crc32 body ≠ checksum) :
    decode (frame.write (checksum, body)) = .error .checksum := by
  have hframe := @Codec.ExactOn.decode_write _ _ _ exactOn_frame (checksum, body) hfits []
  rw [List.append_nil] at hframe
  simp only [decode, hframe, if_pos hne]

/-- A frame is known by what it holds. -/
theorem frame_inj {a b : UInt32 × Bytes} (ha : a.2.length < Bytes.values 8)
    (hb : b.2.length < Bytes.values 8) (h : frame.write a = frame.write b) : a = b := by
  have hread := Codec.ExactOn.decode_write exactOn_frame ha []
  rw [h, Codec.ExactOn.decode_write exactOn_frame hb []] at hread
  exact (Except.ok.inj hread).symm

theorem take_bodyStart_frame (checksum : UInt32) (body : Bytes) :
    (frame.write (checksum, body)).take bodyStart =
      Bytes.littleEndian 4 checksum.toNat ++ Bytes.littleEndian 8 body.length := by
  rw [write_frame, ← List.append_assoc, List.take_left' (by simp [bodyStart])]

theorem drop_bodyStart_frame (checksum : UInt32) (body : Bytes) :
    (frame.write (checksum, body)).drop bodyStart = body := by
  rw [write_frame, ← List.append_assoc, List.drop_left' (by simp [bodyStart])]

theorem drop_checksum_frame (checksum : UInt32) (body : Bytes) :
    (frame.write (checksum, body)).drop 4 = Bytes.littleEndian 8 body.length ++ body := by
  rw [write_frame, List.drop_left' (Bytes.length_littleEndian _ _)]

theorem length_frame (checksum : UInt32) (body : Bytes) :
    (frame.write (checksum, body)).length = bodyStart + body.length := by
  simp [write_frame, bodyStart]
  omega

/-- Damage to the checksum makes it another checksum of the same octets. -/
theorem frame_of_checksum_burst {checksum : UInt32} {body damaged : Bytes}
    (h : Burst 0 (frame.write (checksum, body)) damaged) :
    ∃ other, other ≠ checksum ∧ damaged = frame.write (other, body) := by
  have hsize : (damaged.take 4).length = 4 := by
    rw [List.length_take, h.length_eq, length_frame, bodyStart]
    omega
  have hrest : damaged.drop 4 = Bytes.littleEndian 8 body.length ++ body := by
    rw [h.drop_eq (Nat.le_refl 4), drop_checksum_frame]
  -- Any four octets are the written form of the number that they spell.
  have hword : damaged.take 4 =
      Bytes.littleEndian 4 (UInt32.ofNat (Bytes.ofLittleEndian (damaged.take 4))).toNat := by
    have hlt : Bytes.ofLittleEndian (damaged.take 4) < 2 ^ 32 :=
      ofLittleEndian_lt_two_pow (Nat.le_of_eq hsize)
    have hspelt := Bytes.littleEndian_ofLittleEndian (damaged.take 4)
    rw [hsize] at hspelt
    rw [UInt32.toNat_ofNat', Nat.mod_eq_of_lt hlt, hspelt]
  have hframe : damaged =
      frame.write (UInt32.ofNat (Bytes.ofLittleEndian (damaged.take 4)), body) := by
    rw [write_frame, ← hword, ← hrest, List.take_append_drop]
  refine ⟨_, ?_, hframe⟩
  intro same
  exact h.differs (by rw [hframe, same])

/-- Damage to the octets of an entry leaves the frame around them as it was. -/
theorem frame_of_body_burst {checksum : UInt32} {body damaged : Bytes} {start : Nat}
    (hstart : bodyStart ≤ start) (h : Burst start (frame.write (checksum, body)) damaged) :
    ∃ other, Burst (start - bodyStart) body other ∧ damaged = frame.write (checksum, other) := by
  have hinner := h.drop hstart
  rw [drop_bodyStart_frame] at hinner
  refine ⟨damaged.drop bodyStart, hinner, ?_⟩
  calc damaged
      = damaged.take bodyStart ++ damaged.drop bodyStart := (List.take_append_drop _ _).symm
    _ = (Bytes.littleEndian 4 checksum.toNat ++ Bytes.littleEndian 8 body.length)
          ++ damaged.drop bodyStart := by
        rw [h.take_eq hstart, take_bodyStart_frame]
    _ = frame.write (checksum, damaged.drop bodyStart) := by
        rw [write_frame, hinner.length_eq, List.append_assoc]

/-- Another checksum over the same octets is such damage. -/
theorem burst_frame_of_checksum {checksum other : UInt32} {body : Bytes}
    (hfits : body.length < Bytes.values 8) (hne : other ≠ checksum) :
    Burst 0 (frame.write (checksum, body)) (frame.write (other, body)) := by
  refine Burst.iff_parts.mpr ⟨by rw [length_frame, length_frame], rfl, ?_, ?_⟩
  · rw [Nat.zero_add, drop_checksum_frame, drop_checksum_frame]
  · intro h
    exact hne (congrArg Prod.fst (frame_inj (a := (other, body)) (b := (checksum, body)) hfits hfits h))

/-- A burst in the octets of an entry is one in its record. -/
theorem burst_frame_of_body (checksum : UInt32) {body damaged : Bytes} {start : Nat}
    (h : Burst start body damaged) :
    Burst (bodyStart + start) (frame.write (checksum, body)) (frame.write (checksum, damaged)) := by
  have h' := h.append_left ((frame.write (checksum, body)).take bodyStart)
  rw [List.length_take, length_frame, Nat.min_eq_left (Nat.le_add_right _ _), take_bodyStart_frame,
    List.append_assoc, ← write_frame] at h'
  rwa [write_frame checksum damaged, h.length_eq, ← List.append_assoc]

/-- A record that something follows is read as if it stood alone. -/
theorem decode_encode_append {e : Entry} (h : e.Fits) (rest : Bytes) :
    decode (encode e ++ rest) = .ok e := by
  have hframe : frame.decode (encode e ++ rest) =
      .ok (crc32 (Entry.codec.write e), Entry.codec.write e) :=
    @Codec.ExactOn.decode_write _ _ _ exactOn_frame
      (crc32 (Entry.codec.write e), Entry.codec.write e) h rest
  have hbody := Entry.exactOn_codec.decode_write h.countable []
  rw [List.append_nil] at hbody
  simp only [decode, hframe, ne_eq, not_true_eq_false, if_false, hbody]

/-- **Records keep their entry or show the damage.** The stored record of an entry is read back as
that entry, with or without octets behind it. After damage within its checksum, or within four
neighbouring octets of the entry, it is not read at all. -/
theorem decode_record_or_damaged {e : Entry} (h : e.Fits) :
    decode (encode e) = .ok e ∧
    (∀ rest, decode (encode e ++ rest) = .ok e) ∧
    ∀ start damaged, start = 0 ∨ bodyStart ≤ start → Burst start (encode e) damaged →
      decode damaged = .error .checksum := by
  refine ⟨decode_encode h, decode_encode_append h, ?_⟩
  rintro start damaged (rfl | hstart) hburst
  · obtain ⟨other, hother, rfl⟩ := frame_of_checksum_burst hburst
    exact decode_frame_of_ne h (Ne.symm hother)
  · obtain ⟨body, hbody, rfl⟩ := frame_of_body_burst hstart hburst
    refine decode_frame_of_ne ?_ (crc32_ne_of_burst hbody)
    rw [hbody.length_eq]
    exact h

/-- An entry that writes one record and removes another. -/
def twoRecords : Entry where
  id := 7
  timestamp := 9
  updater := "x"
  items := [.put (Key.record 7) [1, 2, 3], .delete (Key.record 8)]

/-- Two octets of an entry overwritten, three places apart; then a checksum of which every bit is
wrong. -/
theorem two_records_damaged :
    let body := Entry.codec.write twoRecords
    let overwritten := (body.set 50 255).set 53 255
    twoRecords.Fits ∧ decode (encode twoRecords ++ [0]) = .ok twoRecords ∧
    Burst (bodyStart + 50) (encode twoRecords) (frame.write (crc32 body, overwritten)) ∧
    decode (frame.write (crc32 body, overwritten)) = .error .checksum ∧
    Burst 0 (encode twoRecords) (frame.write (~~~ crc32 body, body)) ∧
    decode (frame.write (~~~ crc32 body, body)) = .error .checksum := by
  intro body overwritten
  have hfits : twoRecords.Fits := by
    rw [Entry.Fits]
    decide +kernel
  have hinner : Burst 50 body overwritten := by
    decide +kernel
  have hbody := burst_frame_of_body (crc32 body) hinner
  have hflipped : ~~~ crc32 body ≠ crc32 body := by
    intro h
    have low := congrArg (·.toBitVec.getLsbD 0) h
    simp at low
  have hchecksum := burst_frame_of_checksum hfits hflipped
  obtain ⟨-, happended, hdamaged⟩ := decode_record_or_damaged hfits
  exact ⟨hfits, happended [0], hbody, hdamaged _ _ (.inr (Nat.le_add_right _ _)) hbody, hchecksum,
    hdamaged 0 _ (.inl rfl) hchecksum⟩

end Stored

end LogShipping
