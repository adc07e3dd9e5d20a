import LogShipping.Binary

/-!
# Exactness of the binary format

A codec is exact on a class of values when its reader accepts precisely what its writer produces from
that class: nothing is lost by writing, and no value has a second written form. Main statements: the
codecs of numbers, truth values and texts are exact, and pairs, options and lists of exact codecs are
exact again.
-/

namespace LogShipping.Binary

/-! ## Successful steps -/

/-- A sequence of steps succeeds exactly when each of them does. -/
theorem bind_eq_ok {ε α β : Type} {x : Except ε α} {next : α → Except ε β} {b : β} :
    (x >>= next) = .ok b ↔ ∃ a, x = .ok a ∧ next a = .ok b := by
  cases x <;> simp [bind, Except.bind]

/-- A plain result is the only success of itself. -/
theorem pure_eq_ok {ε α : Type} {a b : α} : (pure a : Except ε α) = .ok b ↔ a = b := by
  simp [pure, Except.pure]

namespace Codec

/-! ## Exact codecs -/

variable {α β : Type}

/-- On the values that satisfy `P`, and on no others, the reader accepts exactly what the writer
produces, and leaves alone whatever follows. -/
def ExactOn (codec : Codec α) (P : α → Prop) : Prop :=
  ∀ input value rest,
    codec.read input = .ok (value, rest) ↔ P value ∧ input = codec.write value ++ rest

/-- A number has one written form of each width that has room for it. -/
theorem exactOn_word (width : Nat) : (word width).ExactOn (· < Bytes.values width) := by
  intro input value rest
  simp only [word]
  constructor
  · intro h
    split at h
    · cases h
    · next full =>
      -- The reader takes a full width, and the octets taken are those of the number they spell.
      have size : (input.take width).length = width := by
        have := List.length_take_le width input
        omega
      cases h
      refine ⟨?_, ?_⟩
      · simpa [size] using Bytes.ofLittleEndian_lt (input.take width)
      · have octets := Bytes.littleEndian_ofLittleEndian (input.take width)
        rw [size] at octets
        rw [octets, List.take_append_drop]
  · rintro ⟨bound, rfl⟩
    have taken : (Bytes.littleEndian width value ++ rest).take width
        = Bytes.littleEndian width value := by
      simp
    rw [taken, if_neg (by simp), Bytes.ofLittleEndian_littleEndian, Nat.mod_eq_of_lt bound]
    simp

/-- A type that is one to one with the values of a codec inherits its exactness. -/
theorem ExactOn.via {codec : Codec β} {P : β → Prop} (exact : codec.ExactOn P) {forth : α → β}
    {back : β → α} (left : ∀ a, back (forth a) = a) (right : ∀ b, P b → forth (back b) = b) :
    (codec.via forth back).ExactOn fun a => P (forth a) := by
  intro input value rest
  simp only [Codec.via]
  constructor
  · intro h
    cases hr : codec.read input with
    | error fault => simp [hr, Except.map] at h
    | ok row =>
      obtain ⟨b, rest'⟩ := row
      simp only [hr, Except.map, Except.ok.injEq, Prod.mk.injEq] at h
      obtain ⟨rfl, rfl⟩ := h
      obtain ⟨hb, rfl⟩ := (exact _ _ _).mp hr
      rw [right b hb]
      exact ⟨hb, rfl⟩
  · rintro ⟨hp, rfl⟩
    rw [(exact _ _ _).mpr ⟨hp, rfl⟩]
    simp [Except.map, left]

/-- An octet is its own written form. -/
theorem exactOn_octet : octet.ExactOn fun _ => True := by
  have h : octet.ExactOn fun b => b.toNat < Bytes.values 1 :=
    (exactOn_word 1).via (by simp) (by intro b hb; simpa [Bytes.values] using hb)
  intro input value rest
  have bound : value.toNat < Bytes.values 1 := value.toNat_lt
  simpa [bound] using h input value rest

/-- A number of 32 bits has four octets. -/
theorem exactOn_word32 : word32.ExactOn fun _ => True := by
  have h : word32.ExactOn fun n => n.toNat < Bytes.values 4 :=
    (exactOn_word 4).via (by simp) (by intro b hb; simpa [Bytes.values] using hb)
  intro input value rest
  have bound : value.toNat < Bytes.values 4 := value.toNat_lt
  simpa [bound] using h input value rest

/-- A number of 64 bits has eight octets. -/
theorem exactOn_word64 : word64.ExactOn fun _ => True := by
  have h : word64.ExactOn fun n => n.toNat < Bytes.values 8 :=
    (exactOn_word 8).via (by simp) (by intro b hb; simpa [Bytes.values] using hb)
  intro input value rest
  have bound : value.toNat < Bytes.values 8 := value.toNat_lt
  simpa [bound] using h input value rest

@[simp] theorem write_octet (b : UInt8) : octet.write b = [b] := by
  simp [octet, Codec.via, word, Bytes.littleEndian]

@[simp] theorem read_octet_cons (b : UInt8) (rest : Bytes) : octet.read (b :: rest) = .ok (b, rest) :=
  (exactOn_octet _ _ _).mpr ⟨trivial, by simp⟩

/-! ## Composed codecs -/

/-- Two exact codecs, one after the other, are exact. -/
theorem ExactOn.pair {first : Codec α} {second : Codec β} {P : α → Prop} {Q : β → Prop}
    (hf : first.ExactOn P) (hs : second.ExactOn Q) :
    (first.pair second).ExactOn fun v => P v.1 ∧ Q v.2 := by
  intro input value rest
  obtain ⟨a, b⟩ := value
  simp only [Codec.pair, bind_eq_ok, pure_eq_ok, Prod.exists, Prod.mk.injEq]
  constructor
  · rintro ⟨a', middle, ha, b', rest', hb, ⟨rfl, rfl⟩, rfl⟩
    obtain ⟨pa, rfl⟩ := (hf _ _ _).mp ha
    obtain ⟨pb, rfl⟩ := (hs _ _ _).mp hb
    exact ⟨⟨pa, pb⟩, by simp⟩
  · rintro ⟨⟨pa, pb⟩, rfl⟩
    exact ⟨a, second.write b ++ rest, (hf _ _ _).mpr ⟨pa, by simp⟩, b, rest,
      (hs _ _ _).mpr ⟨pb, rfl⟩, ⟨rfl, rfl⟩, rfl⟩

/-- The two truth values have one octet each, and no other octet is a truth value. -/
theorem exactOn_truth : truth.ExactOn fun _ => True := by
  intro input value rest
  simp only [truth, bind_eq_ok, Prod.exists, true_and]
  constructor
  · rintro ⟨mark, rest', ho, h⟩
    obtain ⟨-, rfl⟩ := (exactOn_octet _ _ _).mp ho
    -- Of all octets only 0 and 1 are marks.
    by_cases h0 : mark = 0
    · simp only [h0, if_true, pure_eq_ok, Prod.mk.injEq] at h
      obtain ⟨rfl, rfl⟩ := h
      simp [h0]
    · by_cases h1 : mark = 1
      · subst h1
        simp only [if_neg h0, if_true, pure_eq_ok, Prod.mk.injEq] at h
        obtain ⟨rfl, rfl⟩ := h
        simp
      · simp [h0, h1, throw, throwThe, MonadExceptOf.throw] at h
  · rintro rfl
    refine ⟨if value then 1 else 0, rest, by simp, ?_⟩
    cases value <;> simp [pure_eq_ok]

/-- A value that may be absent is as exact as the value itself. -/
theorem ExactOn.option {codec : Codec α} {P : α → Prop} (exact : codec.ExactOn P) :
    (option codec).ExactOn fun value => ∀ a, value = some a → P a := by
  intro input value rest
  simp only [Codec.option, bind_eq_ok, Prod.exists]
  constructor
  · rintro ⟨mark, rest', ho, h⟩
    obtain ⟨-, rfl⟩ := (exactOn_octet _ _ _).mp ho
    by_cases h0 : mark = 0
    · simp only [h0, if_true, pure_eq_ok, Prod.mk.injEq] at h
      obtain ⟨rfl, rfl⟩ := h
      simp [h0]
    · by_cases h1 : mark = 1
      · subst h1
        simp only [if_neg h0, if_true, bind_eq_ok, pure_eq_ok, Prod.exists, Prod.map,
          Prod.mk.injEq] at h
        obtain ⟨a, rest'', ha, rfl, rfl⟩ := h
        obtain ⟨pa, rfl⟩ := (exact _ _ _).mp ha
        simp [pa]
      · simp [h0, h1, throw, throwThe, MonadExceptOf.throw] at h
  · rintro ⟨hp, rfl⟩
    cases value with
    | none => exact ⟨0, rest, by simp, by simp [pure_eq_ok]⟩
    | some a =>
      have ha := (exact (codec.write a ++ rest) a rest).mpr ⟨hp a rfl, rfl⟩
      refine ⟨1, codec.write a ++ rest, by simp, ?_⟩
      simp [ha, bind, Except.bind, pure, Except.pure]

/-- Reading a number of values takes exactly their written forms, one after another. -/
theorem readMany_eq_ok_iff {codec : Codec α} {P : α → Prop} (exact : codec.ExactOn P)
    (count : Nat) (taken : List α) (input : Bytes) (values : List α) (rest : Bytes) :
    readMany codec count taken input = .ok (values, rest) ↔
      ∃ more : List α, values = taken.reverse ++ more ∧ more.length = count ∧
        (∀ v ∈ more, P v) ∧ input = more.flatMap codec.write ++ rest := by
  induction count generalizing taken input with
  | zero =>
    simp only [readMany, Except.ok.injEq, Prod.mk.injEq, List.length_eq_zero_iff]
    constructor
    · rintro ⟨rfl, rfl⟩
      exact ⟨[], by simp⟩
    · rintro ⟨more, rfl, rfl, -, rfl⟩
      simp
  | succ count ih =>
    simp only [readMany]
    constructor
    · intro h
      cases hr : codec.read input with
      | error fault => simp [hr] at h
      | ok row =>
        obtain ⟨v, middle⟩ := row
        simp only [hr] at h
        obtain ⟨pv, rfl⟩ := (exact _ _ _).mp hr
        obtain ⟨more, rfl, rfl, pm, rfl⟩ := (ih _ _).mp h
        refine ⟨v :: more, by simp, by simp, ?_, by simp⟩
        simpa [pv] using pm
    · rintro ⟨more, rfl, size, pm, rfl⟩
      cases more with
      | nil => simp at size
      | cons v more =>
        simp only [List.mem_cons, forall_eq_or_imp] at pm
        have hr := (exact (codec.write v ++ (more.flatMap codec.write ++ rest)) v
          (more.flatMap codec.write ++ rest)).mpr ⟨pm.1, rfl⟩
        simp only [List.flatMap_cons, List.append_assoc, hr]
        exact (ih _ _).mpr ⟨more, by simp, by simpa using size, pm.2, rfl⟩

/-- A list is exact if its elements are and its length has eight octets. -/
theorem ExactOn.list {codec : Codec α} {P : α → Prop} (exact : codec.ExactOn P) :
    (list codec).ExactOn fun values =>
      values.length < Bytes.values 8 ∧ ∀ v ∈ values, P v := by
  intro input values rest
  simp only [Codec.list, bind_eq_ok, Prod.exists]
  constructor
  · rintro ⟨count, rest', hc, h⟩
    obtain ⟨bound, rfl⟩ := (exactOn_word 8 _ _ _).mp hc
    obtain ⟨more, rfl, rfl, pm, rfl⟩ := (readMany_eq_ok_iff exact _ _ _ _ _).mp h
    exact ⟨⟨by simpa using bound, by simpa using pm⟩, by simp⟩
  · rintro ⟨⟨bound, pm⟩, rfl⟩
    refine ⟨values.length, values.flatMap codec.write ++ rest,
      (exactOn_word 8 _ _ _).mpr ⟨bound, by simp⟩, ?_⟩
    exact (readMany_eq_ok_iff exact _ _ _ _ _).mpr ⟨values, by simp, rfl, pm, rfl⟩

/-- A text is exact if the number of its octets has eight octets. -/
theorem exactOn_text : text.ExactOn fun s => (Bytes.ofString s).length < Bytes.values 8 := by
  intro input s rest
  simp only [text, bind_eq_ok, Prod.exists]
  constructor
  · rintro ⟨count, rest', hc, h⟩
    obtain ⟨bound, rfl⟩ := (exactOn_word 8 _ _ _).mp hc
    split at h
    · simp [throw, throwThe, MonadExceptOf.throw] at h
    · next full =>
      cases hd : Utf8.decode (rest'.take count) with
      | error fault => simp [hd, throw, throwThe, MonadExceptOf.throw] at h
      | ok t =>
        simp only [hd, pure_eq_ok, Prod.mk.injEq] at h
        obtain ⟨rfl, rfl⟩ := h
        have octets := Utf8.decode_eq_ok_iff.mp hd
        have size : (Bytes.ofString t).length = count := by
          rw [← octets]
          have := List.length_take_le count rest'
          omega
        rw [size]
        refine ⟨bound, ?_⟩
        rw [← octets, List.append_assoc, List.take_append_drop]
  · rintro ⟨bound, rfl⟩
    refine ⟨(Bytes.ofString s).length, Bytes.ofString s ++ rest,
      (exactOn_word 8 _ _ _).mpr ⟨bound, by simp⟩, ?_⟩
    have hd : Utf8.decode (Bytes.ofString s) = .ok s := Utf8.decode_eq_ok_iff.mpr rfl
    simp [hd, pure_eq_ok]

end Codec

end LogShipping.Binary
