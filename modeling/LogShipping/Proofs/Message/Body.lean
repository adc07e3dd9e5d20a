import LogShipping.Error
import LogShipping.Proofs.Entry.Stored
import LogShipping.Proofs.Text.Base64

/-!
# Wire texts of messages

The binary form of a message is read back whatever follows it, and nothing else is read as that message
(`Message.codec_faithful`); this is put together from the codecs of what messages hold. The wire text is
the Base64 text of the binary form. What a text is read as is settled by it alone: blanks around it do
not count, octets behind the message neither, and any other text is an error of the protocol
(`Message.body_exact`).

A codec is faithful if what it writes is read back and what it reads was written. Both directions are
needed: the first says that a message arrives, the second that a text of another message does not arrive
as this one. Faithfulness goes through pairs, lists, alternatives and other types in turn, so a message
with a field more needs one line.

Lists end at a count and not at the end of the text, which is why octets may follow. A message is asked
to have a form of fewer than 2^64 octets, since counts are written in eight; what is longer is held in
no memory. The texts of faults are those of the codec that gives up first.
-/

namespace LogShipping

open Binary (bind_eq_ok pure_eq_ok)

/-! ## Faithful codecs -/

namespace Binary.Codec

variable {α β : Type}

/-- Whatever has a written form that can be counted in eight octets satisfies `P`. -/
def Covers (codec : Codec α) (P : α → Prop) : Prop :=
  ∀ value, (codec.write value).length < Bytes.values 8 → P value

/-- A codec that is exact on whatever can be counted in eight octets, as anything held in memory can. -/
def Faithful (codec : Codec α) : Prop := ∃ P, codec.ExactOn P ∧ codec.Covers P

namespace Faithful

/-- What was written is read back. -/
theorem read_write {codec : Codec α} (h : codec.Faithful) {value : α}
    (hfits : (codec.write value).length < Bytes.values 8) (rest : Bytes) :
    codec.read (codec.write value ++ rest) = .ok (value, rest) := by
  obtain ⟨P, exact, covers⟩ := h
  exact (exact _ _ _).mpr ⟨covers value hfits, rfl⟩

/-- What is read was written. -/
theorem eq_write {codec : Codec α} (h : codec.Faithful) {input rest : Bytes} {value : α}
    (hread : codec.read input = .ok (value, rest)) : input = codec.write value ++ rest := by
  obtain ⟨P, exact, covers⟩ := h
  exact ((exact _ _ _).mp hread).2

theorem word32 : word32.Faithful := ⟨_, exactOn_word32, fun _ _ => trivial⟩

theorem word64 : word64.Faithful := ⟨_, exactOn_word64, fun _ _ => trivial⟩

theorem truth : truth.Faithful := ⟨_, exactOn_truth, fun _ _ => trivial⟩

theorem text : text.Faithful := by
  refine ⟨_, exactOn_text, ?_⟩
  intro s hfits
  simp only [Codec.text, List.length_append] at hfits
  omega

theorem pair {first : Codec α} {second : Codec β} (hfirst : first.Faithful)
    (hsecond : second.Faithful) : (first.pair second).Faithful := by
  obtain ⟨P, exact₁, covers₁⟩ := hfirst
  obtain ⟨Q, exact₂, covers₂⟩ := hsecond
  refine ⟨_, exact₁.pair exact₂, ?_⟩
  intro value hfits
  simp only [Codec.pair, List.length_append] at hfits
  exact ⟨covers₁ _ (by omega), covers₂ _ (by omega)⟩

theorem option {codec : Codec α} (h : codec.Faithful) : (option codec).Faithful := by
  obtain ⟨P, exact, covers⟩ := h
  refine ⟨_, exact.option, ?_⟩
  rintro value hfits a rfl
  simp only [Codec.option, List.length_cons] at hfits
  exact covers a (by omega)

/-- A list is faithful if its members are and none of them is written as nothing. -/
theorem list {codec : Codec α} (h : codec.Faithful) (hwritten : ∀ v, 1 ≤ (codec.write v).length) :
    (list codec).Faithful := by
  obtain ⟨P, exact, covers⟩ := h
  refine ⟨_, exact.list, ?_⟩
  intro values hfits
  rw [length_write_list] at hfits
  have hlength := length_le_flatMap codec values fun v _ => hwritten v
  refine ⟨by omega, ?_⟩
  intro v hv
  have hpart := length_write_le_flatMap codec hv
  exact covers v (by omega)

/-- The written form of another type. -/
theorem via {codec : Codec β} (h : codec.Faithful) {forth : α → β} {back : β → α}
    (left : ∀ a, back (forth a) = a) (right : ∀ b, forth (back b) = b) :
    (codec.via forth back).Faithful := by
  obtain ⟨P, exact, covers⟩ := h
  exact ⟨_, exact.via left fun b _ => right b, fun value hfits => covers (forth value) hfits⟩

end Faithful

end Binary.Codec

open Binary

/-! ## What messages hold -/

theorem Entry.codec_faithful : Entry.codec.Faithful :=
  ⟨_, Entry.exactOn_codec, fun _ hfits => Entry.Fits.countable hfits⟩

theorem Host.codec_faithful : Host.codec.Faithful :=
  (Codec.Faithful.text.pair (Codec.Faithful.word64.pair Codec.Faithful.word64)).via (fun _ => rfl)
    fun _ => rfl

theorem Entry.one_le_length_write (e : Entry) : 1 ≤ (Entry.codec.write e).length := by
  rw [Entry.length_write]
  omega

theorem Host.one_le_length_write (h : Host) : 1 ≤ (Host.codec.write h).length := by
  simp only [Host.codec, Codec.via, Codec.pair, Codec.text, Codec.word, List.length_append,
    Bytes.length_littleEndian]
  omega

theorem Host.codec_list_faithful : (Codec.list Host.codec).Faithful :=
  Host.codec_faithful.list Host.one_le_length_write

theorem Chunk.codec_faithful : Chunk.codec.Faithful :=
  (Codec.Faithful.word64.pair (Codec.Faithful.word64.pair
    ((Entry.codec_faithful.list Entry.one_le_length_write).pair Codec.Faithful.truth))).via
    (fun _ => rfl) fun _ => rfl

/-! ## Blanks around a text -/

namespace Text

theorem dropWhile_blanks {before rest : List Char} (hbefore : ∀ c ∈ before, isBlank c = true)
    (hrest : ∀ c ∈ rest.head?, isBlank c = false) : (before ++ rest).dropWhile isBlank = rest := by
  rw [List.dropWhile_append_of_pos hbefore]
  cases rest with
  | nil => rfl
  | cons c rest => exact List.dropWhile_cons_of_neg (by simp [hrest c rfl])

/-- What is between blanks stays, if it has none itself. -/
theorem trimList_between {before core after : List Char} (hbefore : ∀ c ∈ before, isBlank c = true)
    (hcore : ∀ c ∈ core, isBlank c = false) (hafter : ∀ c ∈ after, isBlank c = true) :
    trimList (before ++ core ++ after) = core := by
  unfold trimList
  by_cases hempty : core = []
  · have hall : ∀ c ∈ before ++ after, isBlank c = true := by
      intro c hc
      rcases List.mem_append.mp hc with hc | hc
      · exact hbefore c hc
      · exact hafter c hc
    have hnothing : (before ++ after ++ []).dropWhile isBlank = [] := dropWhile_blanks hall (by simp)
    rw [List.append_nil] at hnothing
    rw [hempty, List.append_nil, hnothing]
    rfl
  · have hfront : (before ++ core ++ after).dropWhile isBlank = core ++ after := by
      rw [List.append_assoc]
      refine dropWhile_blanks hbefore ?_
      cases core with
      | nil => exact (hempty rfl).elim
      | cons c rest =>
        rintro d hd
        cases hd
        exact hcore c List.mem_cons_self
    have hback : (after.reverse ++ core.reverse).dropWhile isBlank = core.reverse := by
      refine dropWhile_blanks (fun c hc => hafter c (List.mem_reverse.mp hc)) ?_
      exact fun c hc => hcore c (List.mem_reverse.mp (List.mem_of_mem_head? hc))
    rw [hfront, List.reverse_append, hback, List.reverse_reverse]

theorem trim_between {before after s : String} (hbefore : ∀ c ∈ before.toList, isBlank c = true)
    (hs : ∀ c ∈ s.toList, isBlank c = false) (hafter : ∀ c ∈ after.toList, isBlank c = true) :
    trim (before ++ s ++ after) = s := by
  rw [trim, String.toList_append, String.toList_append, trimList_between hbefore hs hafter,
    String.ofList_toList]

end Text

namespace Message

/-! ## Binary form -/

theorem registerCodec_faithful : registerCodec.Faithful :=
  Codec.Faithful.text.pair (Codec.Faithful.word64.pair Host.codec_list_faithful)

theorem readOneCodec_faithful : readOneCodec.Faithful :=
  Codec.Faithful.word64.pair Entry.codec_faithful.option

theorem readLogCodec_faithful : readLogCodec.Faithful :=
  Codec.Faithful.text.pair (Codec.Faithful.word64.pair
    (Codec.Faithful.word32.pair Chunk.codec_faithful))

theorem pushTransactionCodec_faithful : pushTransactionCodec.Faithful :=
  Codec.Faithful.text.pair (Entry.codec_faithful.pair Codec.Faithful.truth)

theorem statusCodec_faithful : statusCodec.Faithful :=
  Codec.Faithful.text.pair (Codec.Faithful.word64.pair
    (Codec.Faithful.truth.pair Codec.Faithful.text))

/-- The octets of a message can be counted, as those of anything held in memory can. -/
def Fits (m : Message) : Prop := (codec.write m).length < Bytes.values 8

/-- The number of a content and the content are read back one after the other. -/
theorem read_choice {α : Type} {content : Codec α} (faithful : content.Faithful) {n : UInt32}
    (value : α) (hfits : (Codec.word32.write n ++ content.write value).length < Bytes.values 8)
    (rest : Bytes) :
    Codec.word32.read (Codec.word32.write n ++ content.write value ++ rest) =
        .ok (n, content.write value ++ rest) ∧
      content.read (content.write value ++ rest) = .ok (value, rest) := by
  rw [List.length_append] at hfits
  refine ⟨?_, faithful.read_write (by omega) rest⟩
  exact (Codec.exactOn_word32 _ _ _).mpr ⟨trivial, List.append_assoc _ _ _⟩

/-- A message is read back, whatever follows it. -/
theorem read_write {m : Message} (h : m.Fits) (rest : Bytes) :
    codec.read (codec.write m ++ rest) = .ok (m, rest) := by
  cases m with
  | register url logPosition hosts =>
    obtain ⟨hchoice, hcontent⟩ := read_choice registerCodec_faithful (url, logPosition, hosts) h rest
    exact bind_eq_ok.mpr ⟨_, hchoice, bind_eq_ok.mpr ⟨_, hcontent, rfl⟩⟩
  | readOne id entry =>
    obtain ⟨hchoice, hcontent⟩ := read_choice readOneCodec_faithful (id, entry) h rest
    exact bind_eq_ok.mpr ⟨_, hchoice, bind_eq_ok.mpr ⟨_, hcontent, rfl⟩⟩
  | readLog url lastSeen limit chunk =>
    obtain ⟨hchoice, hcontent⟩ := read_choice readLogCodec_faithful (url, lastSeen, limit, chunk) h rest
    exact bind_eq_ok.mpr ⟨_, hchoice, bind_eq_ok.mpr ⟨_, hcontent, rfl⟩⟩
  | setHosts hosts =>
    obtain ⟨hchoice, hcontent⟩ := read_choice Host.codec_list_faithful hosts h rest
    exact bind_eq_ok.mpr ⟨_, hchoice, bind_eq_ok.mpr ⟨_, hcontent, rfl⟩⟩
  | addHost host =>
    obtain ⟨hchoice, hcontent⟩ := read_choice Host.codec_faithful host h rest
    exact bind_eq_ok.mpr ⟨_, hchoice, bind_eq_ok.mpr ⟨_, hcontent, rfl⟩⟩
  | pushTransaction source entry accepted =>
    obtain ⟨hchoice, hcontent⟩ := read_choice pushTransactionCodec_faithful (source, entry, accepted) h rest
    exact bind_eq_ok.mpr ⟨_, hchoice, bind_eq_ok.mpr ⟨_, hcontent, rfl⟩⟩
  | status url logPosition isMaster masterAddress =>
    obtain ⟨hchoice, hcontent⟩ := read_choice statusCodec_faithful (url, logPosition, isMaster, masterAddress) h rest
    exact bind_eq_ok.mpr ⟨_, hchoice, bind_eq_ok.mpr ⟨_, hcontent, rfl⟩⟩

/-- A content that is read was written, behind its number too. -/
theorem append_choice {α : Type} {content : Codec α} (faithful : content.Faithful) {n : UInt32}
    {value : α} {body rest : Bytes} (h : content.read body = .ok (value, rest)) :
    Codec.word32.write n ++ body = Codec.word32.write n ++ content.write value ++ rest := by
  rw [faithful.eq_write h, List.append_assoc]

/-- What is read as a message was written of it. -/
theorem eq_write {input rest : Bytes} {m : Message} (h : codec.read input = .ok (m, rest)) :
    input = codec.write m ++ rest := by
  obtain ⟨⟨choice, body⟩, hchoice, hbody⟩ := bind_eq_ok.mp h
  obtain ⟨-, rfl⟩ := (Codec.exactOn_word32 _ _ _).mp hchoice
  -- the number decides which content is read
  dsimp only at hbody
  split_ifs at hbody with h0 h1 h2 h3 h4 h5 h6
  · subst h0
    obtain ⟨⟨⟨url, logPosition, hosts⟩, tail⟩, hcontent, hm⟩ := bind_eq_ok.mp hbody
    cases hm
    exact append_choice registerCodec_faithful hcontent
  · subst h1
    obtain ⟨⟨⟨id, entry⟩, tail⟩, hcontent, hm⟩ := bind_eq_ok.mp hbody
    cases hm
    exact append_choice readOneCodec_faithful hcontent
  · subst h2
    obtain ⟨⟨⟨url, lastSeen, limit, chunk⟩, tail⟩, hcontent, hm⟩ := bind_eq_ok.mp hbody
    cases hm
    exact append_choice readLogCodec_faithful hcontent
  · subst h3
    obtain ⟨⟨hosts, tail⟩, hcontent, hm⟩ := bind_eq_ok.mp hbody
    cases hm
    exact append_choice Host.codec_list_faithful hcontent
  · subst h4
    obtain ⟨⟨host, tail⟩, hcontent, hm⟩ := bind_eq_ok.mp hbody
    cases hm
    exact append_choice Host.codec_faithful hcontent
  · subst h5
    obtain ⟨⟨⟨source, entry, accepted⟩, tail⟩, hcontent, hm⟩ := bind_eq_ok.mp hbody
    cases hm
    exact append_choice pushTransactionCodec_faithful hcontent
  · subst h6
    obtain ⟨⟨⟨url, logPosition, isMaster, masterAddress⟩, tail⟩, hcontent, hm⟩ := bind_eq_ok.mp hbody
    cases hm
    exact append_choice statusCodec_faithful hcontent

/-- Octets that give a message begin with it. -/
theorem prefix_of_decode {m : Message} {octets : Bytes} (h : codec.decode octets = .ok m) :
    codec.write m <+: octets := by
  unfold Codec.decode at h
  cases hread : codec.read octets with
  | error fault =>
    rw [hread] at h
    cases h
  | ok row =>
    obtain ⟨found, rest⟩ := row
    rw [hread] at h
    cases h
    exact ⟨rest, (eq_write hread).symm⟩

/-- Octets give a message exactly if they begin with it. -/
theorem decode_eq_ok_iff_begins {m : Message} (h : m.Fits) {octets : Bytes} :
    codec.decode octets = .ok m ↔ codec.write m <+: octets := by
  refine ⟨prefix_of_decode, ?_⟩
  rintro ⟨rest, rfl⟩
  rw [Codec.decode, read_write h]
  rfl

/-! ## Wire texts -/

/-- The message of a wire text, as the service and its callers take it: a text that holds none is an
error of the protocol. -/
def received (body : String) : Except Error Message :=
  (ofBody body).mapError fun fault => .protocol (.body fault)

/-- The message of a wire text is what the octets of the trimmed text begin with. -/
theorem received_eq_ok_iff {body : String} {m : Message} :
    received body = .ok m ↔
      ∃ octets, Text.trim body = Base64.text octets ∧ codec.decode octets = .ok m := by
  unfold received ofBody
  constructor
  · intro h
    cases hbase : Base64.decode (Bytes.ofString (Text.trim body)) with
    | error fault =>
      rw [hbase] at h
      cases h
    | ok octets =>
      rw [hbase] at h
      refine ⟨octets, Base64.decode_ofString.mp hbase, ?_⟩
      cases hdecode : codec.decode octets with
      | error fault =>
        simp only [hdecode] at h
        cases h
      | ok found =>
        simp only [hdecode] at h
        cases h
        rfl
  · rintro ⟨octets, htext, hdecode⟩
    rw [Base64.decode_ofString.mpr htext]
    simp only [hdecode]
    rfl

theorem received_toBody {m : Message} (h : m.Fits) {body : String}
    (hbody : Text.trim body = m.toBody) : received body = .ok m :=
  received_eq_ok_iff.mpr ⟨codec.write m, hbody,
    (decode_eq_ok_iff_begins h).mpr (List.prefix_refl _)⟩

/-- A wire text has no blanks to lose. -/
theorem trim_toBody (m : Message) : Text.trim m.toBody = m.toBody := by
  have hnone : ∀ c ∈ "".toList, Text.isBlank c = true := by simp
  have hcore : ∀ c ∈ m.toBody.toList, Text.isBlank c = false := fun _ hc =>
    Base64.isBlank_of_mem_text hc
  have htrim := Text.trim_between hnone hcore hnone
  rwa [String.empty_append, String.append_empty] at htrim

/-- What is not read as a message is an error of the protocol. -/
theorem received_eq_ok_or_protocol (body : String) :
    (∃ m, received body = .ok m) ∨ ∃ fault, received body = .error (.protocol (.body fault)) := by
  unfold received
  cases ofBody body with
  | ok m => exact Or.inl ⟨m, rfl⟩
  | error fault => exact Or.inr ⟨fault, rfl⟩

/-! ## Exactness -/

/-- Messages and wire texts determine each other: a message is received from its own text, also with
blanks around it; a text gives a message exactly if it is, but for the blanks around it, the Base64 text
of octets that begin with the message; and any other text is an error of the protocol. -/
theorem body_exact :
    (∀ (m : Message) (before after : String), m.Fits → (∀ c ∈ before.toList, Text.isBlank c = true) →
      (∀ c ∈ after.toList, Text.isBlank c = true) →
        received (before ++ m.toBody ++ after) = .ok m) ∧
    (∀ (body : String) (m : Message), m.Fits →
      (received body = .ok m ↔
        ∃ octets, Text.trim body = Base64.text octets ∧ codec.write m <+: octets)) ∧
    ∀ body : String,
      (∀ m octets, ¬ (Text.trim body = Base64.text octets ∧ codec.write m <+: octets)) →
        ∃ fault, received body = .error (.protocol (.body fault)) := by
  refine ⟨?_, ?_, ?_⟩
  · intro m before after hfits hbefore hafter
    exact received_toBody hfits
      (Text.trim_between hbefore (fun _ hc => Base64.isBlank_of_mem_text hc) hafter)
  · intro body m hfits
    simp only [received_eq_ok_iff, decode_eq_ok_iff_begins hfits]
  · intro body hnone
    rcases received_eq_ok_or_protocol body with ⟨m, hm⟩ | herror
    · obtain ⟨octets, htext, hdecode⟩ := received_eq_ok_iff.mp hm
      exact (hnone m octets ⟨htext, prefix_of_decode hdecode⟩).elim
    · exact herror

/-- A page with one entry, which writes a record for someone outside ASCII and removes a blob. -/
def samplePage : Message :=
  .readLog "http://b" 41 500
    { currid := 42, timestamp := 7, isCurrent := true
      entries := [{ id := 42, timestamp := 7, updater := "ä",
                    items := [.put (Key.record 5) [1, 2], .delete (Key.encode .blob 3 [9])] }] }

/-- A page is received from its text between line ends and blanks, and from the text of its octets with
another octet behind them. -/
theorem body_exact_page :
    samplePage.Fits ∧ (∀ c ∈ "\n ".toList, Text.isBlank c = true) ∧
      received ("\n " ++ samplePage.toBody ++ "\n ") = .ok samplePage ∧
      received (Base64.text (codec.write samplePage ++ [255])) = .ok samplePage := by
  have hfits : samplePage.Fits := by
    unfold Fits
    decide +kernel
  have hblank : ∀ c ∈ "\n ".toList, Text.isBlank c = true := List.all_eq_true.mp (by decide)
  refine ⟨hfits, hblank, body_exact.1 samplePage "\n " "\n " hfits hblank hblank, ?_⟩
  refine (body_exact.2.1 _ samplePage hfits).mpr ⟨codec.write samplePage ++ [255], ?_, ?_⟩
  · decide +kernel
  · exact List.prefix_append _ _

end Message

end LogShipping
