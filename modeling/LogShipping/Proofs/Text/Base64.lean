import LogShipping.Binary.Exact
import LogShipping.Text.Base64
import LogShipping.Text.Blank
import LogShipping.Text.Utf8
import Mathlib.Tactic.Common

/-!
# Exactness of Base64

Decoding accepts precisely the texts that encoding writes, and gives back what was encoded
(`decode_eq_ok_iff_encode`). The last group is what takes work: its padding has to fill it up, and the
bits that belong to no octet have to be zero, so that no byte string has a second text. As a string such
a text is made of ASCII characters, whose octets are the symbols themselves (`ofString_text`).

All groups but the last are four symbols for three octets, and the two are compared as one number of 24
bits (`encode_threeOctets`, `threeOctets_spelled`), by arithmetic and not by going through the alphabet.
The last group is split into symbols and padding (`scanLast_sound`), and each of its two short forms has
a lemma for either direction.

It is the standard alphabet with padding, and decoding is strict: blanks, a missing padding or stray
bits are errors. Which error is told, and at which place, is part of the definitions and is not
characterised here.
-/

namespace LogShipping

/-! ## ASCII text -/

namespace Bytes

theorem ofString_ofList (chars : List Char) :
    ofString (String.ofList chars) = chars.flatMap String.utf8EncodeChar := by
  simp [ofString, String.ofList, List.utf8Encode]

/-- Different strings have different octets. -/
theorem ofString_inj {s t : String} (h : ofString s = ofString t) : s = t := by
  have hs : Utf8.decode (ofString s) = .ok s := Utf8.decode_eq_ok_iff.mpr rfl
  rw [h, Utf8.decode_eq_ok_iff.mpr rfl] at hs
  exact (Except.ok.inj hs).symm

/-- The string of ASCII characters with these octets. -/
def asText (bytes : Bytes) : String := String.ofList (bytes.map fun b => Char.ofNat b.toNat)

theorem utf8EncodeChar_ofNat : ∀ n < 128, String.utf8EncodeChar (Char.ofNat n) = [UInt8.ofNat n] := by
  decide +kernel

theorem ofString_asText {bytes : Bytes} (h : ∀ b ∈ bytes, b.toNat < 128) :
    ofString (asText bytes) = bytes := by
  rw [asText, ofString_ofList]
  induction bytes with
  | nil => rfl
  | cons b rest ih =>
    rw [List.map_cons, List.flatMap_cons, utf8EncodeChar_ofNat _ (h b List.mem_cons_self),
      UInt8.ofNat_toNat, ih fun c hc => h c (List.mem_cons_of_mem _ hc)]
    rfl

end Bytes

namespace Base64

open Binary (bind_eq_ok pure_eq_ok)

/-! ## Symbols -/

theorem symbol_ne_padding : ∀ v < 64, symbol v ≠ padding := by decide

theorem value?_ofNat : ∀ n < 256, ∀ v ∈ value? (UInt8.ofNat n), v < 64 ∧ UInt8.ofNat n = symbol v := by
  decide +kernel

/-- A symbol of the alphabet is the one of its value. -/
theorem eq_symbol_of_value? {s : UInt8} {v : Nat} (h : value? s = some v) : v < 64 ∧ s = symbol v := by
  have hs := value?_ofNat s.toNat s.toNat_lt v
  rw [UInt8.ofNat_toNat] at hs
  exact hs h

theorem eq_symbol_of_valueAt {offset v : Nat} {s : UInt8} (h : valueAt offset s = .ok v) :
    v < 64 ∧ s = symbol v := by
  unfold valueAt at h
  split at h
  · next w hw =>
    cases h
    exact eq_symbol_of_value? hw
  · cases h

theorem valueAt_symbol (offset : Nat) {v : Nat} (h : v < 64) : valueAt offset (symbol v) = .ok v := by
  rw [valueAt, value?_symbol v h]

/-! ## Encoding -/

theorem length_encode_mod (octets : Bytes) : (encode octets).length % 4 = 0 := by
  fun_induction encode octets with
  | case1 a b c rest n ih =>
    simp only [List.length_cons]
    omega
  | case2 => simp
  | case3 => simp
  | case4 => simp

/-- A byte string is no longer than its text. -/
theorem length_le_encode (octets : Bytes) : octets.length ≤ (encode octets).length := by
  fun_induction encode octets with
  | case1 a b c rest n ih =>
    simp only [List.length_cons]
    omega
  | case2 => simp
  | case3 => simp
  | case4 => simp

/-- A text consists of symbols and padding. -/
theorem mem_encode {octets : Bytes} {s : UInt8} (h : s ∈ encode octets) :
    s = padding ∨ ∃ v < 64, s = symbol v := by
  fun_induction encode octets with
  | case1 a b c rest n ih =>
    have ha := a.toNat_lt
    have hb := b.toNat_lt
    have hc := c.toNat_lt
    simp only [List.mem_cons] at h
    rcases h with rfl | rfl | rfl | rfl | h
    · exact Or.inr ⟨_, by omega, rfl⟩
    · exact Or.inr ⟨_, by omega, rfl⟩
    · exact Or.inr ⟨_, by omega, rfl⟩
    · exact Or.inr ⟨_, by omega, rfl⟩
    · exact ih h
  | case2 a b n =>
    have ha := a.toNat_lt
    have hb := b.toNat_lt
    simp only [List.mem_cons, List.not_mem_nil, or_false] at h
    rcases h with rfl | rfl | rfl | rfl
    · exact Or.inr ⟨_, by omega, rfl⟩
    · exact Or.inr ⟨_, by omega, rfl⟩
    · exact Or.inr ⟨_, by omega, rfl⟩
    · exact Or.inl rfl
  | case3 a =>
    have ha := a.toNat_lt
    simp only [List.mem_cons, List.not_mem_nil, or_false] at h
    rcases h with rfl | rfl | rfl | rfl
    · exact Or.inr ⟨_, by omega, rfl⟩
    · exact Or.inr ⟨_, by omega, rfl⟩
    · exact Or.inl rfl
    · exact Or.inl rfl
  | case4 => cases h

/-- The number that four symbols spell. -/
def spelled (a b c d : Nat) : Nat := a * 262144 + b * 4096 + c * 64 + d

/-- The three octets of a number. -/
def threeOctets (n : Nat) : Bytes := [UInt8.ofNat (n / 65536), UInt8.ofNat (n / 256), UInt8.ofNat n]

/-- Four symbols stand for the three octets of the number that they spell. -/
theorem encode_threeOctets {a b c d : Nat} (ha : a < 64) (hb : b < 64) (hc : c < 64) (hd : d < 64)
    (rest : Bytes) :
    encode (threeOctets (spelled a b c d) ++ rest) =
      symbol a :: symbol b :: symbol c :: symbol d :: encode rest := by
  have hfirst : spelled a b c d / 262144 = a := by unfold spelled; omega
  have hsecond : spelled a b c d / 4096 % 64 = b := by unfold spelled; omega
  have hthird : spelled a b c d / 64 % 64 = c := by unfold spelled; omega
  have hfourth : spelled a b c d % 64 = d := by unfold spelled; omega
  have hsize : spelled a b c d < 16777216 := by unfold spelled; omega
  generalize spelled a b c d = n at hfirst hsecond hthird hfourth hsize
  have hnumber : (UInt8.ofNat (n / 65536)).toNat * 65536 + (UInt8.ofNat (n / 256)).toNat * 256 +
      (UInt8.ofNat n).toNat = n := by
    rw [UInt8.toNat_ofNat', UInt8.toNat_ofNat', UInt8.toNat_ofNat']
    omega
  simp only [threeOctets, List.cons_append, List.nil_append, encode, hnumber, hfirst, hsecond, hthird,
    hfourth]

/-- Three octets are those of the number that their symbols spell. -/
theorem threeOctets_spelled (a b c : UInt8) :
    threeOctets (spelled ((a.toNat * 65536 + b.toNat * 256 + c.toNat) / 262144)
      ((a.toNat * 65536 + b.toNat * 256 + c.toNat) / 4096 % 64)
      ((a.toNat * 65536 + b.toNat * 256 + c.toNat) / 64 % 64)
      ((a.toNat * 65536 + b.toNat * 256 + c.toNat) % 64)) = [a, b, c] := by
  have ha := a.toNat_lt
  have hb := b.toNat_lt
  have hc := c.toNat_lt
  have hspelled : spelled ((a.toNat * 65536 + b.toNat * 256 + c.toNat) / 262144)
      ((a.toNat * 65536 + b.toNat * 256 + c.toNat) / 4096 % 64)
      ((a.toNat * 65536 + b.toNat * 256 + c.toNat) / 64 % 64)
      ((a.toNat * 65536 + b.toNat * 256 + c.toNat) % 64) =
      a.toNat * 65536 + b.toNat * 256 + c.toNat := by
    unfold spelled
    omega
  rw [hspelled, threeOctets]
  congr 1
  · apply UInt8.toNat_inj.mp
    rw [UInt8.toNat_ofNat']
    omega
  congr 1
  · apply UInt8.toNat_inj.mp
    rw [UInt8.toNat_ofNat']
    omega
  congr 1
  apply UInt8.toNat_inj.mp
  rw [UInt8.toNat_ofNat']
  omega

/-! ## The last group -/

/-- Behind padding in its place comes padding only. -/
theorem scanLast_padded {start pads count : Nat} {values taken : List Nat} {text : Bytes}
    (hpads : 0 < pads) (hvalues : 2 ≤ values.length)
    (h : scanLast start values pads text = .ok (taken, count)) :
    taken = values ∧ ∃ more, count = pads + more ∧ text = List.replicate more padding := by
  induction text generalizing pads with
  | nil =>
    cases h
    exact ⟨rfl, 0, rfl, rfl⟩
  | cons s rest ih =>
    unfold scanLast at h
    by_cases hs : s = padding
    · rw [if_pos hs, if_neg (by omega)] at h
      obtain ⟨htaken, more, hcount, hrest⟩ := ih (Nat.succ_pos pads) h
      exact ⟨htaken, more + 1, by omega, by rw [hs, hrest, List.replicate_succ]⟩
    · rw [if_neg hs, if_pos hpads] at h
      cases h

/-- A group that can be split is its symbols with padding behind them, which stands behind two
symbols at least. -/
theorem scanLast_sound {start count : Nat} {values taken : List Nat} {text : Bytes}
    (h : scanLast start values 0 text = .ok (taken, count)) :
    ∃ more : List Nat, (∀ v ∈ more, v < 64) ∧ taken = values ++ more ∧
      text = more.map symbol ++ List.replicate count padding ∧ (0 < count → 2 ≤ taken.length) := by
  induction text generalizing values with
  | nil =>
    cases h
    exact ⟨[], by simp⟩
  | cons s rest ih =>
    unfold scanLast at h
    by_cases hs : s = padding
    · rw [if_pos hs] at h
      split at h
      · cases h
      · next hroom =>
        have htwo : 2 ≤ values.length := by omega
        obtain ⟨rfl, more, hcount, hrest⟩ := scanLast_padded (Nat.succ_pos 0) htwo h
        refine ⟨[], by simp, by simp, ?_, fun _ => htwo⟩
        have hone : count = more + 1 := by omega
        rw [hs, hrest, hone, List.replicate_succ, List.map_nil, List.nil_append]
    · rw [if_neg hs, if_neg (Nat.lt_irrefl 0)] at h
      split at h
      · cases h
      · next v hv =>
        obtain ⟨hbound, hsymbol⟩ := eq_symbol_of_value? hv
        obtain ⟨more, hmore, htaken, hrest, htwo⟩ := ih h
        refine ⟨v :: more, ?_, by simp [htaken], by simp [← hsymbol, hrest], htwo⟩
        simpa [hbound] using hmore

/-- One octet is written as the two symbols that it comes from. -/
theorem encode_oneOctet {a b : Nat} (ha : a < 64) (hb : b < 64) (hzero : b % 16 = 0) :
    encode [UInt8.ofNat (a * 4 + b / 16)] = [symbol a, symbol b, padding, padding] := by
  have hoctet : (UInt8.ofNat (a * 4 + b / 16)).toNat = a * 4 + b / 16 := by
    rw [UInt8.toNat_ofNat']
    omega
  have hfirst : (a * 4 + b / 16) / 4 = a := by omega
  have hsecond : (a * 4 + b / 16) % 4 * 16 = b := by omega
  simp only [encode, hoctet, hfirst, hsecond]

/-- Two octets are written as the three symbols that they come from. -/
theorem encode_twoOctets {a b c : Nat} (ha : a < 64) (hb : b < 64) (hc : c < 64) (hzero : c % 4 = 0) :
    encode [UInt8.ofNat ((a * 1024 + b * 16 + c / 4) / 256), UInt8.ofNat (a * 1024 + b * 16 + c / 4)] =
      [symbol a, symbol b, symbol c, padding] := by
  have hnumber : (UInt8.ofNat ((a * 1024 + b * 16 + c / 4) / 256)).toNat * 256 +
      (UInt8.ofNat (a * 1024 + b * 16 + c / 4)).toNat = a * 1024 + b * 16 + c / 4 := by
    rw [UInt8.toNat_ofNat', UInt8.toNat_ofNat']
    omega
  have hfirst : (a * 1024 + b * 16 + c / 4) / 1024 = a := by omega
  have hsecond : (a * 1024 + b * 16 + c / 4) / 16 % 64 = b := by omega
  have hthird : (a * 1024 + b * 16 + c / 4) % 16 * 4 = c := by omega
  simp only [encode, hnumber, hfirst, hsecond, hthird]

/-- The symbols of one octet stand for it. -/
theorem finish_oneOctet (start : Nat) (a : UInt8) :
    finish start ([a.toNat / 4, a.toNat % 4 * 16], 2) = .ok [a] := by
  have hzero : a.toNat % 4 * 16 % 16 = 0 := by omega
  have hnumber : a.toNat / 4 * 4 + a.toNat % 4 * 16 / 16 = a.toNat := by omega
  simp only [finish, hzero, ne_eq, not_true_eq_false, if_false, hnumber, UInt8.ofNat_toNat]

/-- The symbols of two octets stand for them. -/
theorem finish_twoOctets (start : Nat) {a b : UInt8} {n : Nat} (hn : n = a.toNat * 256 + b.toNat) :
    finish start ([n / 1024, n / 16 % 64, n % 16 * 4], 1) = .ok [a, b] := by
  have ha := a.toNat_lt
  have hb := b.toNat_lt
  have hzero : n % 16 * 4 % 4 = 0 := by omega
  have hnumber : n / 1024 * 1024 + n / 16 % 64 * 16 + n % 16 * 4 / 4 = n := by omega
  have hfirst : UInt8.ofNat (n / 256) = a := by
    apply UInt8.toNat_inj.mp
    rw [UInt8.toNat_ofNat']
    omega
  have hsecond : UInt8.ofNat n = b := by
    apply UInt8.toNat_inj.mp
    rw [UInt8.toNat_ofNat']
    omega
  simp only [finish, hzero, ne_eq, not_true_eq_false, if_false, hnumber, hfirst, hsecond]

/-- What a last group stands for is written as that group. -/
theorem finish_sound {start pads : Nat} {values : List Nat} {octets : Bytes}
    (hvalues : ∀ v ∈ values, v < 64) (hpads : 0 < pads → 2 ≤ values.length)
    (hroom : values.length + pads ≤ 4) (h : finish start (values, pads) = .ok octets) :
    encode octets = values.map symbol ++ List.replicate pads padding := by
  match values with
  | [] =>
    have hzero : pads = 0 := by
      simp only [List.length_nil] at hpads
      omega
    subst hzero
    cases h
    rfl
  | [a] => cases h
  | [a, b] =>
    simp only [finish] at h
    split at h
    · cases h
    · next htwo =>
      split at h
      · cases h
      · next hzero =>
        cases h
        obtain rfl : pads = 2 := not_not.mp htwo
        exact encode_oneOctet (hvalues a (by simp)) (hvalues b (by simp)) (not_not.mp hzero)
  | [a, b, c] =>
    simp only [finish] at h
    split at h
    · cases h
    · next hone =>
      split at h
      · cases h
      · next hzero =>
        cases h
        obtain rfl : pads = 1 := not_not.mp hone
        exact encode_twoOctets (hvalues a (by simp)) (hvalues b (by simp)) (hvalues c (by simp))
          (not_not.mp hzero)
  | [a, b, c, d] =>
    cases h
    have hzero : pads = 0 := by
      simp only [List.length_cons, List.length_nil] at hroom
      omega
    subst hzero
    exact encode_threeOctets (hvalues a (by simp)) (hvalues b (by simp)) (hvalues c (by simp))
      (hvalues d (by simp)) []
  | a :: b :: c :: d :: e :: rest =>
    simp only [List.length_cons] at hroom
    omega

/-! ## Whole texts -/

theorem decodeFrom_sound {start : Nat} {octets text result : Bytes}
    (h : decodeFrom start octets text = .ok result) :
    ∃ tail, result = octets.reverse ++ tail ∧ text = encode tail := by
  fun_induction decodeFrom start octets text generalizing result with
  | case1 start octets a b c d e rest ih =>
    simp only [bind_eq_ok] at h
    obtain ⟨va, ha, vb, hb, vc, hc, vd, hd, h⟩ := h
    obtain ⟨tail, hresult, htext⟩ := ih va vb vc vd h
    obtain ⟨hva, rfl⟩ := eq_symbol_of_valueAt ha
    obtain ⟨hvb, rfl⟩ := eq_symbol_of_valueAt hb
    obtain ⟨hvc, rfl⟩ := eq_symbol_of_valueAt hc
    obtain ⟨hvd, rfl⟩ := eq_symbol_of_valueAt hd
    refine ⟨threeOctets (spelled va vb vc vd) ++ tail, ?_, ?_⟩
    · rw [hresult]
      simp [threeOctets, spelled]
    · rw [encode_threeOctets hva hvb hvc hvd, htext]
  | case2 start octets last hlast =>
    simp only [bind_eq_ok, pure_eq_ok] at h
    obtain ⟨⟨values, pads⟩, hscan, tail, hfinish, rfl⟩ := h
    obtain ⟨more, hmore, hvalues, htext, htwo⟩ := scanLast_sound hscan
    rw [List.nil_append] at hvalues
    subst hvalues
    refine ⟨tail, rfl, ?_⟩
    have hroom : values.length + pads ≤ 4 := by
      have hlength : last.length ≤ 4 := by
        match last, hlast with
        | [], _ => simp
        | [_], _ => simp
        | [_, _], _ => simp
        | [_, _, _], _ => simp
        | [_, _, _, _], _ => simp
        | a :: b :: c :: d :: e :: rest, hlast => exact (hlast a b c d e rest rfl).elim
      rw [htext] at hlength
      simpa using hlength
    rw [htext]
    exact (finish_sound hmore htwo hroom hfinish).symm

/-- The octets of the last group come from its symbols and its padding. -/
theorem decodeFrom_last (start : Nat) (octets : Bytes) {last : Bytes} (h : last.length ≤ 4) :
    decodeFrom start octets last = do
      let group ← scanLast start [] 0 last
      let tail ← finish start group
      return octets.reverse ++ tail := by
  match last with
  | [] => rfl
  | [_] => rfl
  | [_, _] => rfl
  | [_, _, _] => rfl
  | [_, _, _, _] => rfl
  | a :: b :: c :: d :: e :: rest =>
    simp only [List.length_cons] at h
    omega

theorem scanLast_symbol {start v : Nat} (h : v < 64) (values : List Nat) (rest : Bytes) :
    scanLast start values 0 (symbol v :: rest) = scanLast start (values ++ [v]) 0 rest := by
  rw [scanLast, if_neg (symbol_ne_padding v h), if_neg (Nat.lt_irrefl 0), value?_symbol v h]

/-- What was encoded is decoded again. -/
theorem decodeFrom_encode (start : Nat) (octets tail : Bytes) :
    decodeFrom start octets (encode tail) = .ok (octets.reverse ++ tail) := by
  fun_induction encode tail generalizing start octets with
  | case1 a b c rest n ih =>
    have ha := a.toNat_lt
    have hb := b.toNat_lt
    have hc := c.toNat_lt
    have hoctets : threeOctets (spelled (n / 262144) (n / 4096 % 64) (n / 64 % 64) (n % 64)) =
        [a, b, c] := threeOctets_spelled a b c
    have h1 : n / 262144 < 64 := by omega
    have h2 : n / 4096 % 64 < 64 := by omega
    have h3 : n / 64 % 64 < 64 := by omega
    have h4 : n % 64 < 64 := by omega
    cases hrest : encode rest with
    | nil =>
      -- nothing is behind the group, which makes it the last one
      have hempty : rest = [] := by
        have := length_le_encode rest
        rw [hrest] at this
        exact List.eq_nil_of_length_eq_zero (Nat.le_zero.mp this)
      rw [decodeFrom_last _ _ (by simp), scanLast_symbol h1, scanLast_symbol h2, scanLast_symbol h3,
        scanLast_symbol h4, hempty]
      have hfinish : finish start ([n / 262144, n / 4096 % 64, n / 64 % 64, n % 64], 0) =
          .ok [a, b, c] := by
        rw [← hoctets]
        rfl
      simp only [scanLast, List.nil_append, List.cons_append, bind_eq_ok]
      exact ⟨_, rfl, _, hfinish, rfl⟩
    | cons e more =>
      have hnext := ih (start + 4) ((threeOctets (spelled (n / 262144) (n / 4096 % 64) (n / 64 % 64)
        (n % 64))).reverse ++ octets)
      rw [hrest] at hnext
      rw [hoctets] at hnext
      rw [decodeFrom, valueAt_symbol _ h1, valueAt_symbol _ h2, valueAt_symbol _ h3,
        valueAt_symbol _ h4]
      have hstep : decodeFrom (start + 4) ((threeOctets (spelled (n / 262144) (n / 4096 % 64)
          (n / 64 % 64) (n % 64))).reverse ++ octets) (e :: more) =
          .ok (octets.reverse ++ a :: b :: c :: rest) := by
        rw [hoctets, hnext]
        simp
      exact hstep
  | case2 a b n =>
    have ha := a.toNat_lt
    have hb := b.toNat_lt
    have h1 : n / 1024 < 64 := by omega
    have h2 : n / 16 % 64 < 64 := by omega
    have h3 : n % 16 * 4 < 64 := by omega
    rw [decodeFrom_last _ _ (by simp), scanLast_symbol h1, scanLast_symbol h2, scanLast_symbol h3]
    simp only [bind_eq_ok]
    exact ⟨_, rfl, _, finish_twoOctets start rfl, rfl⟩
  | case3 a =>
    have ha := a.toNat_lt
    have h1 : a.toNat / 4 < 64 := by omega
    have h2 : a.toNat % 4 * 16 < 64 := by omega
    rw [decodeFrom_last _ _ (by simp), scanLast_symbol h1, scanLast_symbol h2]
    simp only [bind_eq_ok]
    exact ⟨_, rfl, _, finish_oneOctet start a, rfl⟩
  | case4 => simp [decodeFrom, scanLast, finish, bind_eq_ok]

/-- Decoding accepts exactly what encoding writes. -/
theorem decode_eq_ok_iff_encode {text octets : Bytes} :
    decode text = .ok octets ↔ text = encode octets := by
  unfold decode
  constructor
  · intro h
    split at h
    · next hnone =>
      cases h
      exact List.getLast?_eq_none_iff.mp hnone
    · split at h
      · cases h
      · obtain ⟨tail, rfl, htext⟩ := decodeFrom_sound h
        exact htext
  · rintro rfl
    have hlength := length_encode_mod octets
    split
    · next hnone =>
      have hempty := List.getLast?_eq_none_iff.mp hnone
      have := length_le_encode octets
      rw [hempty] at this
      rw [List.eq_nil_of_length_eq_zero (Nat.le_zero.mp this)]
    · rw [if_neg (by omega), decodeFrom_encode]
      rfl

/-! ## Texts as strings -/

/-- The text of a byte string. -/
def text (octets : Bytes) : String := Bytes.asText (encode octets)

theorem toNat_symbol_lt : ∀ v < 64, (symbol v).toNat < 128 := by decide

theorem ofString_text (octets : Bytes) : Bytes.ofString (text octets) = encode octets := by
  apply Bytes.ofString_asText
  intro s hs
  rcases mem_encode hs with rfl | ⟨v, hv, rfl⟩
  · decide
  · exact toNat_symbol_lt v hv

/-- A string is decoded exactly if it is the text of what it is decoded to. -/
theorem decode_ofString {s : String} {octets : Bytes} :
    decode (Bytes.ofString s) = .ok octets ↔ s = text octets := by
  rw [decode_eq_ok_iff_encode, ← ofString_text]
  exact ⟨Bytes.ofString_inj, congrArg Bytes.ofString⟩

theorem isBlank_ofNat_symbol : ∀ v < 64, Text.isBlank (Char.ofNat (symbol v).toNat) = false := by
  decide +kernel

/-- No character of a text is a blank. -/
theorem isBlank_of_mem_text {octets : Bytes} {c : Char} (h : c ∈ (text octets).toList) :
    Text.isBlank c = false := by
  rw [text, Bytes.asText, String.toList_ofList, List.mem_map] at h
  obtain ⟨s, hs, rfl⟩ := h
  rcases mem_encode hs with rfl | ⟨v, hv, rfl⟩
  · decide
  · exact isBlank_ofNat_symbol v hv

end Base64

end LogShipping
