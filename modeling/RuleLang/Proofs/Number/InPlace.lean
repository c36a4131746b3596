import RuleLang.Number.InPlace
import RuleLang.Proofs.Number.Leading
import RuleLang.Proofs.Text.Slices

namespace RuleLang

namespace Numeral

variable {n : Numeral} {s : String} {t rest : Text} {convert : String → Option Binary64}

theorem utf8Size_of_isDigit {c : Char} (h : c.isDigit) : c.utf8Size = 1 := by
  rw [Char.isDigit_iff_toNat] at h
  rw [Char.utf8Size_eq_one_iff, UInt32.le_iff_toNat_le]
  exact h.2.trans (by decide)

theorem exists_utf8EncodeChar (c : Char) :
    ∃ b bs, String.utf8EncodeChar c = b :: bs ∧ isDigitByte b = c.isDigit ∧
      (c.isDigit → bs = []) := by
  have hdigit : c.isDigit ↔ 48 ≤ c.toNat ∧ c.toNat ≤ 57 := Char.isDigit_iff_toNat
  have hbyte (b : UInt8) : isDigitByte b ↔ 48 ≤ b.toNat ∧ b.toNat ≤ 57 := by
    simp [isDigitByte, UInt8.le_iff_toNat_le]
  -- A character of one byte is that byte; the first of several bytes is above all digits.
  by_cases hsingle : c.toNat ≤ 127
  · refine ⟨UInt8.ofNat c.toNat, [], ?_, ?_, fun _ => rfl⟩
    · rw [String.utf8EncodeChar, Char.toNat_val, if_pos hsingle]
    · rw [Bool.eq_iff_iff, hbyte, hdigit, UInt8.toNat_ofNat', Nat.mod_eq_of_lt (by omega)]
  · have hc : c.isDigit = false := by
      rw [Bool.eq_false_iff, ne_eq, hdigit]
      omega
    have hfirst : ∃ b bs, String.utf8EncodeChar c = b :: bs ∧ 192 ≤ b.toNat := by
      rw [String.utf8EncodeChar, Char.toNat_val, if_neg hsingle]
      split
      · exact ⟨_, _, rfl, by simp; omega⟩
      split
      · exact ⟨_, _, rfl, by simp; omega⟩
      · exact ⟨_, _, rfl, by simp; omega⟩
    obtain ⟨b, bs, hencode, hb⟩ := hfirst
    refine ⟨b, bs, hencode, ?_, by simp [hc]⟩
    rw [hc, Bool.eq_false_iff, ne_eq, hbyte]
    omega

theorem digitBytes_ofList (t : Text) :
    digitBytes (.ofList t) = (t.takeWhile Char.isDigit).length := by
  have hbytes : (String.ofList t).toUTF8.data.toList = t.flatMap String.utf8EncodeChar := by
    simp [String.toUTF8, List.utf8Encode]
  rw [digitBytes, hbytes]
  clear hbytes
  induction t with
  | nil => rfl
  | cons c t ih =>
      obtain ⟨b, bs, hencode, hb, hbs⟩ := exists_utf8EncodeChar c
      rw [List.flatMap_cons, hencode, List.cons_append, List.takeWhile_cons, List.takeWhile_cons,
        hb]
      split
      · next hc => rw [hbs hc, List.nil_append, List.length_cons, ih, List.length_cons]
      · rfl

theorem Pure.utf8ByteSize_spelling (h : n.Pure) :
    (String.ofList n.spelling).utf8ByteSize = n.spelling.length := by
  apply Text.utf8ByteSize_of_single
  intro c hc
  have hmem : c ∈ n.whole ∨ c = '.' ∨ c ∈ n.fraction.getD [] := by
    cases hf : n.fraction <;> simp_all [spelling]
  rcases hmem with hw | rfl | hf
  · exact utf8Size_of_isDigit (h.whole c hw)
  · decide
  · exact utf8Size_of_isDigit (h.fraction c hf)

theorem Pure.sliceFrom (h : n.Pure) (ht : t = n.spelling ++ rest) :
    Text.sliceFrom (.ofList t) n.spelling.length = .ok (.ofList rest) :=
  Text.sliceFrom_eq_ok_iff.mpr
    ⟨.ofList n.spelling, ht ▸ String.ofList_append, h.utf8ByteSize_spelling⟩

theorem Pure.sliceTo (h : n.Pure) (ht : n.spelling <+: t) :
    Text.sliceTo (.ofList t) n.spelling.length = .ok (.ofList n.spelling) := by
  obtain ⟨rest, rfl⟩ := ht
  exact Text.sliceTo_eq_ok_iff.mpr ⟨.ofList rest, String.ofList_append, h.utf8ByteSize_spelling⟩

theorem extent_of_dot {rest behind : String}
    (hrest : Text.sliceFrom s (digitBytes s) = .ok rest) (hdot : rest.startsWith '.' = true)
    (hbehind : Text.sliceFrom s (digitBytes s + 1) = .ok behind) :
    extent s = .ok ⟨digitBytes s + digitBytes behind, digitBytes s + 1 + digitBytes behind⟩ := by
  simp only [extent, hrest, hdot, hbehind, bind, Except.bind, pure, Except.pure, if_true]

theorem extent_of_not_dot {rest : String}
    (hrest : Text.sliceFrom s (digitBytes s) = .ok rest) (hdot : rest.startsWith '.' = false) :
    extent s = .ok ⟨digitBytes s, digitBytes s⟩ := by
  simp only [extent, hrest, hdot, bind, Except.bind, pure, Except.pure, Bool.false_eq_true,
    if_false]

theorem extent_ofList (t : Text) :
    extent (.ofList t) = .ok ⟨(front t).digits.length, (front t).spelling.length⟩ := by
  obtain ⟨whole, rest, rfl, hw, hr⟩ := exists_span Char.isDigit t
  have hcount : digitBytes (.ofList (whole ++ rest)) = whole.length := by
    rw [digitBytes_ofList, (span_append hw hr).1]
  -- Both cuts are made behind a numeral: the digits alone, or the digits and the dot.
  have hwhole : Pure ⟨whole, none⟩ := ⟨hw, by simp⟩
  have hrest : Text.sliceFrom (.ofList (whole ++ rest)) whole.length = .ok (.ofList rest) :=
    hwhole.sliceFrom rfl
  rw [← hcount] at hrest
  by_cases hd : rest.head? = some '.'
  · obtain ⟨behind, rfl⟩ := List.head?_eq_some_iff.mp hd
    have hdot : Pure ⟨whole, some []⟩ := ⟨hw, by simp⟩
    have hbehind : Text.sliceFrom (.ofList (whole ++ '.' :: behind)) (whole.length + 1) =
        .ok (.ofList behind) := by
      simpa [spelling] using hdot.sliceFrom (t := whole ++ '.' :: behind) (by simp [spelling])
    rw [← hcount] at hbehind
    rw [extent_of_dot hrest (by simp [String.startsWith_char_eq_head?]) hbehind, hcount,
      digitBytes_ofList, front_append_dot hw]
    simp [digits, spelling, Nat.add_assoc, Nat.add_comm 1]
  · rw [extent_of_not_dot hrest (by simp [String.startsWith_char_eq_head?, hd]), hcount,
      front_append_none hw hr hd]
    simp [digits, spelling]

theorem convertLeading_ofList (convert : String → Option Binary64) (t : Text) :
    convertLeading convert (.ofList t) =
      .ok (if (front t).digits = [] then none else convert (.ofList (front t).spelling)) := by
  have hstart := spelling_front_prefix t
  have hcut := (pure_front t).sliceTo hstart
  rw [convertLeading, extent_ofList]
  by_cases hd : (front t).digits = []
  · rw [if_pos hd]
    exact if_pos (List.length_eq_zero_iff.mpr hd)
  · rw [if_neg hd]
    simp [hd, hcut, bind, Except.bind, pure, Except.pure]

/-- Every numeral with a digit is converted, into the number nearest to it. -/
def Converts (convert : String → Option Binary64) : Prop :=
  ∀ n : Numeral, n.Pure → n.digits ≠ [] →
    convert (.ofList n.spelling) = some (.ofDecimal n.value)

theorem Converts.convertLeading_ofList (hc : Converts convert) (t : Text) :
    convertLeading convert (.ofList t) =
      .ok ((leading? t).map fun n => .ofDecimal n.value) := by
  rw [Numeral.convertLeading_ofList, leading?]
  split
  · rfl
  · next hd => rw [hc _ (pure_front t) hd, Option.map_some]

theorem convertLeading_longest (hc : Converts convert) (s : String) :
    (convertLeading convert s = .ok none ↔ ∀ n : Numeral, ¬ n.Leads s.toList) ∧
      ((∃ n : Numeral, n.Leads s.toList) →
        ∃ n : Numeral, n.Longest s.toList ∧
          convertLeading convert s = .ok (convert (.ofList n.spelling))) ∧
      convertLeading convert s = .ok ((leading? s.toList).map fun n => .ofDecimal n.value) := by
  obtain ⟨t, rfl⟩ : ∃ t, s = String.ofList t := ⟨s.toList, String.ofList_toList.symm⟩
  rw [String.toList_ofList]
  have hread := hc.convertLeading_ofList t
  refine ⟨?_, ?_, hread⟩
  · rw [hread, ← leading?_eq_none_iff, Except.ok.injEq, Option.map_eq_none_iff]
  · rintro ⟨m, hm⟩
    have hd := (pure_front t).digits_ne_nil_iff.mpr (front_leads hm).digit
    exact ⟨front t, front_longest hm, by rw [convertLeading_ofList, if_neg hd]⟩

def nearest? (s : String) : Option Binary64 :=
  ((leading? s.toList).filter fun n => n.spelling = s.toList).map fun n => .ofDecimal n.value

theorem converts_nearest? : Converts nearest? := by
  intro n hn hd
  rw [nearest?, String.toList_ofList, leading?, hn.front_spelling, if_neg hd]
  simp [Option.filter]

theorem convertLeading_longest_wideRest :
    Converts nearest? ∧ convertLeading nearest? "7.温" = .ok (nearest? "7.") ∧
      nearest? "7." = some (.ofDecimal ⟨7, 0⟩) := by
  have hlongest : Longest ⟨['7'], some []⟩ "7.温".toList :=
    leading?_eq_some_iff.mp (by decide +kernel)
  obtain ⟨-, hfound, -⟩ := convertLeading_longest converts_nearest? "7.温"
  obtain ⟨n, hn, hconvert⟩ := hfound ⟨_, hlongest.leads⟩
  rw [hn.eq_front, ← hlongest.eq_front] at hconvert
  exact ⟨converts_nearest?, hconvert, by decide +kernel⟩

end Numeral

end RuleLang
