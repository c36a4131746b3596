import RuleLang.Proofs.Lexing.Ending
import RuleLang.Proofs.Lexing.Touching

namespace RuleLang

namespace LexOptions

structure Widens (o o' : LexOptions) : Prop where
  han : o.allowHan = true → o'.allowHan = true
  empty : o.allowEmpty = true → o'.allowEmpty = true
  boundary : o'.boundary = o.boundary
  names : o'.names = o.names

def Settles (o : LexOptions) (c : Char) : Prop :=
  isHan c → o.allowHan = true

variable {o o' : LexOptions} {c : Char}

theorem settles_of_isBlank (hc : Text.isBlank c) : o.Settles c := by
  intro hh
  have hblank := Text.toNat_of_isBlank hc
  simp only [isHan, Bool.and_eq_true, decide_eq_true_eq] at hh
  omega

theorem settles_of_isNumberCharacter (hc : Lexeme.isNumberCharacter c) : o.Settles c := by
  intro hh
  have hnumber := toNat_of_isNumberCharacter hc
  simp only [isHan, Bool.and_eq_true, decide_eq_true_eq] at hh
  omega

theorem settles_of_isLetter (hc : o.isLetter c) : o.Settles c := by
  intro hh
  rcases isLetter_iff.mp hc with hl | ⟨ha, -⟩
  · exact absurd hh (not_isHan hl)
  · exact ha

theorem settles_of_mem_marks (hc : c ∈ Lexeme.marks) : o.Settles c := by
  have hmarks : ∀ d ∈ Lexeme.marks, ¬ isHan d := by simp [Lexeme.marks, isHan]
  intro hh
  exact absurd hh (hmarks c hc)

theorem Starts.settles (hc : o.Starts c) (hb : o.Settles o.boundary) : o.Settles c := by
  rcases hc with hc | hc | hc | rfl
  · exact settles_of_mem_marks hc
  · exact settles_of_isLetter hc
  · exact settles_of_isNumberCharacter hc
  · exact hb

namespace Widens

theorem isLetter_of_isLetter (hw : o.Widens o') (hc : o.isLetter c) : o'.isLetter c := by
  rw [isLetter_iff] at hc ⊢
  exact hc.imp_right fun ⟨ha, hh⟩ => ⟨hw.han ha, hh⟩

theorem isLetter_iff_of_settles (hw : o.Widens o') (hc : o.Settles c) :
    o'.isLetter c ↔ o.isLetter c := by
  constructor
  · intro hl
    rw [isLetter_iff] at hl ⊢
    exact hl.imp_right fun ⟨_, hh⟩ => ⟨hc hh, hh⟩
  · exact hw.isLetter_of_isLetter

theorem isWordCharacter_of_isWordCharacter (hw : o.Widens o') (hc : o.isWordCharacter c) :
    o'.isWordCharacter c := by
  rw [isWordCharacter, Bool.or_eq_true] at hc ⊢
  exact hc.imp_left hw.isLetter_of_isLetter

theorem isWordCharacter_iff_of_settles (hw : o.Widens o') (hc : o.Settles c) :
    o'.isWordCharacter c ↔ o.isWordCharacter c := by
  rw [isWordCharacter, isWordCharacter, Bool.or_eq_true, Bool.or_eq_true,
    hw.isLetter_iff_of_settles hc]

theorem unclaimed (hw : o.Widens o') (hc : o.Settles c) (hu : o.Unclaimed c) :
    o'.Unclaimed c where
  mark := hu.mark
  extensible := hu.extensible
  quote := hu.quote
  letter hl := hu.letter ((hw.isLetter_iff_of_settles hc).mp hl)
  number := hu.number

theorem quotable (hw : o.Widens o') {content : Text} (hq : Text.Quotable o content) :
    Text.Quotable o' content where
  visible := hq.visible
  nonempty := hq.nonempty.imp_right hw.empty
  named := by
    rw [hw.boundary, hw.names]
    exact hq.named

theorem stringFault_eq_none (hw : o.Widens o') {content : Text}
    (hf : Lexeme.stringFault o content true = none) :
    Lexeme.stringFault o' content true = none := by
  rw [Lexeme.stringFault_eq_none_iff] at hf ⊢
  exact hw.quotable hf

end Widens

end LexOptions

variable {o o' : LexOptions} {c : Char} {behind t source : Text} {x : Lexeme} {passed : Nat}
  {r : Lexed}

theorem Lexeme.errorAt_eq_none_iff {start : Nat} : x.errorAt start = none ↔ x.fault = none := by
  simp [errorAt]

theorem Cut.widen (hx : Cut o c behind x) (hw : o.Widens o') (hb : o.Settles o.boundary)
    (hf : x.fault = none) (hr : ∀ d ∈ x.rest.head?, o.Settles d) : Cut o' c behind x := by
  cases hx with
  | mark hc => exact .mark hc
  | pair hc => exact .pair hc
  | single hc hs => exact .single hc hs
  | @closedString content rest hq =>
      have hstring : Cut o' '\'' (content ++ '\'' :: rest) _ := .closedString hq
      rwa [hw.stringFault_eq_none hf, ← hf] at hstring
  | openString => exact absurd hf (Lexeme.stringFault_ne_none _)
  | word hc ht hs =>
      -- The word cannot go on: what stands behind it starts a token or is blank.
      refine .word (hw.isLetter_of_isLetter hc) ?_ ?_
      · intro d hd
        exact hw.isWordCharacter_of_isWordCharacter (ht d hd)
      · intro d hd hword
        exact hs d hd ((hw.isWordCharacter_iff_of_settles (hr d hd)).mp hword)
  | number hc ht hs => exact .number hc ht hs
  | @closedName name rest hu hn =>
      have hu' : o'.Unclaimed o'.boundary := hw.boundary ▸ hw.unclaimed hb hu
      have hn' : o'.boundary ∉ name := hw.boundary ▸ hn
      have hname : Cut o' o'.boundary (name ++ o'.boundary :: rest) _ := .closedName hu' hn'
      rwa [hw.boundary, hw.names] at hname
  | openName => cases hf
  | invalid => cases hf

theorem Cut.settles (hx : Cut o c behind x) (hb : o.Settles o.boundary) (hf : x.fault = none) :
    o.Settles c := by
  have hstarts : o.Starts c := by
    by_contra hs
    exact hx.kind_ne_invalid hf (hx.kind_eq_invalid_iff.mpr hs)
  exact hstarts.settles hb

namespace Scans

theorem settles_head (h : Scans o passed t r) (hb : o.Settles o.boundary)
    (he : r.error = none) : ∀ d ∈ t.head?, o.Settles d := by
  intro d hd
  cases h with
  | blank ht => exact LexOptions.settles_of_isBlank (ht d (List.mem_of_mem_head? hd))
  | invalid hblank hc hs hx hk =>
      exact absurd hk (hx.kind_ne_invalid (Lexeme.errorAt_eq_none_iff.mp he))
  | @lexeme _ _ blanks c behind x more hblank hc hs hx hk hm =>
      obtain ⟨hf, -⟩ := Option.or_eq_none_iff.mp he
      cases blanks with
      | nil =>
          obtain rfl := Option.some.inj hd
          exact hx.settles hb (Lexeme.errorAt_eq_none_iff.mp hf)
      | cons b blanks =>
          obtain rfl := Option.some.inj hd
          exact LexOptions.settles_of_isBlank (hblank b List.mem_cons_self)

theorem widen (h : Scans o passed t r) (hw : o.Widens o') (hb : o.Settles o.boundary)
    (he : r.error = none) : Scans o' passed t r := by
  induction h with
  | blank ht => exact .blank ht
  | invalid hblank hc hs hx hk =>
      exact absurd hk (hx.kind_ne_invalid (Lexeme.errorAt_eq_none_iff.mp he))
  | lexeme hblank hc hs hx hk hm ih =>
      obtain ⟨hf, he⟩ := Option.or_eq_none_iff.mp he
      have hcut := hx.widen hw hb (Lexeme.errorAt_eq_none_iff.mp hf) (hm.settles_head hb he)
      exact .lexeme hblank hc hs hcut hk (ih he)

end Scans

theorem visible_of_error_eq_none (he : (lex o source).error = none) :
    o.allowEmpty ∨ ∃ c ∈ source, ¬ Text.isBlank c := by
  rw [(lex_wellformed_or_blames o source).2.1] at he
  exact he.1.symm

theorem lex_of_widens (hw : o.Widens o') (hb : ¬ LexOptions.isHan o.boundary)
    (he : (lex o source).error = none) :
    lex o' source = { tokens := (lex o source).tokens, error := none } := by
  have hscan := (scans_of_error_eq_none he).widen hw (fun hh => absurd hh hb) he
  have hvisible : o'.allowEmpty ∨ ∃ c ∈ source, ¬ Text.isBlank c :=
    (visible_of_error_eq_none he).imp_left hw.empty
  rw [hscan.lex_eq hvisible, ← he]

theorem lex_of_widens_han :
    let o : LexOptions := { names := .custom fun _ => true }
    let o' : LexOptions := { o with allowHan := true, allowEmpty := true }
    let source := ['\'', '温', '\'', '+', '$', '温', '$']
    o.Widens o' ∧ (lex o source).error = none ∧
      lex o' source = { tokens := (lex o source).tokens, error := none } := by
  intro o o' source
  have hw : o.Widens o' := ⟨fun _ => rfl, fun _ => rfl, rfl, rfl⟩
  have he : (lex o source).error = none := by decide +kernel
  exact ⟨hw, he, lex_of_widens hw (by decide) he⟩

end RuleLang
