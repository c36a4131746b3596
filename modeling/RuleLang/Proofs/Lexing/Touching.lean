import RuleLang.Proofs.Lexing.Blame
import RuleLang.Proofs.Lexing.Classes

namespace RuleLang

def Token.Touches (t u : Token) : Prop :=
  t.span.stop = u.span.start

def Token.StartsWithHan (o : LexOptions) (t : Token) : Prop :=
  o.allowHan = true ∧ ∃ c ∈ t.literal.head?, LexOptions.isHan c

variable {o : LexOptions} {c : Char} {behind source : Text} {x : Lexeme} {t u : Token}

namespace LexOptions

theorem not_isHan (h : c = '_' ∨ c.isAlpha = true) : ¬ isHan c := by
  intro hc
  simp only [isHan, Bool.and_eq_true, decide_eq_true_eq] at hc
  rcases h with rfl | h
  · exact absurd hc.1 (by decide)
  · have hletter := toNat_of_isAlpha h
    omega

theorem isLetter_iff :
    o.isLetter c ↔ (c = '_' ∨ c.isAlpha = true) ∨ (o.allowHan = true ∧ isHan c) := by
  simp [isLetter]

theorem not_letter_iff_of_isLetter (h : o.isLetter c) :
    ¬ (c = '_' ∨ c.isAlpha = true) ↔ o.allowHan = true ∧ isHan c := by
  constructor
  · intro hc
    exact (isLetter_iff.mp h).resolve_left hc
  · rintro ⟨-, hh⟩ hc
    exact not_isHan hc hh

end LexOptions

theorem Cut.getElem?_start (h : Cut o c behind x) (before : Text) :
    (before ++ c :: behind)[(x.token before.length).span.start]? = x.text.head? := by
  obtain ⟨tail, ht⟩ := h.exists_text_eq
  rw [h.span_token, List.getElem?_append_right le_rfl, ht]
  simp

theorem Scans.exists_letter {r : Lexed} (h : Scans o 0 source r) (hu : u ∈ r.tokens)
    (hw : u.kind ∈ Kind.words) :
    ∃ c, u.literal.head? = some c ∧ source[u.span.start]? = some c ∧ o.isLetter c := by
  rcases h.exists_cut_of_mem [] rfl u hu with rfl | ⟨front, c, behind, x, hs, hc, hx, rfl⟩
  · simp [Token.finish, Kind.words] at hw
  · obtain ⟨⟨d, hd, hl⟩, -, -⟩ := (hx.classified hc front.length).word hw
    have hstart := hx.getElem?_start front
    rw [← hs, List.nil_append] at hstart
    exact ⟨d, hd, hstart.trans hd, hl⟩

theorem wellformed_of_error_eq_none (he : (lex o source).error = none)
    (ht : t ∈ (lex o source).tokens) : t.Wellformed o source := by
  rcases (scans_of_error_eq_none he).wellformed_or_blames [] rfl with
    ⟨-, hall⟩ | ⟨e, front, u, back, he', -, -⟩
  · exact hall t ht
  · simp [he] at he'

theorem Token.wellformed_iff_of_number (hk : t.kind = .numeric) (hd : t.delimited = false) :
    t.Wellformed o source ↔ ∀ c ∈ source[t.span.stop]?, ¬ (c = '_' ∨ c.isAlpha = true) := by
  constructor
  · intro h
    exact h.apart hk hd
  · intro h
    exact { valid := by simp [hk], quoted := by simp [hk], named := by simp [hd],
            apart := fun _ _ => h }

theorem lex_number_touches_word (hk : t.kind = .numeric) (hd : t.delimited = false)
    (hw : u.kind ∈ Kind.words) (ht : t ∈ (lex o source).tokens) (hu : u ∈ (lex o source).tokens)
    (htouch : t.Touches u) :
    (t.Wellformed o source ↔ u.StartsWithHan o) ∧
      ((lex o source).error = none → u.StartsWithHan o) := by
  obtain ⟨c, hc, hstart, hl⟩ := (scans_of_mem hu).exists_letter hu hw
  have hnext : source[t.span.stop]? = some c := by
    rw [htouch, hstart]
  have hhan : u.StartsWithHan o ↔ o.allowHan = true ∧ LexOptions.isHan c := by
    simp [Token.StartsWithHan, hc]
  have hiff : t.Wellformed o source ↔ u.StartsWithHan o := by
    rw [Token.wellformed_iff_of_number hk hd, hnext, hhan,
      ← LexOptions.not_letter_iff_of_isLetter hl]
    simp
  refine ⟨hiff, ?_⟩
  intro he
  exact hiff.mp (wellformed_of_error_eq_none he ht)

theorem lex_number_touches_word_han :
    (lex { allowHan := true } ['1', '温']).error = none ∧
      Token.StartsWithHan { allowHan := true } ⟨.ident, ['温'], 2, false⟩ := by
  have he : (lex { allowHan := true } ['1', '温']).error = none := by decide +kernel
  have hnumber : (⟨.numeric, ['1'], 1, false⟩ : Token) ∈
      (lex { allowHan := true } ['1', '温']).tokens := by decide +kernel
  have hword : (⟨.ident, ['温'], 2, false⟩ : Token) ∈
      (lex { allowHan := true } ['1', '温']).tokens := by decide +kernel
  obtain ⟨-, hhan⟩ := lex_number_touches_word rfl rfl (by decide) hnumber hword rfl
  exact ⟨he, hhan he⟩

theorem not_apart_numberHan :
    ¬ ((lex { allowHan := true } ['1', '温']).error = none →
        ∀ t ∈ (lex { allowHan := true } ['1', '温']).tokens,
          ∀ u ∈ (lex { allowHan := true } ['1', '温']).tokens,
            t.kind = .numeric → t.delimited = false → u.kind ∈ Kind.words → ¬ t.Touches u) := by
  intro h
  exact h (by decide +kernel) ⟨.numeric, ['1'], 1, false⟩ (by decide +kernel)
    ⟨.ident, ['温'], 2, false⟩ (by decide +kernel) rfl rfl (by decide) rfl

end RuleLang
