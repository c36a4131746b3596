import RuleLang.Proofs.Lexing.Classes
import RuleLang.Proofs.Number.Leading
import RuleLang.Proofs.Parsing.Steps

namespace RuleLang

def Token.Mistaken (boundary : Char) (t : Token) : Prop :=
  t.delimited = false ∧ Lexeme.isNumberCharacter boundary ∧ Text.wrappedIn boundary t.literal

variable {l : LexOptions} {o : ParseOptions} {source : Text} {t : Token} {p : Parser}

theorem Scans.forall_isNumberCharacter {r : Lexed} (h : Scans l 0 source r) (ht : t ∈ r.tokens)
    (hk : t.kind = .numeric) (hd : t.delimited = false) :
    ∀ c ∈ t.literal, Lexeme.isNumberCharacter c := by
  rcases h.exists_cut_of_mem [] rfl t ht with rfl | ⟨front, c, behind, x, -, hc, hx, rfl⟩
  · cases hk
  · obtain ⟨-, hall, -⟩ := (hx.classified hc front.length).number hk hd
    intro d hmem
    exact Lexeme.isNumberCharacter_iff.mpr (hall d hmem)

theorem Token.mistaken_iff (ht : t ∈ (lex l source).tokens) (hk : t.kind = .numeric) :
    t.delimited = true ∨ t.Mistaken l.boundary ↔
      t.delimited = true ∨ Text.wrappedIn l.boundary t.literal = true := by
  cases hd : t.delimited with
  | true => simp
  | false =>
      have hall := (scans_of_mem ht).forall_isNumberCharacter ht hk hd
      have hnumber : Text.wrappedIn l.boundary t.literal → Lexeme.isNumberCharacter l.boundary := by
        intro hw
        simp only [Text.wrappedIn, Bool.and_eq_true, beq_iff_eq] at hw
        exact hall _ (List.mem_of_head? hw.1)
      simp only [Mistaken, hd, Bool.false_eq_true, true_and, false_or]
      exact ⟨And.right, fun hw => ⟨hnumber hw, hw⟩⟩

namespace Parser

def LeavesBlank (o : ParseOptions) (p : Parser) : Prop :=
  ∃ p', number o p = .ok (.atom p.cursor.here 0 (.number none)) p' ∧ p'.deferred = none

theorem leavesBlank_iff (hd : p.deferred = none) (hk : p.cursor.here.kind = .numeric) :
    p.LeavesBlank o ↔
      p.cursor.here.delimited = true ∨ Text.wrappedIn o.boundary p.cursor.here.literal = true := by
  constructor
  · rintro ⟨p', h, hd'⟩
    obtain ⟨a, ha, ht, -⟩ := number_cases hk h hd'
    obtain rfl : Atom.number none = a := by simpa using ht
    cases ha with
    | delimited _ hw => exact hw
  · intro hw
    exact ⟨p, number_of_leaf hk (.delimited hk hw), hd⟩

theorem number_of_longest {n : Numeral} (hk : p.cursor.here.kind = .numeric)
    (hw : ¬ (p.cursor.here.delimited = true ∨
      Text.wrappedIn o.boundary p.cursor.here.literal = true))
    (hn : n.Longest p.cursor.here.literal) :
    number o p = .ok (.atom p.cursor.here 0 (.number (some (.ofDecimal n.value)))) p :=
  number_of_leaf hk (.number hk hw (Numeral.leading?_eq_some_iff.mpr hn))

theorem number_of_not_leads
    (hw : ¬ (p.cursor.here.delimited = true ∨
      Text.wrappedIn o.boundary p.cursor.here.literal = true))
    (hn : ∀ n : Numeral, ¬ n.Leads p.cursor.here.literal) :
    number o p =
      if p.cursor.here.literal = ellipsis then
        .ok (.atom p.cursor.here 0 (.number none))
          { p with deferred := some (.notANumber p.cursor.here) }
      else .error (.notANumber p.cursor.here) p := by
  have hnone := Numeral.leading?_eq_none_iff.mpr hn
  have hplain : (p.cursor.here.delimited ||
      Text.wrappedIn o.boundary p.cursor.here.literal) = false := by
    simpa using hw
  simp only [number, hplain, hnone, Bool.false_eq_true, if_false]

end Parser

theorem number_of_lexed (hb : o.boundary = l.boundary)
    (ht : p.cursor.here ∈ (lex l source).tokens) (hk : p.cursor.here.kind = .numeric) :
    (p.deferred = none →
        (p.LeavesBlank o ↔
          p.cursor.here.delimited = true ∨ p.cursor.here.Mistaken l.boundary)) ∧
      (p.cursor.here.delimited = false → ¬ p.cursor.here.Mistaken l.boundary →
        (∃ n : Numeral, n.Longest p.cursor.here.literal ∧
          Parser.number o p =
            .ok (.atom p.cursor.here 0 (.number (some (.ofDecimal n.value)))) p) ∨
        (∀ n : Numeral, ¬ n.Leads p.cursor.here.literal) ∧
          Parser.number o p =
            if p.cursor.here.literal = Parser.ellipsis then
              .ok (.atom p.cursor.here 0 (.number none))
                { p with deferred := some (.notANumber p.cursor.here) }
            else .error (.notANumber p.cursor.here) p) := by
  have hiff := Token.mistaken_iff ht hk
  rw [← hb] at hiff ⊢
  constructor
  · intro hd
    rw [Parser.leavesBlank_iff hd hk, hiff]
  · intro hd hm
    have hw := mt hiff.mpr (by simp [hd, hm])
    cases hn : Numeral.leading? p.cursor.here.literal with
    | some n =>
        have hlongest := Numeral.leading?_eq_some_iff.mp hn
        exact .inl ⟨n, hlongest, Parser.number_of_longest hk hw hlongest⟩
    | none =>
        have hnone := Numeral.leading?_eq_none_iff.mp hn
        exact .inr ⟨hnone, Parser.number_of_not_leads hw hnone⟩

theorem number_of_lexed_twoDots :
    let p : Parser := { cursor := { here := ⟨.numeric, ['1', '.', '5', '.', '2'], 5, false⟩
                                    ahead := [.finish 5] } }
    Parser.number {} p = .ok (.atom p.cursor.here 0 (.number (some (.ofDecimal ⟨15, -1⟩)))) p := by
  intro p
  have hmem : p.cursor.here ∈ (lex {} ['1', '.', '5', '.', '2']).tokens := by decide +kernel
  obtain ⟨-, hlexed⟩ := number_of_lexed (o := {}) rfl hmem rfl
  have hlongest : Numeral.Longest ⟨['1'], some ['5']⟩ p.cursor.here.literal :=
    Numeral.leading?_eq_some_iff.mp (by decide)
  have hvalue : Numeral.value ⟨['1'], some ['5']⟩ = ⟨15, -1⟩ := by decide
  have hmistaken : ¬ p.cursor.here.Mistaken '$' := by
    simp [p, Token.Mistaken, Lexeme.isNumberCharacter]
  rcases hlexed rfl hmistaken with ⟨n, hn, hnumber⟩ | ⟨hnone, -⟩
  · rw [hn.eq_front, ← hlongest.eq_front, hvalue] at hnumber
    exact hnumber
  · exact absurd hlongest.leads (hnone _)

/-- With a digit for the boundary mark, that digit alone is a number to the lexer and a variable to
the parser. -/
theorem not_leavesBlank_iff_digitBoundary :
    ¬ ∀ p : Parser, p.cursor.here ∈ (lex { boundary := '1' } ['1']).tokens →
      p.cursor.here.kind = .numeric → p.deferred = none →
        (p.LeavesBlank { boundary := '1' } ↔ p.cursor.here.delimited = true) := by
  intro h
  have hblank := h { cursor := { here := ⟨.numeric, ['1'], 1, false⟩, ahead := [.finish 1] } }
    (by decide +kernel) rfl rfl
  exact absurd (hblank.mp ⟨_, rfl, rfl⟩) (by decide)

end RuleLang
