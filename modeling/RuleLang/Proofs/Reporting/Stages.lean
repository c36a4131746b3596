import RuleLang.Proofs.Typing.Offsets

namespace RuleLang

theorem parseTokens_made (o : ParseOptions) (tokens : List Token) :
    (∃ t, (parseTokens o tokens).tree = some t) ∨ ∃ e, (parseTokens o tokens).error = some e := by
  unfold parseTokens
  split
  · exact .inl ⟨_, rfl⟩
  · exact .inr ⟨_, rfl⟩

inductive Reports (l : LexOptions) (p : ParseOptions) (s : Scope) (source : Text) : Report → Prop
  | lexing {e : LexError} (he : (lex l source).error = some e) :
      Reports l p s source
        { tokens := (lex l source).tokens
          tree := (parseTokens p (lex l source).tokens).tree
          valid := false
          error := some e.staged }
  | parsing {e : ParseError} (hl : (lex l source).error = none)
      (he : (parseTokens p (lex l source).tokens).error = some e) :
      Reports l p s source
        { tokens := (lex l source).tokens
          tree := (parseTokens p (lex l source).tokens).tree
          valid := false
          error := some e.staged }
  | validation {t : Tree} (hl : (lex l source).error = none)
      (ht : parseTokens p (lex l source).tokens = { tree := some t, error := none }) :
      Reports l p s source
        { tokens := (lex l source).tokens
          tree := some t
          valid := (validate s t).valid
          error := (validate s t).error.map TypeFault.staged }

variable {l : LexOptions} {p : ParseOptions} {s : Scope} {source : Text} {r : Report}

theorem check_reports (l : LexOptions) (p : ParseOptions) (s : Scope) (source : Text) :
    Reports l p s source (check l p s source) := by
  unfold check
  dsimp only
  split
  · rename_i he
    exact .lexing he
  · rename_i hl he
    exact .parsing hl he
  · -- Nothing made and no error is not among the results of the parser.
    rename_i he ht
    rcases parseTokens_made p (lex l source).tokens with ⟨t, hm⟩ | ⟨e, hm⟩
    · simp [ht] at hm
    · simp [he] at hm
  · rename_i t hl he ht
    have hparsed : parseTokens p (lex l source).tokens = { tree := some t, error := none } := by
      rw [← ht, ← he]
    rw [ht]
    exact .validation hl hparsed

namespace Reports

theorem tokens_eq (h : Reports l p s source r) : r.tokens = (lex l source).tokens := by
  cases h <;> rfl

theorem tree_eq (h : Reports l p s source r) :
    r.tree = (parseTokens p (lex l source).tokens).tree := by
  cases h with
  | lexing | parsing => rfl
  | validation hl ht => rw [ht]

theorem valid_iff_error (h : Reports l p s source r) : r.valid = true ↔ r.error = none := by
  cases h with
  | lexing | parsing => exact iff_of_false nofun nofun
  | validation hl ht =>
      rw [← error_eq_none_iff_valid]
      exact Option.map_eq_none_iff.symm

end Reports

end RuleLang
