import RuleLang.Proofs.Lexing.Cover
import RuleLang.Proofs.Parsing.Relocation
import RuleLang.Proofs.Reporting.Stages

namespace RuleLang

theorem Tree.map_height_of_forget {x y : Option Tree} (h : y.map forget = x.map forget) :
    y.map height = x.map height := by
  have hheight : height = height ∘ forget := by
    funext t
    exact (size_forget t).1.symm
  rw [hheight, ← Option.map_map, ← Option.map_map, h]

theorem map_stage_validate (s : Scope) (t : Tree) :
    ((validate s t).error.map TypeFault.staged).map StageError.stage =
      if (validate s t).valid then none else some .validation := by
  unfold validate
  cases (Validator.validate { scope := s } t).1 <;> rfl

variable {l : LexOptions} {p : ParseOptions} {s : Scope} {a b : Text} {r r' : Report}

theorem Reports.verdict_eq_of_forget (h : Reports l p s a r) (h' : Reports l p s b r')
    (ha : (lex l a).error = none) (hb : (lex l b).error = none)
    (hparsed : (parseTokens p (lex l b).tokens).forget = (parseTokens p (lex l a).tokens).forget) :
    r'.valid = r.valid ∧ r'.error.map StageError.stage = r.error.map StageError.stage := by
  have herror : (parseTokens p (lex l b).tokens).error.map ParseError.forget =
      (parseTokens p (lex l a).tokens).error.map ParseError.forget := congrArg Parsed.error hparsed
  cases h with
  | lexing he => simp [ha] at he
  | parsing _ he =>
      cases h' with
      | lexing he' => simp [hb] at he'
      | parsing => exact ⟨rfl, rfl⟩
      | validation _ ht' => simp [he, ht'] at herror
  | @validation t _ ht =>
      cases h' with
      | lexing he' => simp [hb] at he'
      | parsing _ he' => simp [ht, he'] at herror
      | @validation u _ hu =>
          have htree : u.forget = t.forget := by
            rw [ht, hu] at hparsed
            exact Option.some.inj (congrArg Parsed.tree hparsed)
          have hvalid := valid_eq_of_forget (s := s) htree
          refine ⟨hvalid, ?_⟩
          dsimp only
          rw [map_stage_validate, map_stage_validate, hvalid]

theorem check_of_shapes (l : LexOptions) (p : ParseOptions) (s : Scope) (a b : Text)
    (ha : (lex l a).error = none) (hb : (lex l b).error = none)
    (h : (lex l b).tokens.map Token.shape = (lex l a).tokens.map Token.shape) :
    (check l p s b).tree.map Tree.forget = (check l p s a).tree.map Tree.forget ∧
      (check l p s b).tree.map Tree.height = (check l p s a).tree.map Tree.height ∧
      (check l p s b).valid = (check l p s a).valid ∧
      (check l p s b).error.map StageError.stage = (check l p s a).error.map StageError.stage := by
  have hra := check_reports l p s a
  have hrb := check_reports l p s b
  have hparsed := parseTokens_of_shapes p (lex_nodup l a) (lex_nodup l b) h
  have htree : (check l p s b).tree.map Tree.forget = (check l p s a).tree.map Tree.forget := by
    rw [hra.tree_eq, hrb.tree_eq]
    exact congrArg Parsed.tree hparsed
  exact ⟨htree, Tree.map_height_of_forget htree, hra.verdict_eq_of_forget hrb ha hb hparsed⟩

def narrowSum : Text :=
  ['(', '1', '+', '2', ')']

def wideSum : Text :=
  [' ', '(', ' ', '1', '+', ' ', '2', '\n', ')', ' ']

theorem check_of_shapes_sums :
    (lex {} narrowSum).error = none ∧ (lex {} wideSum).error = none ∧
      (lex {} wideSum).tokens.map Token.shape = (lex {} narrowSum).tokens.map Token.shape ∧
      (check {} {} {} wideSum).tree.map Tree.forget =
        (check {} {} {} narrowSum).tree.map Tree.forget ∧
      (check {} {} {} wideSum).tree.map Tree.height =
        (check {} {} {} narrowSum).tree.map Tree.height ∧
      (check {} {} {} wideSum).valid = (check {} {} {} narrowSum).valid ∧
      (check {} {} {} wideSum).error.map StageError.stage =
        (check {} {} {} narrowSum).error.map StageError.stage := by
  have hnarrow : (lex {} narrowSum).error = none := by decide +kernel
  have hwide : (lex {} wideSum).error = none := by decide +kernel
  have hshapes : (lex {} wideSum).tokens.map Token.shape =
      (lex {} narrowSum).tokens.map Token.shape := by decide +kernel
  exact ⟨hnarrow, hwide, hshapes, check_of_shapes {} {} {} _ _ hnarrow hwide hshapes⟩

end RuleLang
