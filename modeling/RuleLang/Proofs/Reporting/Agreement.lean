import RuleLang.Proofs.Reporting.Pointing
import RuleLang.Proofs.Reporting.Printing

namespace RuleLang

open Json (Document)

theorem Cursor.finish_ahead {c : Cursor} (hf : c.tokens.Pairwise fun t _ => t.kind ≠ .finish)
    (hk : c.peek.kind = .finish) : ∀ u ∈ c.ahead, u.kind = .finish := by
  intro u hu
  cases ha : c.ahead with
  | nil => simp [ha] at hu
  | cons v vs =>
      rw [peek_of_ahead ha] at hk
      have hrest := (List.pairwise_append.mp hf).2.1
      rw [ha, List.pairwise_cons, List.pairwise_cons] at hrest
      rw [ha] at hu
      rcases List.mem_cons.mp hu with rfl | hu
      · exact hk
      · exact absurd hk (hrest.2.1 u hu)

/-- The parser makes the tree of all tokens before the finishing one and holds back no error. -/
def Completes (o : ParseOptions) (tokens : List Token) (t : Tree) : Prop :=
  ∃ q : Parser, (ParseSession.ofTokens tokens).parse o = (.ok t, ⟨some q⟩) ∧ q.deferred = none ∧
    ∀ u ∈ q.cursor.ahead, u.kind = .finish

section Parsing

variable {o : ParseOptions} {tokens : List Token} {t : Tree}

theorem parse_ofTokens {u : Token} {us : List Token} {q : Parser}
    (h : Parser.parse o (Parser.start u us) = .ok t q) :
    (ParseSession.ofTokens (u :: us)).parse o = (.ok t, ⟨some q⟩) := by
  unfold Parser.start at h
  simp [ParseSession.ofTokens, ParseSession.parse, h]

theorem completes_of_parseTokens (hf : tokens.Pairwise fun t _ => t.kind ≠ .finish)
    (h : parseTokens o tokens = { tree := some t, error := none }) : Completes o tokens t := by
  cases tokens with
  | nil => cases h
  | cons u us =>
      have hgoes := Parser.goes_parse o (Parser.start u us)
      rw [parseTokens_cons] at h
      cases hr : Parser.parse o (Parser.start u us) with
      | error e q =>
          rw [hr] at h
          cases h
      | ok v q =>
          rw [hr] at h hgoes
          obtain ⟨htree, hd⟩ := Parsed.mk.inj h
          obtain rfl := Option.some.inj htree
          obtain ⟨-, hfinish⟩ := Parser.parse_eq_ok.mp hr
          have htokens : q.cursor.tokens = u :: us := hgoes.1.tokens.trans (Parser.tokens_start u us)
          rw [← htokens] at hf
          exact ⟨q, parse_ofTokens hr, hd, Cursor.finish_ahead hf (hfinish hd)⟩

theorem parseTokens_of_deferred {s : ParseSession} {e : ParseError}
    (hs : (ParseSession.ofTokens tokens).parse o = (.ok t, s)) (he : s.takeDeferred.1 = some e) :
    parseTokens o tokens = { tree := some t, error := some e } := by
  unfold parseTokens
  rw [hs, ← he]

end Parsing

structure Report.Accords (l : LexOptions) (p : ParseOptions) (s : Scope) (source : Text)
    (r : Report) : Prop where
  tokens : r.tokens = (lex l source).tokens
  tree : r.tree = (parseTokens p r.tokens).tree
  valid : r.valid = true ↔ r.error = none
  lexing : ∀ e, (lex l source).error = some e → r.error = some e.staged
  parsing : (lex l source).error = none →
    ∀ e, (parseTokens p r.tokens).error = some e → r.error = some e.staged
  deferred : (lex l source).error = none →
    ∀ t q e, (ParseSession.ofTokens r.tokens).parse p = (.ok t, q) → q.takeDeferred.1 = some e →
      r.tree = some t ∧ r.error = some e.staged
  validation : (lex l source).error = none → (parseTokens p r.tokens).error = none →
    ∃ t, r.tree = some t ∧ Completes p r.tokens t ∧
      r.error = (validate s t).error.map TypeFault.staged

variable {l : LexOptions} {p : ParseOptions} {s : Scope} {source : Text} {r : Report}

theorem Reports.error_of_lex_error {e : LexError} (h : Reports l p s source r)
    (he : (lex l source).error = some e) : r.error = some e.staged := by
  cases h with
  | lexing he' =>
      obtain rfl := Option.some.inj (he.symm.trans he')
      rfl
  | parsing hl | validation hl => simp [hl] at he

theorem Reports.error_of_parse_error {e : ParseError} (h : Reports l p s source r)
    (hl : (lex l source).error = none) (he : (parseTokens p (lex l source).tokens).error = some e) :
    r.error = some e.staged := by
  cases h with
  | lexing he' => simp [hl] at he'
  | parsing _ he' =>
      obtain rfl := Option.some.inj (he.symm.trans he')
      rfl
  | validation _ ht => simp [ht] at he

theorem Reports.error_of_no_error (h : Reports l p s source r) (hl : (lex l source).error = none)
    (hp : (parseTokens p (lex l source).tokens).error = none) :
    ∃ t, r.error = (validate s t).error.map TypeFault.staged := by
  cases h with
  | lexing he => simp [hl] at he
  | parsing _ he => simp [hp] at he
  | validation => exact ⟨_, rfl⟩

theorem Reports.accords (h : Reports l p s source r) : r.Accords l p s source where
  tokens := h.tokens_eq
  tree := by rw [h.tokens_eq, h.tree_eq]
  valid := h.valid_iff_error
  lexing _ he := h.error_of_lex_error he
  parsing hl e he := by
    rw [h.tokens_eq] at he
    exact h.error_of_parse_error hl he
  deferred hl t q e hs he := by
    rw [h.tokens_eq] at hs
    have hparsed := parseTokens_of_deferred hs he
    refine ⟨?_, h.error_of_parse_error hl ?_⟩
    · rw [h.tree_eq, hparsed]
    · rw [hparsed]
  validation hl he := by
    cases h with
    | lexing he' => simp [hl] at he'
    | parsing _ he' => simp [he] at he'
    | @validation t _ ht =>
        have hfinish := (scans_of_error_eq_none hl).finish_last
        exact ⟨t, rfl, completes_of_parseTokens hfinish ht, rfl⟩

namespace CommandLine

def stagedDocument (stage : String) (e : Document) : Document :=
  .object [("stage".toList, .string stage.toList), ("error".toList, e)]

namespace Result

structure Agree (l : LexOptions) (p : ParseOptions) (s : Scope) (source : Text) : Prop where
  lexing : (ofLexing l source).error ≠ .null →
    (ofParsing l p source).error = (ofLexing l source).error ∧
      (ofCheck l p s source).error = stagedDocument "LexError" (ofLexing l source).error
  parsing : (ofLexing l source).error = .null → (ofParsing l p source).error ≠ .null →
    (ofCheck l p s source).error = stagedDocument "ParseError" (ofParsing l p source).error
  validation : (ofParsing l p source).error = .null → (ofCheck l p s source).error = .null ∨
    ∃ d : Diagnostic, (ofCheck l p s source).error = stagedDocument "ValidationError" d.document
  tokens : (ofLexing l source).document.member? "tokens" =
      some (Json.list Token.document (lex l source).tokens) ∧
    (ofCheck l p s source).document.member? "tokens" =
      some (Json.list Token.document (lex l source).tokens)
  tree : (ofParsing l p source).document.member? "ast" =
      some (Json.option Tree.document (parseTokens p (lex l source).tokens).tree) ∧
    (ofCheck l p s source).document.member? "ast" =
      some (Json.option Tree.document (parseTokens p (lex l source).tokens).tree)

theorem ofLexing_error_eq_null :
    (ofLexing l source).error = .null ↔ (lex l source).error = none := by
  rw [ofLexing, error, Json.option_eq_null_iff Diagnostic.document_ne_null, Option.map_eq_none_iff]

theorem ofParsing_error_eq_null :
    (ofParsing l p source).error = .null ↔
      (lex l source).error = none ∧ (parseTokens p (lex l source).tokens).error = none := by
  rw [ofParsing, error, Json.option_eq_null_iff Diagnostic.document_ne_null, Option.or_eq_none_iff,
    Option.map_eq_none_iff, Option.map_eq_none_iff]

theorem ofCheck_error {e : Option StageError} (h : (check l p s source).error = e) :
    (ofCheck l p s source).error = Json.option StageError.document e :=
  congrArg (Json.option StageError.document) h

theorem agree (l : LexOptions) (p : ParseOptions) (s : Scope) (source : Text) :
    Agree l p s source := by
  have h := check_reports l p s source
  refine
    { lexing := fun hne => ?_
      parsing := fun hnull hne => ?_
      validation := fun hnull => ?_
      tokens := ⟨rfl, congrArg (some ∘ Json.list Token.document) h.tokens_eq⟩
      tree := ⟨rfl, congrArg (some ∘ Json.option Tree.document) h.tree_eq⟩ }
  · obtain ⟨e, he⟩ := Option.ne_none_iff_exists'.mp (mt ofLexing_error_eq_null.mpr hne)
    rw [ofCheck_error (h.error_of_lex_error he), ofLexing, ofParsing, error, error, he]
    exact ⟨rfl, rfl⟩
  · have hl := ofLexing_error_eq_null.mp hnull
    have hsome : (parseTokens p (lex l source).tokens).error ≠ none :=
      fun hp => hne (ofParsing_error_eq_null.mpr ⟨hl, hp⟩)
    obtain ⟨e, he⟩ := Option.ne_none_iff_exists'.mp hsome
    rw [ofCheck_error (h.error_of_parse_error hl he), ofParsing, error, hl, he]
    rfl
  · obtain ⟨hl, hp⟩ := ofParsing_error_eq_null.mp hnull
    obtain ⟨t, ht⟩ := h.error_of_no_error hl hp
    rw [ofCheck_error ht]
    cases (validate s t).error with
    | none => exact .inl rfl
    | some fault => exact .inr ⟨fault.diagnostic, rfl⟩

end Result

/-- The arguments ask for the three commands about one input. The pattern of names can be compiled,
and the catalog can be loaded. -/
structure Environment.AskedTogether (e : Environment) (lexArgs parseArgs checkArgs : List Text)
    (i : Input) (r : References) (k : Catalog) : Prop where
  lex : e.ask lexArgs = .request (.lex i)
  parse : e.ask parseArgs = .request (.parse i)
  check : e.ask checkArgs = .request (.check i r)
  pattern : ∀ p ∈ i.pattern, ∃ accepts, e.compile p = some accepts
  catalog : e.catalog? r = some k

section Commands

variable {e : Environment} {lexArgs parseArgs checkArgs : List Text} {i : Input} {r : References}
  {k : Catalog}

theorem Environment.Lawful.askedTogether (he : e.Lawful) (hr : r.catalogPath ≠ some [])
    (hp : ∀ p ∈ i.pattern, ∃ accepts, e.compile p = some accepts) (hk : e.catalog? r = some k) :
    e.AskedTogether (Request.lex i).words (Request.parse i).words (Request.check i r).words i r k where
  lex := he.asks (.lex i) trivial
  parse := he.asks (.parse i) trivial
  check := he.asks (.check i r) hr
  pattern := hp
  catalog := hk

theorem Environment.AskedTogether.shows (h : e.AskedTogether lexArgs parseArgs checkArgs i r k)
    (he : e.Lawful) :
    ∃ l, i.lexOptions? e.compile = some l ∧
      (e.run lexArgs).Shows (.ofLexing l i.expression) ∧
      (e.run parseArgs).Shows (.ofParsing l i.parseOptions i.expression) ∧
      (e.run checkArgs).Shows (.ofCheck l i.parseOptions (r.scope k) i.expression) ∧
      Result.Agree l i.parseOptions (r.scope k) i.expression := by
  obtain ⟨l, hl⟩ := he.exists_lexOptions h.pattern
  exact ⟨l, hl, he.shows_lex h.lex hl, he.shows_parse h.parse hl,
    he.shows_check h.check hl h.catalog, Result.agree _ _ _ _⟩

theorem entryPoints_agree :
    (∀ l p s source, (check l p s source).Accords l p s source) ∧
      ∀ {e lexArgs parseArgs checkArgs i r k}, Environment.Lawful e →
        e.AskedTogether lexArgs parseArgs checkArgs i r k →
        ∃ l, i.lexOptions? e.compile = some l ∧
          (e.run lexArgs).Shows (.ofLexing l i.expression) ∧
          (e.run parseArgs).Shows (.ofParsing l i.parseOptions i.expression) ∧
          (e.run checkArgs).Shows (.ofCheck l i.parseOptions (r.scope k) i.expression) ∧
          Result.Agree l i.parseOptions (r.scope k) i.expression := by
  constructor
  · intro l p s source
    exact (check_reports l p s source).accords
  · intro e lexArgs parseArgs checkArgs i r k he h
    exact h.shows he

def sumArguments : Command → List Text
  | .lex => ["lex".toList, "--allow-chinese".toList, "1+x".toList]
  | .parse => ["parse".toList, "1+x".toList, "--allow-chinese".toList]
  | .check => ["check".toList, "-cx".toList, "--allow-chinese".toList, "--".toList, "1+x".toList]

def sumInput : Input where
  expression := "1+x".toList
  allowHan := true

def sumReferences : References where
  catalogPath := some ['x']

def sumCatalog : Catalog where
  keywords := [{ name := ['x'], type := .numeric }]

def sumEnvironment : Environment :=
  .standard [] fun _ => some (Json.compact sumCatalog.document)

theorem entryPoints_agree_sum :
    sumEnvironment.Lawful ∧
      sumEnvironment.AskedTogether (sumArguments .lex) (sumArguments .parse) (sumArguments .check)
        sumInput sumReferences sumCatalog ∧
      ∃ l, sumInput.lexOptions? sumEnvironment.compile = some l ∧
        (sumEnvironment.run (sumArguments .lex)).Shows (.ofLexing l "1+x".toList) ∧
        (sumEnvironment.run (sumArguments .parse)).Shows
          (.ofParsing l sumInput.parseOptions "1+x".toList) ∧
        (sumEnvironment.run (sumArguments .check)).Shows
          (.ofCheck l sumInput.parseOptions (sumReferences.scope sumCatalog) "1+x".toList) ∧
        Result.Agree l sumInput.parseOptions (sumReferences.scope sumCatalog) "1+x".toList := by
  have hlawful : sumEnvironment.Lawful := Environment.lawful_standard _ _
  have hloadable : sumCatalog.Loadable := ⟨by decide, by simp [sumCatalog]⟩
  have hprintable := sumCatalog.form_document.printable
  have hasked : sumEnvironment.AskedTogether (sumArguments .lex) (sumArguments .parse)
      (sumArguments .check) sumInput sumReferences sumCatalog :=
    { lex := by decide
      parse := by decide
      check := by decide
      pattern := nofun
      catalog := hlawful.catalog_of_written rfl rfl hloadable hprintable.compact.isText }
  exact ⟨hlawful, hasked, entryPoints_agree.2 hlawful hasked⟩

end Commands

end CommandLine

end RuleLang
