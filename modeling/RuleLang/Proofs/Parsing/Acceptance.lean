import RuleLang.Proofs.Parsing.Completeness

namespace RuleLang

/-- The tokens up to the finishing one spell the tree, its operators bind as they should, and no
token has a wrong neighbour. -/
structure Grammatical (o : ParseOptions) (tokens : List Token) (t : Tree) : Prop where
  spells : Spells o (Token.body tokens) t
  ranked : t.Ranked
  adjacent : Token.Adjacent (Token.body tokens ++ [.finish 0])

variable {o : ParseOptions} {tokens ts : List Token} {t u : Tree} {c d : Cursor}

theorem Cursor.Reads.body_eq (h : c.Reads ts d) (hs : ∀ u ∈ ts, u.kind ≠ .finish)
    (hd : d.peek.kind = .finish) : Token.body c.rest = ts := by
  rw [h.eq_append, Token.body, List.takeWhile_append_of_pos (by simpa using hs)]
  cases ha : d.ahead with
  | nil => simp
  | cons u us =>
      rw [Cursor.peek_of_ahead ha] at hd
      simp [hd]

theorem Cursor.exists_reads_body (c : Cursor) (h : Token.body c.rest ≠ []) :
    ∃ d, c.Reads (Token.body c.rest) d ∧ d.peek.kind = .finish := by
  obtain ⟨d, hr, hd⟩ := Cursor.exists_reads
    (List.takeWhile_append_dropWhile (p := fun t : Token => t.kind ≠ .finish)).symm h
  refine ⟨d, hr, ?_⟩
  cases ha : d.ahead with
  | nil => simp [Cursor.peek, ha, Token.finish]
  | cons u us =>
      rw [Cursor.peek_of_ahead ha]
      have hu := List.head?_dropWhile_not (p := fun t : Token => decide (t.kind ≠ .finish)) c.rest
      rw [← hd, ha] at hu
      simpa using hu

namespace Parser

def start (t : Token) (ts : List Token) : Parser :=
  { cursor := { here := t, ahead := ts } }

theorem tokens_start (t : Token) (ts : List Token) : (start t ts).cursor.tokens = t :: ts := by
  simp [start, Cursor.tokens]

theorem ready_start {u : Token} (hn : (u :: ts).Nodup) (hu : Token.Uncurried (u :: ts)) :
    (start u ts).Ready :=
  ⟨hn, hu, fun _ _ => rfl⟩

theorem parseTokens_eq_some_iff {u : Token} :
    parseTokens o (u :: ts) = { tree := some t, error := none } ↔
      ∃ q, expression o o.maxDepth .lowest (start u ts) = .ok t q ∧ q.deferred = none ∧
        q.cursor.peek.kind = .finish := by
  have hiff : parseTokens o (u :: ts) = { tree := some t, error := none } ↔
      ∃ q, parse o (start u ts) = .ok t q ∧ q.deferred = none := by
    unfold start
    simp only [parseTokens, ParseSession.ofTokens, ParseSession.parse]
    cases parse o _ <;> simp [ParseSession.takeDeferred]
  rw [hiff]
  constructor
  · rintro ⟨q, hx, hd⟩
    obtain ⟨hx, hfin⟩ := parse_eq_ok.mp hx
    exact ⟨q, hx, hd, hfin hd⟩
  · rintro ⟨q, hx, hd, hfin⟩
    exact ⟨q, parse_eq_ok.mpr ⟨hx, fun _ => hfin⟩, hd⟩

end Parser

theorem parseTokens_iff (hne : tokens ≠ []) (hn : tokens.Nodup) (hu : Token.Uncurried tokens) :
    parseTokens o tokens = { tree := some t, error := none } ↔
      Grammatical o tokens t ∧ t.height ≤ o.maxDepth ∧ t.nesting ≤ o.maxDepth := by
  obtain ⟨v, ts, rfl⟩ := List.exists_cons_of_ne_nil hne
  have hp := Parser.ready_start hn hu
  rw [Parser.parseTokens_eq_some_iff]
  constructor
  · rintro ⟨q, hx, hd, hfin⟩
    obtain ⟨us, ⟨hf, -, -⟩, -⟩ := (Parser.expression_sound o o.maxDepth).makes (by decide) hp hx hd
    have hb : Token.body (v :: ts) = us := hf.reads.body_eq hf.spells.kind_ne_finish hfin
    refine ⟨⟨hb ▸ hf.spells, hf.ranked, ?_⟩, hf.height, hf.nesting⟩
    rw [hb]
    exact (hf.adjacent (by rw [hfin]; rfl)).last_congr hfin
  · rintro ⟨hg, hh, hnest⟩
    obtain ⟨d, hr, hfin⟩ := (Parser.start v ts).cursor.exists_reads_body hg.spells.ne_nil
    have hadj : Token.Adjacent (Token.body (v :: ts) ++ [d.peek]) := hg.adjacent.last_congr hfin.symm
    have hlow : d.peek.kind.precedence ≤ .lowest := by rw [hfin]; decide
    have hf : Fits o o.maxDepth .lowest (Parser.start v ts).cursor d (Token.body (v :: ts)) t :=
      ⟨hr, hg.spells, hg.ranked, fun e he => hg.spells.lowest_lt he,
        fun e _ => Precedence.le_trans hlow (Precedence.lowest_le e), hnest, hh, fun _ => hadj⟩
    obtain ⟨q, hx, rfl, hd⟩ := Parser.expression_complete o o.maxDepth (by decide) hp rfl hf hlow
      (by rw [hfin]; rfl)
    exact ⟨q, hx, hd, hfin⟩

theorem parseTokens_iff_grammatical (o : ParseOptions) (tokens : List Token) (t : Tree)
    (hne : tokens ≠ []) (hn : tokens.Nodup) (hu : Token.Uncurried tokens)
    (hm : tokens.length ≤ o.maxDepth) :
    (parseTokens o tokens = { tree := some t, error := none } ↔ Grammatical o tokens t) ∧
      (Grammatical o tokens t → ∀ u, Grammatical o tokens u → u = t) := by
  have hiff (u : Tree) :
      parseTokens o tokens = { tree := some u, error := none } ↔ Grammatical o tokens u := by
    rw [parseTokens_iff hne hn hu]
    refine ⟨And.left, fun hg => ⟨hg, ?_⟩⟩
    have hs := hg.spells.size_le_length
    have hl : (Token.body tokens).length ≤ tokens.length :=
      (List.takeWhile_prefix _).length_le
    omega
  refine ⟨hiff t, fun ht u hu => ?_⟩
  have heq := ((hiff u).mpr hu).symm.trans ((hiff t).mpr ht)
  simpa using heq

def productTokens : List Token :=
  [⟨.openParen, ['('], 1, false⟩, ⟨.ident, ['a'], 2, false⟩, ⟨.plus, ['+'], 4, false⟩,
    ⟨.ident, ['b'], 6, false⟩, ⟨.closeParen, [')'], 7, false⟩, ⟨.asterisk, ['*'], 9, false⟩,
    ⟨.ident, ['c'], 11, false⟩, ⟨.finish, [], 11, false⟩]

def productTree : Tree :=
  .binary ⟨.asterisk, ['*'], 9, false⟩ 0 .mul
    (.binary ⟨.plus, ['+'], 4, false⟩ 1 .plus
      (.atom ⟨.ident, ['a'], 2, false⟩ 0 (.identifier ['a']))
      (.atom ⟨.ident, ['b'], 6, false⟩ 0 (.identifier ['b'])))
    (.atom ⟨.ident, ['c'], 11, false⟩ 0 (.identifier ['c']))

theorem grammatical_productTokens :
    productTokens ≠ [] ∧ productTokens.Nodup ∧ Token.Uncurried productTokens ∧
      productTokens.length ≤ 128 ∧ Grammatical {} productTokens productTree := by
  have hne : productTokens ≠ [] := by decide
  have hn : productTokens.Nodup := by decide
  have hu : Token.Uncurried productTokens := by decide
  have hm : productTokens.length ≤ 128 := by decide
  have hg := parseTokens_iff_grammatical {} productTokens productTree hne hn hu hm
  exact ⟨hne, hn, hu, hm, hg.1.mp (by decide +kernel)⟩

end RuleLang
