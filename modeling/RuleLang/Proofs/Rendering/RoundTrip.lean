import RuleLang.Proofs.Lexing.Cover
import RuleLang.Proofs.Lexing.Faultless
import RuleLang.Proofs.Rendering.Places

namespace RuleLang

variable {o : LexOptions} {p : ParseOptions} {rest : Text}
  {more : List (Kind × Text × Bool)} {u : Token} {t : Tree} {n : Nat}

namespace Faultless

theorem cons_mark {c : Char} {k : Kind} (hc : Kind.mark? c = some k) (hm : Faultless o rest more) :
    Faultless o (c :: rest) ((k, k.spelling, false) :: more) := by
  have hb : ¬ Text.isBlank c := by
    unfold Kind.mark? at hc
    split at hc <;> first | decide | cases hc
  have hnil : ∀ d ∈ ([] : Text), Text.isBlank d := List.forall_mem_nil _
  have hcut : Cut o c rest { kind := k, text := [c], rest } := .mark hc
  rw [Kind.spelling_of_mark? hc]
  exact .lexeme hnil hb hcut rfl hm

theorem append_operator (op : Operator) (hr : '=' ∉ rest.head?) (hm : Faultless o rest more) :
    Faultless o (op.spelling ++ rest) ((op.kind, op.spelling, false) :: more) := by
  have hnil : ∀ d ∈ ([] : Text), Text.isBlank d := List.forall_mem_nil _
  cases op with
  | plus => exact hm.cons_mark rfl
  | minus => exact hm.cons_mark rfl
  | mul => exact hm.cons_mark rfl
  | div => exact hm.cons_mark rfl
  | assign => exact .lexeme hnil (by decide) (.single rfl hr) rfl hm
  | bang => exact .lexeme hnil (by decide) (.single rfl hr) rfl hm
  | lt => exact .lexeme hnil (by decide) (.single rfl hr) rfl hm
  | gt => exact .lexeme hnil (by decide) (.single rfl hr) rfl hm
  | le => exact .lexeme hnil (by decide) (.pair rfl) rfl hm
  | ge => exact .lexeme hnil (by decide) (.pair rfl) rfl hm
  | eq => exact .lexeme hnil (by decide) (.pair rfl) rfl hm
  | ne => exact .lexeme hnil (by decide) (.pair rfl) rfl hm

theorem cons_blank (hm : Faultless o rest more) : Faultless o (' ' :: rest) more := by
  have hb : Text.isBlank ' ' := by decide
  cases hm with
  | blank ht => exact .blank (List.forall_mem_cons.mpr ⟨hb, ht⟩)
  | @lexeme blanks c behind x shapes hbs hc hx hf hm =>
      have hbs' : ∀ d ∈ ' ' :: blanks, Text.isBlank d := List.forall_mem_cons.mpr ⟨hb, hbs⟩
      exact .lexeme hbs' hc hx hf hm

theorem takeWhile_append {t : Text} {shapes : List (Kind × Text × Bool)}
    (h : Faultless o t shapes) :
    shapes = (shapes.takeWhile fun s => s.1 ≠ .finish) ++ [(.finish, [], false)] := by
  induction h with
  | blank => rfl
  | @lexeme blanks c behind x shapes hb hc hx hf hm ih =>
      have hk : x.shape.1 ≠ .finish := hx.kind_ne_finish
      rw [List.takeWhile_cons, if_pos (by simpa using hk), List.cons_append, ← ih]

theorem exists_not_isBlank {t : Text} {shapes : List (Kind × Text × Bool)}
    (h : Faultless o t shapes) (hl : 1 < shapes.length) : ∃ c ∈ t, ¬ Text.isBlank c := by
  cases h with
  | blank => exact absurd hl (Nat.lt_irrefl 1)
  | @lexeme blanks c behind x shapes hb hc hx hf hm => exact ⟨c, by simp, hc⟩

end Faultless

theorem Genuine.shape_of_kind {k : Kind} (h : Genuine o u) (hu : u.kind = k)
    (hk : k ∉ .finish :: Kind.operands) : u.shape = (k, k.spelling, false) := by
  subst hu
  rw [List.mem_cons, not_or] at hk
  exact h.mark hk.2 hk.1

namespace Tree

@[simp]
theorem bracketed_zero (t : Text) : bracketed 0 t = t := by
  simp [bracketed]

theorem bracketed_succ (n : Nat) (t : Text) :
    bracketed (n + 1) t = '(' :: (bracketed n t ++ [')']) := by
  rw [bracketed, List.replicate_succ, List.replicate_succ', bracketed]
  simp

theorem spelling_withBrackets_succ (t : Tree) :
    (t.withBrackets (t.brackets + 1)).spelling = '(' :: (t.spelling ++ [')']) := by
  cases t <;> exact bracketed_succ _ _

theorem spelling_unary (u : Token) (op : Operator) (r : Tree) :
    (unary u 0 op r).spelling = op.spelling ++ r.spelling := by
  rw [spelling, bracketed_zero]

theorem spelling_binary (u : Token) (op : Operator) (l r : Tree) :
    (binary u 0 op l r).spelling = l.spelling ++ ' ' :: (op.spelling ++ ' ' :: r.spelling) := by
  simp [spelling]

theorem spelling_call (u f : Token) (name : Text) (xs : List Tree) :
    (call u 0 (.atom f 0 (.function name)) xs).spelling =
      name ++ '(' :: (listSpelling xs ++ [')']) := by
  simp [spelling, atomSpelling]

theorem listSpelling_singleton (t : Tree) : listSpelling [t] = t.spelling := by
  simp [listSpelling, tailSpelling]

theorem listSpelling_cons_cons (t u : Tree) (xs : List Tree) :
    listSpelling (t :: u :: xs) = t.spelling ++ ',' :: ' ' :: listSpelling (u :: xs) := by
  simp [listSpelling, tailSpelling]

end Tree

theorem Leaf.spelling_eq {a : Atom} (h : Leaf p u a) (hg : Genuine o u) :
    (Tree.atom u 0 a).spelling = u.literal := by
  rw [Tree.spelling, Tree.bracketed_zero]
  cases h with
  | trueWord hk => exact (hg.trueWord hk).symm
  | falseWord hk => exact (hg.falseWord hk).symm
  | _ => rfl

theorem Kind.mem_operands_of_callees {k : Kind} (h : k ∈ Kind.callees) : k ∈ Kind.operands := by
  revert h
  cases k <;> decide

/-- The text of a tree starts with no equals sign, which would turn an exclamation mark before it
into another operator. -/
theorem Spells.starts {ts : List Token} (h : Spells p ts t) (hg : ∀ u ∈ ts, Genuine o u) :
    '=' ∉ t.spelling.head? ∧ t.spelling ≠ [] := by
  induction h using Spells.operand_induction with
  | leaf h =>
      have hu := hg _ List.mem_cons_self
      obtain ⟨c, tail, hs, hc⟩ := (hu.operand h.kind_mem).starts
      simp [h.spelling_eq hu, hs, hc]
  | group ho hc h ih => simp [Tree.spelling_withBrackets_succ]
  | unary ho hk h ih =>
      obtain rfl | rfl := ho <;>
        simp [Tree.spelling_unary, Operator.spelling, Operator.kind, Kind.spelling]
  | binary ho hk hl hr ihl ihr =>
      obtain ⟨hs, hne⟩ := ihl fun u hu => hg u (List.mem_append_left _ hu)
      rw [Tree.spelling_binary, List.head?_append_of_ne_nil _ hne]
      exact ⟨hs, by simp⟩
  | call hf ho hc h =>
      have hu := hg _ List.mem_cons_self
      obtain ⟨c, tail, hs, hc⟩ := (hu.operand (Kind.mem_operands_of_callees hf)).starts
      simp [Tree.spelling_call, hs, hc]

mutual

theorem Spells.faultless {ts : List Token} {t : Tree} {rest : Text}
    {more : List (Kind × Text × Bool)} (hr : rest.Closed) (hm : Faultless o rest more) :
    Spells p ts t → (∀ u ∈ ts, Genuine o u) →
      Faultless o (t.spelling ++ rest) (ts.map Token.shape ++ more)
  | .leaf h, hg => by
      have hu := hg _ List.mem_cons_self
      rw [h.spelling_eq hu]
      exact (hu.operand h.kind_mem).reads hr hm
  | @Spells.group _ x y us v ho hc h, hg => by
      have hx : x.shape = _ := (hg x (by simp)).shape_of_kind ho (by decide)
      have hy : y.shape = _ := (hg y (by simp)).shape_of_kind hc (by decide)
      have hin := h.faultless (Text.closed_cons (by decide) rest)
        (hm.cons_mark (c := ')') (k := .closeParen) rfl) fun u hu => hg u (by simp [hu])
      have hall := hin.cons_mark (c := '(') (k := .openParen) rfl
      simpa [Tree.spelling_withBrackets_succ, hx, hy] using hall
  | @Spells.unary _ x op us v ho hk h, hg => by
      have hx : x.shape = (op.kind, op.spelling, false) := by
        apply (hg x List.mem_cons_self).shape_of_kind hk
        obtain rfl | rfl := ho <;> decide
      have hgr : ∀ u ∈ us, Genuine o u := fun u hu => hg u (List.mem_cons_of_mem _ hu)
      -- Nothing stands between the operator and its operand, so that the two must not merge.
      obtain ⟨hs, hne⟩ := h.starts hgr
      have hin := h.faultless hr hm hgr
      have hall := hin.append_operator op (by rwa [List.head?_append_of_ne_nil _ hne])
      simpa [Tree.spelling_unary, hx] using hall
  | @Spells.binary _ x op ls rs l r ho hk hl hrr, hg => by
      have hx : x.shape = (op.kind, op.spelling, false) := by
        apply (hg x (by simp)).shape_of_kind hk
        cases op <;> decide
      have hright := (hrr.faultless hr hm fun u hu => hg u (by simp [hu])).cons_blank
      have hop := (hright.append_operator op (by simp)).cons_blank
      have hall := hl.faultless (Text.closed_cons (by decide) _) hop
        fun u hu => hg u (by simp [hu])
      simpa [Tree.spelling_binary, hx] using hall
  | @Spells.call _ f x y us xs hf ho hc h, hg => by
      have hx : x.shape = _ := (hg x (by simp)).shape_of_kind ho (by decide)
      have hy : y.shape = _ := (hg y (by simp)).shape_of_kind hc (by decide)
      have hin := h.faultless (Text.closed_cons (by decide) rest)
        (hm.cons_mark (c := ')') (k := .closeParen) rfl) fun u hu => hg u (by simp [hu])
      have hopen := hin.cons_mark (c := '(') (k := .openParen) rfl
      have hall := ((hg f List.mem_cons_self).operand
        (Kind.mem_operands_of_callees hf)).reads (Text.closed_cons (by decide) _) hopen
      simpa [Tree.spelling_call, hx, hy] using hall

theorem SpellsAll.faultless {ts : List Token} {xs : List Tree} {rest : Text}
    {more : List (Kind × Text × Bool)} (hr : rest.Closed) (hm : Faultless o rest more) :
    SpellsAll p ts xs → (∀ u ∈ ts, Genuine o u) →
      Faultless o (Tree.listSpelling xs ++ rest) (ts.map Token.shape ++ more)
  | .none, hg => hm
  | .one h, hg => by
      rw [Tree.listSpelling_singleton]
      exact h.faultless hr hm hg
  | @SpellsAll.more _ ts us x v w ws h hc hs, hg => by
      have hx : x.shape = _ := (hg x (by simp)).shape_of_kind hc (by decide)
      have hlast := (hs.faultless hr hm fun u hu => hg u (by simp [hu])).cons_blank
      have hcomma := hlast.cons_mark (c := ',') (k := .comma) rfl
      have hall := h.faultless (Text.closed_cons (by decide) _) hcomma
        fun u hu => hg u (by simp [hu])
      simpa [Tree.listSpelling_cons_cons, hx] using hall

end

theorem Faultless.lex_eq {source : Text} {shapes : List (Kind × Text × Bool)}
    (h : Faultless o source shapes) (hl : 1 < shapes.length) :
    (lex o source).error = none ∧ (lex o source).tokens.map Token.shape = shapes := by
  obtain ⟨r, hr, he, hs⟩ := h.exists_scans 0
  rw [hr.lex_eq (.inr (h.exists_not_isBlank hl))]
  exact ⟨he, hs⟩

theorem Grammatical.lex_spelling {source : Text} (he : (lex o source).error = none)
    (hg : Grammatical p (lex o source).tokens t) :
    (lex o t.spelling).error = none ∧
      (lex o t.spelling).tokens.map Token.shape = (lex o source).tokens.map Token.shape := by
  have hscan := scans_of_error_eq_none he
  have hgen : ∀ u ∈ Token.body (lex o source).tokens, Genuine o u :=
    fun u hu => hscan.genuine he u (List.takeWhile_subset _ hu)
  have hshapes : (lex o source).tokens.map Token.shape =
      (Token.body (lex o source).tokens).map Token.shape ++ [(.finish, [], false)] := by
    rw [Token.map_shape_body]
    exact (hscan.faultless he).takeWhile_append
  have hclosed : Text.Closed [] := by
    rintro c ⟨⟩
  have hend : Faultless o [] [(.finish, [], false)] := .blank (List.forall_mem_nil _)
  have hall := hg.spells.faultless hclosed hend hgen
  rw [List.append_nil, ← hshapes] at hall
  apply hall.lex_eq
  have hpos := List.length_pos_of_ne_nil hg.spells.ne_nil
  simp only [hshapes, List.length_append, List.length_map, List.length_singleton]
  omega

theorem lex_parse_spelling (o : LexOptions) (p : ParseOptions) (source : Text) (t : Tree)
    (he : (lex o source).error = none)
    (ht : parseTokens p (lex o source).tokens = { tree := some t, error := none })
    (hu : Token.Uncurried (lex o source).tokens) :
    (lex o t.spelling).error = none ∧
      (lex o t.spelling).tokens.map Token.shape = (lex o source).tokens.map Token.shape ∧
        ∃ u, parseTokens p (lex o t.spelling).tokens = { tree := some u, error := none } ∧
          u.forget = t.forget ∧ u.spelling = t.spelling := by
  have hnodup (text : Text) : (lex o text).tokens.Nodup := (lex_pairwise o text).imp And.right
  have hne : (lex o source).tokens ≠ [] := by
    intro hn
    rw [hn] at ht
    simp [parseTokens, ParseSession.ofTokens, ParseSession.parse] at ht
  obtain ⟨hg, hh, hnest⟩ := (parseTokens_iff hne (hnodup source) hu).mp ht
  obtain ⟨he', hs⟩ := hg.lex_spelling he
  obtain ⟨u, hgu, hf⟩ := hg.exists_of_shapes hs
  have hne' : (lex o t.spelling).tokens ≠ [] := by
    intro hn
    rw [hn] at hs
    exact hne (List.map_eq_nil_iff.mp hs.symm)
  have hsize : u.height = t.height ∧ u.nesting = t.nesting := by
    obtain ⟨hhu, hnu⟩ := u.size_forget
    obtain ⟨hht, hnt⟩ := t.size_forget
    rw [← hhu, ← hnu, hf]
    exact ⟨hht, hnt⟩
  refine ⟨he', hs, u, ?_, hf, ?_⟩
  · rw [parseTokens_iff hne' (hnodup _) (hu.of_shapes hs), hsize.1, hsize.2]
    exact ⟨hgu, hh, hnest⟩
  · rw [← Tree.spelling_forget, hf, Tree.spelling_forget]

def spacedCall : Text :=
  ['!', 'f', ' ', '(', ' ', 'a', ' ', ')']

def spacedCallTree : Tree :=
  .unary ⟨.bang, ['!'], 0, false⟩ 0 .bang
    (.call ⟨.openParen, ['('], 4, false⟩ 0 (.atom ⟨.ident, ['f'], 2, false⟩ 0 (.function ['f']))
      [.atom ⟨.ident, ['a'], 6, false⟩ 0 (.identifier ['a'])])

theorem lex_parse_spelling_spacedCall :
    (lex {} spacedCall).error = none ∧
      parseTokens {} (lex {} spacedCall).tokens = { tree := some spacedCallTree, error := none } ∧
        Token.Uncurried (lex {} spacedCall).tokens ∧
          (lex {} ['!', 'f', '(', 'a', ')']).tokens.map Token.shape =
            (lex {} spacedCall).tokens.map Token.shape := by
  have he : (lex {} spacedCall).error = none := by decide +kernel
  have ht : parseTokens {} (lex {} spacedCall).tokens =
      { tree := some spacedCallTree, error := none } := by decide +kernel
  have hu : Token.Uncurried (lex {} spacedCall).tokens := by decide +kernel
  have hs := (lex_parse_spelling {} {} spacedCall spacedCallTree he ht hu).2.1
  exact ⟨he, ht, hu, hs⟩

end RuleLang
