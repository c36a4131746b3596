import RuleLang.Proofs.Parsing.Steps

namespace RuleLang

namespace Parser

variable {o : ParseOptions} {room n : Nat} {p q r : Parser} {t u v : Tree} {x : Parse Tree}
  {sub : Precedence → Parse Tree} {min : Precedence} {xs : List Tree} {op : Operator}

def Consumes (x : Parse Tree) : Prop :=
  ∀ {p q : Parser} {t : Tree}, x p = .ok t q →
    t.height + q.cursor.ahead.length ≤ p.cursor.ahead.length + 1

theorem length_ahead_bump (c : Cursor) : c.bump.ahead.length = c.ahead.length - 1 := by
  unfold Cursor.bump
  split <;> simp [*]

@[simp]
theorem length_ahead_onward (p : Parser) :
    p.onward.cursor.ahead.length = p.cursor.ahead.length - 1 :=
  length_ahead_bump p.cursor

theorem length_ahead_pos (h : p.cursor.peek.kind ≠ .finish) : 0 < p.cursor.ahead.length :=
  List.length_pos_of_ne_nil (Cursor.ahead_ne_nil_of_peek h)

theorem height_of_number (h : number o p = .ok t q) : t.height = 1 ∧ q.cursor = p.cursor := by
  unfold number at h
  dsimp only at h
  split at h
  · cases h
    exact ⟨rfl, rfl⟩
  split at h
  · cases h
    exact ⟨rfl, rfl⟩
  split at h
  · cases h
    exact ⟨rfl, rfl⟩
  · cases h

theorem operand_height_cases (h : operand o sub p = .ok t q) :
    (t.height = 1 ∧ q.cursor = p.cursor) ∨
      (p.cursor.here.kind = .openParen ∧ group (sub .lowest) p = .ok t q) ∨
        ∃ op, p.cursor.here.kind ∈ [Kind.minus, .bang] ∧ unary op (sub .unary) p = .ok t q := by
  have hatom {a : Atom} (h : (pure (.atom p.cursor.here 0 a) : Parse Tree) p = .ok t q) :
      t.height = 1 ∧ q.cursor = p.cursor := by
    obtain ⟨rfl, rfl⟩ := pure_eq_ok.mp h
    exact ⟨rfl, rfl⟩
  rw [operand, current_bind] at h
  cases hk : p.cursor.here.kind <;> rw [hk] at h
  case ident | string | trueWord | falseWord => exact .inl (hatom h)
  case numeric => exact .inl (height_of_number h)
  case openParen => exact .inr (.inl ⟨rfl, h⟩)
  case bang => exact .inr (.inr ⟨.bang, by simp, h⟩)
  case minus => exact .inr (.inr ⟨.minus, by simp, h⟩)
  all_goals exact absurd h throw_ne_ok

theorem consumes_group (hx : Consumes x) (hk : p.cursor.here.kind = .openParen)
    (h : group x p = .ok t q) :
    t.height + q.cursor.ahead.length ≤ p.cursor.ahead.length + 1 := by
  obtain ⟨ha, -, u, r, hu, hc, rfl, rfl⟩ := group_eq_ok.mp h
  have hpos := List.length_pos_of_ne_nil (ahead_ne_nil_of_admits ha (by simp [hk]))
  have hl := hx hu
  simp only [length_ahead_onward, Tree.height_withBrackets, cursor_grouped] at hl ⊢
  omega

theorem consumes_unary (hx : Consumes x) (hp : p.Admits)
    (hk : p.cursor.here.kind ∈ [Kind.minus, .bang]) (h : unary op x p = .ok t q) :
    t.height + q.cursor.ahead.length ≤ p.cursor.ahead.length + 1 := by
  obtain ⟨-, r, hr, rfl⟩ := unary_eq_ok.mp h
  have hpos := List.length_pos_of_ne_nil (ahead_ne_nil_of_admits hp (List.mem_cons_of_mem _ hk))
  have hl := hx hr
  simp only [length_ahead_onward, Tree.height] at hl ⊢
  omega

theorem consumes_operand (hsub : ∀ min, Consumes (sub min)) (hp : p.Admits)
    (h : operand o sub p = .ok t q) :
    t.height + q.cursor.ahead.length ≤ p.cursor.ahead.length + 1 := by
  obtain ⟨hh, hc⟩ | ⟨hk, hg⟩ | ⟨op, hk, hu⟩ := operand_height_cases h
  · rw [hh, hc]
    omega
  · exact consumes_group (hsub _) hk hg
  · exact consumes_unary (hsub _) hp hk hu

theorem consumes_moreArguments (hx : Consumes x) (h : moreArguments x n p = .ok xs q) :
    Tree.greatestHeight xs + q.cursor.ahead.length ≤ p.cursor.ahead.length := by
  induction n generalizing p xs with
  | zero =>
      obtain ⟨rfl, rfl⟩ := moreArguments_zero_eq_ok.mp h
      simp [Tree.greatestHeight]
  | succ n ih =>
      rw [moreArguments_succ_eq_ok] at h
      split at h
      · rename_i hk
        obtain ⟨t, r, ts, ht, hts, rfl⟩ := h
        have hpos := length_ahead_pos (p := p) (by simp [hk])
        have hl := hx ht
        have hls := ih hts
        simp only [length_ahead_onward, Tree.greatestHeight] at hl ⊢
        omega
      · obtain ⟨rfl, rfl⟩ := h
        simp [Tree.greatestHeight]

theorem consumes_arguments (hx : Consumes x) (hp : 0 < p.cursor.ahead.length)
    (h : arguments x p = .ok xs q) :
    Tree.greatestHeight xs + 1 + q.cursor.ahead.length ≤ p.cursor.ahead.length := by
  rw [arguments_eq_ok] at h
  split at h
  · obtain ⟨-, rfl, rfl⟩ := h
    simp only [length_ahead_onward, Tree.greatestHeight]
    omega
  · obtain ⟨t, r, ts, s, ht, hts, hc, -, rfl, rfl⟩ := h
    have hpos := length_ahead_pos (p := s) (by simp [hc])
    have hl := hx ht
    have hls := consumes_moreArguments hx hts
    simp only [length_ahead_onward, Tree.greatestHeight] at hl ⊢
    omega

theorem following?_eq_none_of_nil (h : p.cursor.ahead = []) : p.following? min = none := by
  simp [following?, Cursor.peek, h, Token.finish, Kind.precedence, Precedence.lt_def,
    Precedence.level]

theorem length_ahead_pos_of_following? {c : Continuation} (h : p.following? min = some c) :
    0 < p.cursor.ahead.length := by
  apply List.length_pos_of_ne_nil
  intro hn
  rw [following?_eq_none_of_nil hn] at h
  cases h

theorem consumes_extend {c : Continuation} (hsub : ∀ min, Consumes (sub min))
    (hp : 0 < p.cursor.ahead.length) (hn : p.onward.cursor.peek.kind ≠ .finish)
    (h : extend sub t c p.onward = .ok u q) :
    u.height + q.cursor.ahead.length ≤ t.height + p.cursor.ahead.length := by
  -- What the height gains, the tokens ahead lose: the operator or the parenthesis is one of them.
  have hpos := length_ahead_pos hn
  have hleft := t.height_pos
  cases c with
  | operator op =>
      obtain ⟨-, v, hv, rfl⟩ := binary_eq_ok.mp h
      have hl := hsub _ hv
      simp only [length_ahead_onward, Tree.height] at hl hpos ⊢
      omega
  | call =>
      obtain ⟨-, xs, hx, rfl⟩ := call_eq_ok.mp h
      have hl := consumes_arguments (hsub _) hpos hx
      simp only [length_ahead_onward, Tree.height] at hl hpos ⊢
      omega

theorem consumes_chain (hsub : ∀ min, Consumes (sub min)) (h : chain o sub min n t p = .ok u q) :
    u.height + q.cursor.ahead.length ≤ t.height + p.cursor.ahead.length := by
  induction n generalizing p t with
  | zero =>
      obtain ⟨rfl, rfl⟩ := chain_zero_eq_ok.mp h
      exact le_rfl
  | succ n ih =>
      cases hc : p.following? min with
      | none =>
          obtain ⟨rfl, rfl⟩ := (chain_succ_of_none hc).mp h
          exact le_rfl
      | some c =>
          obtain ⟨hn, v, r, hv, -, hrest⟩ := (chain_succ_of_some hc).mp h
          exact (ih hrest).trans
            (consumes_extend hsub (length_ahead_pos_of_following? hc) hn hv)

theorem consumes_expression (o : ParseOptions) (room : Nat) (min : Precedence) :
    Consumes (expression o room min) := by
  induction room generalizing min with
  | zero => exact fun h => absurd h expression_zero_ne_ok
  | succ room ih =>
      intro p q t h
      obtain ⟨ha, u, r, s, hx, -, hc, rfl⟩ := expression_succ_eq_ok.mp h
      have hfirst := consumes_operand ih (admits_within.mpr ha) hx
      exact (consumes_chain ih hc).trans hfirst

theorem height_chain_le (ht : t.height ≤ o.maxDepth) (h : chain o sub min n t p = .ok u q) :
    u.height ≤ o.maxDepth := by
  induction n generalizing p t with
  | zero =>
      obtain ⟨rfl, -⟩ := chain_zero_eq_ok.mp h
      exact ht
  | succ n ih =>
      cases hc : p.following? min with
      | none =>
          obtain ⟨rfl, -⟩ := (chain_succ_of_none hc).mp h
          exact ht
      | some c =>
          obtain ⟨-, v, r, -, hv, hrest⟩ := (chain_succ_of_some hc).mp h
          exact ih hv hrest

theorem height_expression_le (h : expression o room min p = .ok t q) : t.height ≤ o.maxDepth := by
  cases room with
  | zero => exact absurd h expression_zero_ne_ok
  | succ room =>
      obtain ⟨-, u, r, s, -, hu, hc, -⟩ := expression_succ_eq_ok.mp h
      exact height_chain_le hu hc

end Parser

namespace ParseSession

theorem height_parse_le {o : ParseOptions} {s s' : ParseSession} {t : Tree}
    (h : s.parse o = (.ok t, s')) : t.height ≤ o.maxDepth := by
  unfold parse at h
  split at h
  · cases h
  · split at h
    · rename_i hx
      cases h
      exact Parser.height_expression_le (Parser.parse_eq_ok.mp hx).1
    · cases h

end ParseSession

theorem height_parseTokens_le {o : ParseOptions} {tokens : List Token} {t : Tree}
    (h : (parseTokens o tokens).tree = some t) : t.height ≤ o.maxDepth := by
  unfold parseTokens at h
  split at h
  · rename_i hx
    cases h
    exact ParseSession.height_parse_le hx
  · cases h

end RuleLang
