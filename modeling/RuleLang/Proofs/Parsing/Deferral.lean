import Mathlib.Data.List.TakeWhile
import RuleLang.Proofs.Parsing.Limit
import RuleLang.Proofs.Parsing.Survival

/-!
The error of a bare `...`, which is recorded while the parse goes on. No second one is recorded, and
nothing but closing marks is read behind it. It is the error reported, unless a group or a list of
arguments around it is found unclosed or the tree too tall: these checks do not look for it.
-/

namespace RuleLang

def Token.IsEllipsis (t : Token) : Prop :=
  t.kind = .numeric ∧ t.literal = Parser.ellipsis

def Token.firstBehind (t : Token) (after : List Token) : Token :=
  (after.dropWhile fun u => u.kind = .closeParen).head?.getD
    (.finish (after.getLast?.getD t).offset)

namespace Cursor

variable {c : Cursor}

def passed (c : Cursor) : List Token :=
  c.behind.reverse ++ [c.here]

theorem passed_append_ahead (c : Cursor) : c.passed ++ c.ahead = c.tokens := by
  simp [passed, tokens]

theorem passed_bump (h : c.ahead ≠ []) : c.bump.passed = c.passed ++ [c.peek] := by
  obtain ⟨t, ts, hr⟩ := List.exists_cons_of_ne_nil h
  simp [passed, bump_of_ahead hr, peek_of_ahead hr]

theorem peek_eq_firstBehind {before closers : List Token} {t : Token}
    (hp : c.passed = before ++ t :: closers) (hc : ∀ u ∈ closers, u.kind = .closeParen)
    (hk : c.peek.kind ≠ .closeParen) : c.peek = t.firstBehind (closers ++ c.ahead) := by
  have hclosers : ∀ u ∈ closers, decide (u.kind = .closeParen) = true := by simpa using hc
  cases ha : c.ahead with
  | nil =>
      have hlast : closers.getLast?.getD t = c.here := by
        have hl := congrArg List.getLast? hp
        simpa [passed, List.getLast?_cons] using hl.symm
      simp [Token.firstBehind, peek, ha, hlast, List.dropWhile_eq_nil_iff.mpr hclosers]
  | cons u us =>
      rw [peek_of_ahead ha] at hk ⊢
      simp [Token.firstBehind, List.dropWhile_append_of_pos hclosers, hk]

end Cursor

namespace Parser

structure Recorded (p : Parser) (e : ParseError) : Prop where
  deferred : p.deferred = some e
  token : ∃ before t after, p.cursor.tokens = before ++ t :: after ∧ t.IsEllipsis ∧
    e = .notANumber t

structure Unwinds (p : Parser) (e : ParseError) : Prop where
  deferred : p.deferred = some e
  passed : ∃ before t closers, p.cursor.passed = before ++ t :: closers ∧ t.IsEllipsis ∧
    e = .notANumber t ∧ ∀ c ∈ closers, c.kind = .closeParen

inductive Overtakes (o : ParseOptions) (p : Parser) (e : ParseError) : ParseError → Prop
  | unclosed (hp : p.Unwinds e) (hk : p.cursor.peek.kind ≠ .closeParen) :
      Overtakes o p e (.expected .closeParen p.cursor.peek)
  | tooDeep (u : Token) : Overtakes o p e (.tooDeep o.maxDepth u)

def Heeds {α : Type} (o : ParseOptions) : EStateM.Result ParseError Parser α → Prop
  | .ok _ q => ∀ e ∈ q.deferred, q.Unwinds e
  | .error f q => ∀ e ∈ q.deferred, q.Recorded e ∧ (f = e ∨ Overtakes o q e f)

def Guards (o : ParseOptions) (x : Parse Tree) : Prop :=
  ∀ p : Parser, (∀ e ∈ p.deferred, p.Recorded e) → Heeds o (x p)

variable {α β : Type} {o : ParseOptions} {p q : Parser} {e f : ParseError}

theorem Unwinds.recorded (h : p.Unwinds e) : p.Recorded e where
  deferred := h.deferred
  token := by
    obtain ⟨before, t, closers, hp, ht, he, -⟩ := h.passed
    refine ⟨before, t, closers ++ p.cursor.ahead, ?_, ht, he⟩
    rw [← Cursor.passed_append_ahead, hp, List.append_assoc, List.cons_append]

theorem Unwinds.onward (h : p.Unwinds e) (hk : p.cursor.peek.kind = .closeParen) :
    p.onward.Unwinds e where
  deferred := h.deferred
  passed := by
    have hne : p.cursor.ahead ≠ [] := Cursor.ahead_ne_nil_of_peek (by simp [hk])
    obtain ⟨before, t, closers, hp, ht, he, hc⟩ := h.passed
    refine ⟨before, t, closers ++ [p.cursor.peek], ?_, ht, he, ?_⟩
    · rw [cursor_onward, Cursor.passed_bump hne, hp, List.append_assoc, List.cons_append]
    · exact List.forall_mem_append.mpr ⟨hc, by simpa using hk⟩

theorem Recorded.onward (h : p.Recorded e) : p.onward.Recorded e where
  deferred := h.deferred
  token := by
    rw [cursor_onward, Cursor.tokens_bump]
    exact h.token

theorem forall_of_deferred {P : ParseError → Prop} (h : p.deferred = none) :
    ∀ e ∈ p.deferred, P e := by
  rw [h]
  exact nofun

section Steps

variable {min : Precedence}

theorem heeds_tooDeep {u : Token} (hr : ∀ e ∈ p.deferred, p.Recorded e) :
    Heeds (α := α) o (.error (.tooDeep o.maxDepth u) p) :=
  fun e he => ⟨hr e he, .inr (.tooDeep u)⟩

theorem heeds_checkAdjacent (hr : ∀ e ∈ p.deferred, p.Recorded e) :
    Heeds o (checkAdjacent p) := by
  unfold checkAdjacent
  cases hd : p.deferred with
  | some e =>
      intro e' he
      exact ⟨hr e' he, .inl (Option.some.inj (hd.symm.trans he))⟩
  | none =>
      dsimp only
      split <;> exact forall_of_deferred hd

theorem heeds_refuseEmptyGroup (hd : p.deferred = none) : Heeds o (refuseEmptyGroup p) := by
  unfold refuseEmptyGroup
  split <;> exact forall_of_deferred hd

theorem heeds_refuseFinish (hd : p.deferred = none) : Heeds o (refuseFinish p) := by
  unfold refuseFinish
  split <;> exact forall_of_deferred hd

theorem heeds_refuseRest (hu : ∀ e ∈ p.deferred, p.Unwinds e) : Heeds o (refuseRest p) := by
  unfold refuseRest
  split
  · rename_i hc
    exact forall_of_deferred hc.1
  · exact hu

theorem heeds_expect (hu : ∀ e ∈ p.deferred, p.Unwinds e) :
    Heeds o (expect .closeParen p) := by
  unfold expect
  split
  · rename_i hc
    exact fun e he => (hu e he).onward hc
  · rename_i hc
    exact fun e he => ⟨(hu e he).recorded, .inr (.unclosed (hu e he) hc)⟩

theorem heeds_checkHeight {t : Tree} (hu : ∀ e ∈ p.deferred, p.Unwinds e) :
    Heeds o (checkHeight o t p) := by
  unfold checkHeight
  split
  · exact heeds_tooDeep fun e he => (hu e he).recorded
  · exact hu

theorem heeds_number (hd : p.deferred = none) (hn : p.cursor.here.kind = .numeric) :
    Heeds o (number o p) := by
  unfold number
  dsimp only
  split
  · exact forall_of_deferred hd
  split
  · exact forall_of_deferred hd
  split
  · rename_i hl
    rintro e ⟨⟩
    exact ⟨rfl, p.cursor.behind.reverse, _, [], rfl, ⟨hn, hl⟩, rfl, List.forall_mem_nil _⟩
  · exact forall_of_deferred hd

namespace Heeds

theorem bind {x : Parse α} {f : α → Parse β} (h : Heeds o (x p))
    (hf : ∀ a q, x p = .ok a q → (∀ e ∈ q.deferred, q.Unwinds e) → Heeds o (f a q)) :
    Heeds o ((x >>= f) p) := by
  cases hx : x p with
  | ok a q =>
      rw [hx] at h
      rw [bind_of_ok hx]
      exact hf a q hx h
  | error g q =>
      rw [hx] at h
      rw [bind_of_error hx]
      exact h

theorem map {x : Parse α} {f : α → β} (h : Heeds o (x p)) :
    Heeds o ((x >>= fun a => pure (f a)) p) :=
  h.bind fun _ _ _ hu => hu

theorem checkAdjacent_bind {f : Unit → Parse α} (hr : ∀ e ∈ p.deferred, p.Recorded e)
    (hf : p.deferred = none → Heeds o (f () p)) : Heeds o ((checkAdjacent >>= f) p) := by
  refine (heeds_checkAdjacent hr).bind fun _ q hx _ => ?_
  obtain ⟨ha, rfl⟩ := checkAdjacent_eq_ok.mp hx
  exact hf ha.1

end Heeds

end Steps

section Rules

variable {x : Parse Tree} {sub : Precedence → Parse Tree} {min : Precedence} {op : Operator}
  {t : Tree} {n : Nat}

theorem Guards.onward (hx : Guards o x) (hd : p.deferred = none) : Heeds o (x p.onward) :=
  hx p.onward (forall_of_deferred hd)

theorem heeds_group (hx : Guards o x) (hd : p.deferred = none) : Heeds o (group x p) := by
  refine .checkAdjacent_bind (forall_of_deferred hd) fun _ => ?_
  refine (heeds_refuseEmptyGroup hd).bind fun _ _ hr _ => ?_
  obtain ⟨-, rfl⟩ := refuseEmptyGroup_eq_ok.mp hr
  rw [bump_bind]
  refine (hx.onward hd).bind fun t q _ hu => ?_
  refine Heeds.bind (x := countGroup t.token) ?_ fun _ _ _ hu => (heeds_expect hu).map
  rw [countGroup_eq_ok.mpr ⟨rfl, rfl⟩]
  exact fun e he => ⟨he, (hu e he).passed⟩

theorem heeds_unary (hx : Guards o x) (hd : p.deferred = none) : Heeds o (unary op x p) := by
  rw [unary, current_bind, bump_bind]
  exact .checkAdjacent_bind (forall_of_deferred hd) fun _ => (hx.onward hd).map

theorem heeds_operand (hsub : ∀ min, Guards o (sub min)) (hd : p.deferred = none) :
    Heeds o (operand o sub p) := by
  rw [operand, current_bind]
  cases hn : p.cursor.here.kind <;> dsimp only
  case numeric => exact heeds_number hd hn
  case openParen => exact heeds_group (hsub _) hd
  case bang | minus => exact heeds_unary (hsub _) hd
  all_goals exact forall_of_deferred hd

theorem heeds_binary (hsub : ∀ min, Guards o (sub min)) (hd : p.deferred = none) :
    Heeds o (binary op sub t p) := by
  refine .checkAdjacent_bind (forall_of_deferred hd) fun _ => ?_
  rw [current_bind, bump_bind]
  exact ((hsub _).onward hd).map

theorem heeds_moreArguments (hx : Guards o x) (hu : ∀ e ∈ p.deferred, p.Unwinds e) :
    Heeds o (moreArguments x n p) := by
  induction n generalizing p with
  | zero => exact hu
  | succ n ih =>
      rw [moreArguments, peek_bind]
      split
      · -- A recorded error stops the next argument, wherever the two steps have led.
        rw [bump_bind, bump_bind]
        have hr : ∀ e ∈ p.deferred, p.onward.onward.Recorded e :=
          fun e he => (hu e he).recorded.onward.onward
        exact (hx _ hr).bind fun _ _ _ hu => (ih hu).map
      · exact hu

theorem heeds_arguments (hx : Guards o x) (hd : p.deferred = none) :
    Heeds o (arguments x p) := by
  rw [arguments, peek_bind]
  split
  · rw [bump_bind]
    exact (heeds_checkAdjacent (p := p.onward) (forall_of_deferred hd)).map
  · rw [bump_bind]
    refine (hx.onward hd).bind fun _ _ _ hu => ?_
    rw [remaining_bind]
    refine (heeds_moreArguments hx hu).bind fun _ _ _ hu => ?_
    refine (heeds_expect hu).bind fun _ _ _ hu => ?_
    exact (heeds_checkAdjacent fun e he => (hu e he).recorded).map

theorem heeds_call (hx : Guards o x) (hd : p.deferred = none) : Heeds o (call x t p) := by
  refine .checkAdjacent_bind (forall_of_deferred hd) fun _ => ?_
  rw [current_bind]
  exact (heeds_arguments hx hd).map

theorem heeds_extend (hsub : ∀ min, Guards o (sub min)) (hd : p.deferred = none)
    (c : Continuation) : Heeds o (extend sub t c p) := by
  cases c with
  | operator op => exact heeds_binary hsub hd
  | call => exact heeds_call (hsub _) hd

theorem deferred_of_following? {c : Continuation} (h : p.following? min = some c) :
    p.deferred = none := by
  unfold following? at h
  split at h
  · rename_i hc
    exact hc.1
  · cases h

theorem heeds_chain (hsub : ∀ min, Guards o (sub min)) (hu : ∀ e ∈ p.deferred, p.Unwinds e) :
    Heeds o (chain o sub min n t p) := by
  induction n generalizing p t with
  | zero => exact hu
  | succ n ih =>
      rw [chain, following_bind]
      cases hf : p.following? min with
      | none => exact hu
      | some c =>
          have hd := deferred_of_following? hf
          have hd : p.onward.deferred = none := hd
          dsimp only
          rw [bump_bind]
          refine (heeds_refuseFinish hd).bind fun _ _ hr _ => ?_
          obtain ⟨-, rfl⟩ := refuseFinish_eq_ok.mp hr
          refine (heeds_extend hsub hd c).bind fun u _ _ hu => ?_
          exact (heeds_checkHeight hu).bind fun _ _ _ hu => ih hu

end Rules

theorem guards_expression (o : ParseOptions) (room : Nat) (min : Precedence) :
    Guards o (expression o room min) := by
  induction room generalizing min with
  | zero =>
      intro p hr
      have hr' : ∀ e ∈ p.within.deferred, p.within.Recorded e :=
        fun e he => ⟨he, (hr e he).token⟩
      exact heeds_tooDeep hr'
  | succ room ih =>
      intro p hr
      have hr' : ∀ e ∈ p.within.deferred, p.within.Recorded e :=
        fun e he => ⟨he, (hr e he).token⟩
      rw [expression_succ]
      change Heeds o ((level o (expression o room) min >>= _) p.within)
      refine Heeds.bind ?_ fun _ q _ hu e he => ⟨he, (hu e he).passed⟩
      refine .checkAdjacent_bind hr' fun hd => ?_
      refine (heeds_operand ih hd).bind fun t _ _ hu => ?_
      refine (heeds_checkHeight hu).bind fun _ _ _ hu => ?_
      exact heeds_chain ih hu

theorem heeds_parse (hr : ∀ e ∈ p.deferred, p.Recorded e) : Heeds o (parse o p) := by
  have hx := guards_expression o (o.maxDepth - p.depth) .lowest p hr
  exact Heeds.bind (x := expression o (o.maxDepth - p.depth) .lowest) hx fun _ _ _ hu =>
    (heeds_refuseRest hu).map

def operandNumbering (rule : Parse Tree) (o : ParseOptions) (sub : Precedence → Parse Tree) :
    Parse Tree := fun p =>
  if p.cursor.here.kind = .numeric then rule p else operand o sub p

def levelNumbering (rule : Parse Tree) (o : ParseOptions) (sub : Precedence → Parse Tree)
    (min : Precedence) : Parse Tree := do
  checkAdjacent
  let first ← operandNumbering rule o sub
  checkHeight o first
  chain o sub min (← remaining) first

def expressionNumbering (rule : Parse Tree) (o : ParseOptions) : Nat → Precedence → Parse Tree
  | 0, _ => do
      enter
      tooDeep o
  | room + 1, min => do
      enter
      let t ← levelNumbering rule o (expressionNumbering rule o room) min
      leave
      return t

def parseNumbering (rule : Parse Tree) (o : ParseOptions) : Parse Tree := do
  let t ← expressionNumbering rule o (o.maxDepth - (← get).depth) .lowest
  refuseRest
  return t

section Numbering

variable {rule : Parse Tree}

theorem checkAdjacent_bind_congr {f g : Unit → Parse α}
    (h : p.deferred = none → f () p = g () p) :
    (checkAdjacent >>= f) p = (checkAdjacent >>= g) p := by
  refine bind_congr_ok fun _ q hx => ?_
  obtain ⟨ha, rfl⟩ := checkAdjacent_eq_ok.mp hx
  exact h ha.1

theorem levelNumbering_eq (h : ∀ p : Parser, p.deferred = none → rule p = number o p)
    (sub : Precedence → Parse Tree) (min : Precedence) :
    levelNumbering rule o sub min = level o sub min := by
  funext p
  refine checkAdjacent_bind_congr fun hd => ?_
  have hoperand : operandNumbering rule o sub p = operand o sub p := by
    unfold operandNumbering
    split
    · rename_i hn
      rw [operand, current_bind, hn, h p hd]
    · rfl
  exact bind_congr_left hoperand

theorem expressionNumbering_eq (h : ∀ p : Parser, p.deferred = none → rule p = number o p)
    (room : Nat) : expressionNumbering rule o room = expression o room := by
  induction room with
  | zero => rfl
  | succ room ih =>
      funext min
      rw [expressionNumbering, expression_succ, levelNumbering_eq h, ih]

theorem parseNumbering_eq (h : ∀ p : Parser, p.deferred = none → rule p = number o p) :
    parseNumbering rule o = parse o := by
  unfold parseNumbering parse
  simp only [expressionNumbering_eq h]

end Numbering

end Parser

variable {o : ParseOptions} {tokens : List Token} {e : ParseError}

/-- The error that is left to be taken when the tokens have been parsed, with a tree or without. -/
def recordedError (o : ParseOptions) (tokens : List Token) : Option ParseError :=
  ((ParseSession.ofTokens tokens).parse o).2.takeDeferred.1

/-- What is reported in place of a recorded error, and where. -/
inductive Overtaken (o : ParseOptions) (tokens : List Token) (t : Token) (after : List Token) : Prop
  | unclosed (hr : parseTokens o tokens =
      { tree := none, error := some (.expected .closeParen (t.firstBehind after)) })
  | tooDeep (u : Token) (hm : o.maxDepth < tokens.length)
      (hr : parseTokens o tokens = { tree := none, error := some (.tooDeep o.maxDepth u) })

theorem overtaken_of_overtakes {u : Token} {us : List Token} {q : Parser} {f : ParseError}
    (h : Parser.Overtakes o q e f) (hq : q.Recorded e) (ht : q.cursor.tokens = u :: us)
    (hr : parseTokens o (u :: us) = { tree := none, error := some f }) :
    ∃ before t after, u :: us = before ++ t :: after ∧ t.IsEllipsis ∧ e = .notANumber t ∧
      Overtaken o (u :: us) t after := by
  cases h with
  | unclosed hp hk =>
      obtain ⟨before, t, closers, hpassed, hn, he, hc⟩ := hp.passed
      have hpeek := Cursor.peek_eq_firstBehind hpassed hc hk
      refine ⟨before, t, closers ++ q.cursor.ahead, ?_, hn, he, .unclosed (hpeek ▸ hr)⟩
      rw [← ht, ← Cursor.passed_append_ahead, hpassed, List.append_assoc, List.cons_append]
  | tooDeep v =>
      obtain ⟨before, t, after, hb, hn, he⟩ := hq.token
      refine ⟨before, t, after, ht ▸ hb, hn, he, .tooDeep v ?_ hr⟩
      by_contra hm
      obtain ⟨heq, hshallow⟩ := parseTokens_of_length_le o.boundary (Nat.not_lt.mp hm)
      exact hshallow (.tooDeep o.maxDepth v) (by rw [heq, hr]; rfl) o.maxDepth v rfl

theorem recordedError_cons {u : Token} {us : List Token} :
    recordedError o (u :: us) = (ParseSession.left o (Parser.start u us)).deferred := by
  have hleft := ParseSession.parser?_parse (o := o) (s := .ofTokens (u :: us)) rfl
  unfold recordedError ParseSession.takeDeferred
  rw [hleft]
  rfl

theorem parse_cases_of_recordedError {u : Token} {us : List Token}
    (h : recordedError o (u :: us) = some e) :
    (parseTokens o (u :: us)).error = some e ∧ (∃ before t after, u :: us = before ++ t :: after ∧
        t.IsEllipsis ∧ e = .notANumber t) ∨
      (parseTokens o (u :: us)).tree = none ∧ ∃ before t after, u :: us = before ++ t :: after ∧
        t.IsEllipsis ∧ e = .notANumber t ∧ Overtaken o (u :: us) t after := by
  have hheeds : Parser.Heeds o (Parser.parse o (Parser.start u us)) :=
    Parser.heeds_parse (Parser.forall_of_deferred rfl)
  have htokens : (ParseSession.left o (Parser.start u us)).cursor.tokens = u :: us :=
    (ParseSession.follows_left o (Parser.start u us)).tokens
  have hresult : parseTokens o (u :: us) = _ := parseTokens_cons
  rw [recordedError_cons] at h
  unfold ParseSession.left at h htokens
  cases hx : Parser.parse o (Parser.start u us) with
  | ok t q =>
      rw [hx] at hheeds h htokens hresult
      obtain ⟨before, v, after, hv, hn⟩ := (hheeds e h).recorded.token
      exact .inl ⟨hresult ▸ h, before, v, after, htokens ▸ hv, hn⟩
  | error f q =>
      rw [hx] at hheeds h htokens hresult
      obtain ⟨hrecorded, rfl | ho⟩ := hheeds e h
      · obtain ⟨before, v, after, hv, hn⟩ := hrecorded.token
        exact .inl ⟨hresult ▸ rfl, before, v, after, htokens ▸ hv, hn⟩
      · exact .inr ⟨hresult ▸ rfl, overtaken_of_overtakes ho hrecorded htokens hresult⟩

theorem parseTokens_of_recordedError (h : recordedError o tokens = some e) :
    (∃ before t after, tokens = before ++ t :: after ∧ t.IsEllipsis ∧ e = .notANumber t ∧
      ((parseTokens o tokens).error = some e ∨ Overtaken o tokens t after)) ∧
    ((parseTokens o tokens).tree ≠ none → (parseTokens o tokens).error = some e) ∧
    ∀ rule : Parse Tree, (∀ p : Parser, p.deferred = none → rule p = Parser.number o p) →
      Parser.parseNumbering rule o = Parser.parse o := by
  cases tokens with
  | nil =>
      simp [recordedError, ParseSession.ofTokens, ParseSession.parse,
        ParseSession.takeDeferred] at h
  | cons u us =>
      rcases parse_cases_of_recordedError h with ⟨he, before, t, after, ht, hn, hm⟩ |
        ⟨htree, before, t, after, ht, hn, hm, ho⟩
      · exact ⟨⟨before, t, after, ht, hn, hm, .inl he⟩, fun _ => he,
          fun _ => Parser.parseNumbering_eq⟩
      · exact ⟨⟨before, t, after, ht, hn, hm, .inr ho⟩, fun hne => absurd htree hne,
          fun _ => Parser.parseNumbering_eq⟩

/-- The tokens of `(...) + 1`. -/
def closedEllipsis : List Token :=
  [⟨.openParen, ['('], 1, false⟩, ⟨.numeric, Parser.ellipsis, 4, false⟩,
    ⟨.closeParen, [')'], 5, false⟩, ⟨.plus, ['+'], 7, false⟩, ⟨.numeric, ['1'], 9, false⟩,
    ⟨.finish, [], 9, false⟩]

theorem error_closedEllipsis :
    recordedError {} closedEllipsis = some (.notANumber ⟨.numeric, Parser.ellipsis, 4, false⟩) ∧
      (parseTokens {} closedEllipsis).tree ≠ none ∧
      (parseTokens {} closedEllipsis).error =
        some (.notANumber ⟨.numeric, Parser.ellipsis, 4, false⟩) := by
  have hr : recordedError {} closedEllipsis =
      some (.notANumber ⟨.numeric, Parser.ellipsis, 4, false⟩) := by decide +kernel
  have ht : (parseTokens {} closedEllipsis).tree ≠ none := by decide +kernel
  exact ⟨hr, ht, (parseTokens_of_recordedError hr).2.1 ht⟩

/-- The tokens of `(... + 1)`. -/
def openEllipsis : List Token :=
  [⟨.openParen, ['('], 1, false⟩, ⟨.numeric, Parser.ellipsis, 4, false⟩, ⟨.plus, ['+'], 6, false⟩,
    ⟨.numeric, ['1'], 8, false⟩, ⟨.closeParen, [')'], 9, false⟩, ⟨.finish, [], 9, false⟩]

theorem not_error_openEllipsis :
    recordedError {} openEllipsis = some (.notANumber ⟨.numeric, Parser.ellipsis, 4, false⟩) ∧
      (parseTokens {} openEllipsis).error =
        some (.expected .closeParen ⟨.plus, ['+'], 6, false⟩) ∧
      ¬ ∀ o tokens e, recordedError o tokens = some e → (parseTokens o tokens).error = some e := by
  have hr : recordedError {} openEllipsis =
      some (.notANumber ⟨.numeric, Parser.ellipsis, 4, false⟩) := by decide +kernel
  have he : (parseTokens {} openEllipsis).error =
      some (.expected .closeParen ⟨.plus, ['+'], 6, false⟩) := by decide +kernel
  refine ⟨hr, he, fun h => ?_⟩
  have heq := (h _ _ _ hr).symm.trans he
  cases heq

end RuleLang
