import RuleLang.Proofs.Parsing.Course
import RuleLang.Proofs.Parsing.Sizes

namespace RuleLang

theorem length_le_of_decreasing {l : List Nat} {n : Nat} (h : l.Pairwise (· > ·))
    (hn : ∀ i ∈ l, i < n) : l.length ≤ n := by
  induction l generalizing n with
  | nil => exact Nat.zero_le n
  | cons i l ih =>
      obtain ⟨hi, hl⟩ := List.pairwise_cons.mp h
      have hlt : i < n := hn i (List.mem_cons_self ..)
      have hle := ih hl hi
      simp only [List.length_cons]
      omega

structure Cursor.Over (tokens : List Token) (c : Cursor) : Prop where
  same : c.tokens = tokens
  here : tokens[c.position]? = some c.here

theorem Cursor.over_iff {tokens : List Token} {c : Cursor} : c.Over tokens ↔ c.tokens = tokens :=
  ⟨Over.same, fun h => ⟨h, h ▸ c.getElem?_position⟩⟩

theorem Cursor.Over.position_lt {tokens : List Token} {c : Cursor} (h : c.Over tokens) :
    c.position < tokens.length :=
  (List.getElem?_eq_some_iff.mp h.here).1

namespace Parser

variable {o : ParseOptions} {p q : Parser} {x : Parse Tree} {sub : Precedence → Parse Tree}
  {min : Precedence} {n : Nat} {t u : Tree} {xs : List Tree}

theorem Consumes.length_ahead_le (hx : Consumes x) (h : x p = .ok t q) :
    q.cursor.ahead.length ≤ p.cursor.ahead.length := by
  have hl := hx h
  have hpos := t.height_pos
  omega

theorem length_ahead_extend_le {c : Continuation} (hsub : ∀ min, Consumes (sub min))
    (hp : 0 < p.cursor.ahead.length) (h : extend sub t c p = .ok u q) :
    q.cursor.ahead.length ≤ p.cursor.ahead.length := by
  cases c with
  | operator op =>
      obtain ⟨-, r, hr, -⟩ := binary_eq_ok.mp h
      have hl := Consumes.length_ahead_le (hsub _) hr
      rw [length_ahead_onward] at hl
      omega
  | call =>
      obtain ⟨-, xs, hx, -⟩ := call_eq_ok.mp h
      have hl := consumes_arguments (hsub _) hp hx
      omega

theorem following?_of_chain (hsub : ∀ min, Consumes (sub min))
    (hn : p.cursor.ahead.length ≤ n) (h : chain o sub min n t p = .ok u q) :
    q.following? min = none := by
  induction n generalizing p t with
  | zero =>
      obtain ⟨-, rfl⟩ := chain_zero_eq_ok.mp h
      exact following?_eq_none_of_nil (List.eq_nil_of_length_eq_zero (Nat.le_zero.mp hn))
  | succ n ih =>
      cases hf : p.following? min with
      | none =>
          obtain ⟨-, rfl⟩ := (chain_succ_of_none hf).mp h
          exact hf
      | some c =>
          obtain ⟨hr, v, r, hv, -, hrest⟩ := (chain_succ_of_some hf).mp h
          have hl := length_ahead_extend_le hsub (length_ahead_pos hr) hv
          rw [length_ahead_onward] at hl
          exact ih (by omega) hrest

theorem peek_ne_comma_of_moreArguments (hx : Consumes x) (hn : p.cursor.ahead.length ≤ n)
    (h : moreArguments x n p = .ok xs q) : q.cursor.peek.kind ≠ .comma := by
  induction n generalizing p xs with
  | zero =>
      obtain ⟨-, rfl⟩ := moreArguments_zero_eq_ok.mp h
      have hnil := List.eq_nil_of_length_eq_zero (Nat.le_zero.mp hn)
      simp [Cursor.peek, hnil, Token.finish]
  | succ n ih =>
      rw [moreArguments_succ_eq_ok] at h
      split at h
      · rename_i hk
        obtain ⟨t, r, ts, ht, hts, rfl⟩ := h
        have hpos := length_ahead_pos (p := p) (by simp [hk])
        have hl := Consumes.length_ahead_le hx ht
        simp only [length_ahead_onward] at hl
        exact ih (by omega) hts
      · rename_i hk
        obtain ⟨-, rfl⟩ := h
        exact hk

def expressionLeaving (leaving : Parse Unit) (o : ParseOptions) : Nat → Precedence → Parse Tree
  | 0, _ => do
      enter
      tooDeep o
  | room + 1, min => do
      enter
      let t ← level o (expressionLeaving leaving o room) min
      leaving
      return t

def parseLeaving (leaving : Parse Unit) (o : ParseOptions) : Parse Tree := do
  let t ← expressionLeaving leaving o (o.maxDepth - (← get).depth) .lowest
  refuseRest
  return t

section Leaving

variable {leaving : Parse Unit}

theorem expressionLeaving_eq (h : ∀ p : Parser, 0 < p.depth → leaving p = leave p)
    (o : ParseOptions) (room : Nat) :
    expressionLeaving leaving o room = expression o room := by
  induction room with
  | zero => rfl
  | succ room ih =>
      funext min p
      have hlevel := goes_level (o := o) min (enters_expression o room) p.within
      rw [expressionLeaving, expression_succ, ih]
      change (level o (expression o room) min >>= _) p.within =
        (level o (expression o room) min >>= _) p.within
      refine bind_congr_ok fun t q hx => bind_congr_left (h q ?_)
      rw [hx] at hlevel
      rw [hlevel.1.depth]
      exact Nat.succ_pos _

theorem parseLeaving_eq (h : ∀ p : Parser, 0 < p.depth → leaving p = leave p)
    (o : ParseOptions) : parseLeaving leaving o = parse o := by
  unfold parseLeaving parse
  simp only [expressionLeaving_eq h]

end Leaving

end Parser

namespace ParseSession

inductive Call where
  | parse
  | takeDeferred
  deriving DecidableEq, Repr

def next (o : ParseOptions) (s : ParseSession) : Call → ParseSession
  | .parse => (s.parse o).2
  | .takeDeferred => s.takeDeferred.2

def after (o : ParseOptions) (s : ParseSession) (calls : List Call) : ParseSession :=
  calls.foldl (next o) s

def Over (tokens : List Token) (s : ParseSession) : Prop :=
  (tokens = [] ∧ s.parser? = none) ∨ ∃ p, s.parser? = some p ∧ p.cursor.Over tokens

variable {o : ParseOptions} {tokens : List Token} {s : ParseSession} {p : Parser}

theorem over_ofTokens (tokens : List Token) : (ofTokens tokens).Over tokens := by
  cases tokens with
  | nil => exact .inl ⟨rfl, rfl⟩
  | cons t ts => exact .inr ⟨_, rfl, Cursor.over_iff.mpr rfl⟩

def left (o : ParseOptions) (p : Parser) : Parser :=
  match Parser.parse o p with
  | .ok _ q | .error _ q => q

theorem parser?_parse (h : s.parser? = some p) : (s.parse o).2.parser? = some (left o p) := by
  cases hx : Parser.parse o p <;> simp [parse, left, h, hx]

theorem follows_left (o : ParseOptions) (p : Parser) : p.marked.Follows (left o p) := by
  have hp := Parser.goes_parse o p
  unfold left
  cases hx : Parser.parse o p with
  | ok t q =>
      rw [hx] at hp
      exact hp.1.toFollows
  | error e q =>
      rw [hx] at hp
      exact hp.1

theorem Over.next (h : s.Over tokens) (call : Call) : (s.next o call).Over tokens := by
  rcases h with ⟨ht, hs⟩ | ⟨p, hs, hp⟩
  · refine .inl ⟨ht, ?_⟩
    cases call <;> simp [ParseSession.next, parse, takeDeferred, hs]
  · cases call with
    | parse =>
        have htokens := (follows_left o p).tokens.trans hp.same
        exact .inr ⟨_, parser?_parse hs, Cursor.over_iff.mpr htokens⟩
    | takeDeferred => exact .inr ⟨{ p with deferred := none }, by
        simp [ParseSession.next, takeDeferred, hs], hp⟩

theorem Over.after (h : s.Over tokens) (calls : List Call) : (s.after o calls).Over tokens := by
  induction calls generalizing s with
  | nil => exact h
  | cons call calls ih => exact ih (h.next call)

theorem depth_left (h : s.parser? = some p) :
    (∀ t, (s.parse o).1 = .ok t → (left o p).depth = p.depth) ∧
      ∀ e, (s.parse o).1 = .error e → p.depth ≤ (left o p).depth := by
  have hp := Parser.goes_parse o p
  cases hx : Parser.parse o p with
  | ok t q =>
      rw [hx] at hp
      simp only [parse, left, h, hx]
      refine ⟨fun _ _ => hp.1.depth, fun e he => ?_⟩
      cases he
  | error e q =>
      rw [hx] at hp
      simp only [parse, left, h, hx]
      refine ⟨fun t ht => ?_, fun _ _ => hp.2.1⟩
      cases ht

theorem begun_left (o : ParseOptions) (p : Parser) :
    ∃ new, (left o p).begun = new ++ p.begun ∧ new.Pairwise (· > ·) ∧
      ∀ i ∈ new, p.cursor.position ≤ i ∧ i ≤ (left o p).cursor.position := by
  obtain ⟨new, hnew, hdecreasing, hbounds⟩ := (follows_left o p).begun
  have hposition := (follows_left o p).position
  refine ⟨new ++ [p.cursor.position], ?_, ?_, fun i hi => ?_⟩
  · rw [hnew, List.append_assoc]
    rfl
  · refine List.pairwise_append.mpr ⟨hdecreasing, List.pairwise_singleton _ _, fun i hi j hj => ?_⟩
    obtain rfl := List.mem_singleton.mp hj
    exact (hbounds i hi).1
  · rcases List.mem_append.mp hi with hi | hi
    · exact ⟨(hbounds i hi).1.le, (hbounds i hi).2⟩
    · obtain rfl := List.mem_singleton.mp hi
      exact ⟨le_rfl, hposition⟩

/-- What a parse does to the parser, and that the ways in which it could go astray are not met. -/
structure Survives (o : ParseOptions) (tokens : List Token) (s : ParseSession) (p q : Parser) :
    Prop where
  before : p.cursor.Over tokens
  behind : q.cursor.Over tokens
  position : p.cursor.position ≤ q.cursor.position
  level : ∀ t, (s.parse o).1 = .ok t → q.depth = p.depth
  deeper : ∀ e, (s.parse o).1 = .error e → p.depth ≤ q.depth
  begun : ∃ new, q.begun = new ++ p.begun ∧ new.Pairwise (· > ·) ∧ new.length ≤ tokens.length ∧
    ∀ i ∈ new, p.cursor.position ≤ i ∧ i ≤ q.cursor.position
  -- Whatever leaving would do at depth zero, the parse is the same.
  leaves : ∀ leaving : Parse Unit, (∀ r : Parser, 0 < r.depth → leaving r = Parser.leave r) →
    Parser.parseLeaving leaving o p = Parser.parse o p

theorem survives_of_over (h : s.parser? = some p) (hp : p.cursor.Over tokens) :
    s.Survives o tokens p (left o p) := by
  have hfollows := follows_left o p
  have hover : (left o p).cursor.Over tokens :=
    Cursor.over_iff.mpr (hfollows.tokens.trans hp.same)
  obtain ⟨new, hnew, hdecreasing, hbounds⟩ := begun_left o p
  have hlength : new.length ≤ tokens.length :=
    length_le_of_decreasing hdecreasing fun i hi => (hbounds i hi).2.trans_lt hover.position_lt
  exact
    { before := hp
      behind := hover
      position := hfollows.position
      level := (depth_left h).1
      deeper := (depth_left h).2
      begun := ⟨new, hnew, hdecreasing, hlength, hbounds⟩
      leaves := fun leaving hl => by rw [Parser.parseLeaving_eq hl] }

theorem parse_survives (o : ParseOptions) (tokens : List Token) (calls : List Call) :
    (let s := (ofTokens tokens).after o calls
     (tokens = [] ∧ s.parse o = (.error .noTokens, s) ∧ s.takeDeferred = (none, s)) ∨
      ∃ p q, s.parser? = some p ∧ (s.parse o).2.parser? = some q ∧ s.Survives o tokens p q ∧
        s.takeDeferred = (p.deferred, ⟨some { p with deferred := none }⟩)) ∧
    (∀ c : Cursor, c.Over c.tokens ∧ c.bump.Over c.tokens ∧ c.position ≤ c.bump.position) ∧
    (∀ room min left (p q : Parser) t,
      Parser.chain o (Parser.expression o room) min p.cursor.ahead.length left p = .ok t q →
        q.following? min = none) ∧
    ∀ room (p q : Parser) xs,
      Parser.moreArguments (Parser.expression o room .lowest) p.cursor.ahead.length p = .ok xs q →
        q.cursor.peek.kind ≠ .comma := by
  refine ⟨?_, fun c => ?_, fun room min left p q t hx => ?_, fun room p q xs hx => ?_⟩
  · rcases (over_ofTokens tokens).after (o := o) calls with ⟨ht, hs⟩ | ⟨p, hs, hp⟩
    · exact .inl ⟨ht, by simp [parse, hs], by simp [takeDeferred, hs]⟩
    · exact .inr ⟨p, left o p, hs, parser?_parse hs, survives_of_over hs hp,
        by simp [takeDeferred, hs]⟩
  · exact ⟨Cursor.over_iff.mpr rfl, Cursor.over_iff.mpr c.tokens_bump, c.position_le_bump⟩
  · exact Parser.following?_of_chain (Parser.consumes_expression o room) le_rfl hx
  · exact Parser.peek_ne_comma_of_moreArguments (Parser.consumes_expression o room .lowest) le_rfl hx

def openGroup : List Token :=
  [⟨.openParen, ['('], 1, false⟩]

/-- A parse that fails inside a group leaves the parser a level deeper, and the next parse goes on
from there. -/
theorem parse_survives_openGroup :
    ∃ p q, ((ofTokens openGroup).after {} [.parse]).parser? = some p ∧ p.depth = 1 ∧
      ((ofTokens openGroup).after {} [.parse]).Survives {} openGroup p q := by
  obtain ⟨⟨h, -⟩ | ⟨p, q, hp, -, hs, -⟩, -⟩ := parse_survives {} openGroup [.parse]
  · cases h
  · have hdepth : (((ofTokens openGroup).after {} [.parse]).parser?.map Parser.depth) = some 1 := by
      decide +kernel
    rw [hp] at hdepth
    exact ⟨p, q, hp, Option.some.inj hdepth, hs⟩

end ParseSession

end RuleLang
