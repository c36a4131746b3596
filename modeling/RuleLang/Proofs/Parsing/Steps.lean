import RuleLang.Proofs.Parsing.Grammar

namespace RuleLang.Parser

def onward (p : Parser) : Parser :=
  { p with cursor := p.cursor.bump }

def within (p : Parser) : Parser :=
  { p with depth := p.depth + 1, begun := p.cursor.position :: p.begun }

def out (p : Parser) : Parser :=
  { p with depth := p.depth - 1 }

def groupsAround (p : Parser) (t : Token) : Nat :=
  match p.lastGroup with
  | some (u, n) => if u = t then n else 0
  | none => 0

def grouped (p : Parser) (t : Token) : Parser :=
  { p with lastGroup := some (t, p.groupsAround t + 1) }

def Admits (p : Parser) : Prop :=
  p.deferred = none ∧ p.cursor.here.kind.mayPrecede p.cursor.peek.kind = true

section

variable {p : Parser} {t u : Token}

@[simp]
theorem cursor_onward : p.onward.cursor = p.cursor.bump := rfl

@[simp]
theorem cursor_within : p.within.cursor = p.cursor := rfl

@[simp]
theorem cursor_grouped : (p.grouped t).cursor = p.cursor := rfl

@[simp]
theorem groupsAround_onward : p.onward.groupsAround t = p.groupsAround t := rfl

@[simp]
theorem admits_within : p.within.Admits ↔ p.Admits := Iff.rfl

theorem groupsAround_grouped_self : (p.grouped t).groupsAround t = p.groupsAround t + 1 := by
  simp [grouped, groupsAround]

theorem groupsAround_grouped_of_ne (h : u ≠ t) : (p.grouped t).groupsAround u = 0 := by
  simp [grouped, groupsAround, h.symm]

end

theorem ahead_ne_nil_of_admits {p : Parser} (h : p.Admits)
    (hk : p.cursor.here.kind ∈ [Kind.openParen, .minus, .bang]) : p.cursor.ahead ≠ [] := by
  apply Cursor.ahead_ne_nil_of_peek
  intro hf
  have hm := h.2
  rw [hf] at hm
  simp only [List.mem_cons, List.not_mem_nil, or_false] at hk
  obtain hk | hk | hk := hk <;> simp [hk, Kind.mayPrecede] at hm

variable {α β : Type} {o : ParseOptions} {p p' : Parser} {t u : Tree} {x : Parse Tree}
  {sub : Precedence → Parse Tree} {min : Precedence} {n : Nat} {xs : List Tree} {a : Unit}

theorem bind_eq_ok {x : Parse α} {f : α → Parse β} {b : β} :
    (x >>= f) p = .ok b p' ↔ ∃ a q, x p = .ok a q ∧ f a q = .ok b p' := by
  change EStateM.bind x f p = _ ↔ _
  unfold EStateM.bind
  cases x p <;> simp

theorem bind_of_ok {x : Parse α} {f : α → Parse β} {a : α} (h : x p = .ok a p') :
    (x >>= f) p = f a p' := by
  change EStateM.bind x f p = _
  rw [EStateM.bind, h]

theorem bind_of_error {x : Parse α} {f : α → Parse β} {e : ParseError} (h : x p = .error e p') :
    (x >>= f) p = .error e p' := by
  change EStateM.bind x f p = _
  rw [EStateM.bind, h]

theorem bind_congr_left {x y : Parse α} {f : α → Parse β} (h : x p = y p) :
    (x >>= f) p = (y >>= f) p := by
  cases hx : x p with
  | error e q => rw [bind_of_error hx, bind_of_error (h.symm.trans hx)]
  | ok a q => rw [bind_of_ok hx, bind_of_ok (h.symm.trans hx)]

theorem bind_congr_ok {x : Parse α} {f g : α → Parse β}
    (h : ∀ a q, x p = .ok a q → f a q = g a q) : (x >>= f) p = (x >>= g) p := by
  cases hx : x p with
  | error e q => rw [bind_of_error hx, bind_of_error hx]
  | ok a q => rw [bind_of_ok hx, bind_of_ok hx, h a q hx]

theorem pure_eq_ok {a b : α} : (pure a : Parse α) p = .ok b p' ↔ b = a ∧ p' = p := by
  change EStateM.Result.ok a p = _ ↔ _
  simp [eq_comm]

theorem map_eq_ok {x : Parse α} {f : α → β} {b : β} :
    (f <$> x) p = .ok b p' ↔ ∃ a, x p = .ok a p' ∧ b = f a := by
  change EStateM.map f x p = _ ↔ _
  unfold EStateM.map
  cases x p <;> simp [eq_comm, and_comm]

theorem throw_ne_ok {e : ParseError} {b : α} : (throw e : Parse α) p ≠ .ok b p' := by
  change EStateM.Result.error e p ≠ _
  simp

theorem current_eq_ok {t : Token} : current p = .ok t p' ↔ t = p.cursor.here ∧ p' = p := by
  simp [current, eq_comm]

theorem current_bind {f : Token → Parse α} : (current >>= f) p = f p.cursor.here p := rfl

theorem peek_bind {f : Token → Parse α} : (peek >>= f) p = f p.cursor.peek p := rfl

theorem bump_bind {f : Unit → Parse α} : (bump >>= f) p = f () p.onward := rfl

theorem remaining_bind {f : Nat → Parse α} :
    (remaining >>= f) p = f p.cursor.ahead.length p := rfl

theorem peek_eq_ok {t : Token} : peek p = .ok t p' ↔ t = p.cursor.peek ∧ p' = p := by
  simp [peek, eq_comm]

theorem bump_eq_ok : bump p = .ok a p' ↔ p' = p.onward := by
  simp [bump, onward, eq_comm]

theorem remaining_eq_ok : remaining p = .ok n p' ↔ n = p.cursor.ahead.length ∧ p' = p := by
  simp [remaining, eq_comm]

theorem enter_eq_ok : enter p = .ok a p' ↔ p' = p.within := by
  simp [enter, within, eq_comm]

theorem leave_eq_ok : leave p = .ok a p' ↔ p' = p.out := by
  simp [leave, out, eq_comm]

theorem checkAdjacent_eq_ok : checkAdjacent p = .ok a p' ↔ p.Admits ∧ p' = p := by
  unfold checkAdjacent Admits
  cases p.deferred with
  | some e => simp
  | none => cases p.cursor.here.kind.mayPrecede p.cursor.peek.kind <;> simp [eq_comm]

theorem expect_eq_ok {k : Kind} :
    expect k p = .ok a p' ↔ p.cursor.peek.kind = k ∧ p' = p.onward := by
  unfold expect onward
  split <;> simp_all [eq_comm]

theorem checkHeight_eq_ok : checkHeight o t p = .ok a p' ↔ t.height ≤ o.maxDepth ∧ p' = p := by
  unfold checkHeight
  split <;> rename_i h
  · simp [throw_ne_ok, h]
  · simp [pure_eq_ok, Nat.not_lt.mp h]

theorem refuseEmptyGroup_eq_ok :
    refuseEmptyGroup p = .ok a p' ↔ p.cursor.peek.kind ≠ .closeParen ∧ p' = p := by
  unfold refuseEmptyGroup
  split <;> simp_all [eq_comm]

theorem refuseFinish_eq_ok :
    refuseFinish p = .ok a p' ↔ p.cursor.peek.kind ≠ .finish ∧ p' = p := by
  unfold refuseFinish
  split <;> simp_all [eq_comm]

theorem refuseRest_eq_ok : refuseRest p = .ok a p' ↔
    (p.deferred = none → p.cursor.peek.kind = .finish) ∧ p' = p := by
  unfold refuseRest
  split <;> simp_all [eq_comm]

theorem countGroup_eq_ok {inner : Token} :
    countGroup inner p = .ok n p' ↔ n = p.groupsAround inner + 1 ∧ p' = p.grouped inner := by
  have h : countGroup inner p = .ok (p.groupsAround inner + 1) (p.grouped inner) := by
    unfold countGroup grouped groupsAround
    cases p.lastGroup with
    | none => rfl
    | some g => by_cases hg : g.1 = inner <;> simp [hg]
  simp [h, eq_comm]

theorem group_eq_ok :
    group x p = .ok t p' ↔ p.Admits ∧ p.cursor.peek.kind ≠ .closeParen ∧ ∃ u q,
      x p.onward = .ok u q ∧ q.cursor.peek.kind = .closeParen ∧
        p' = (q.grouped u.token).onward ∧ t = u.withBrackets (q.groupsAround u.token + 1) := by
  simp [group, bind_eq_ok, checkAdjacent_eq_ok, refuseEmptyGroup_eq_ok, countGroup_eq_ok,
    expect_eq_ok, bump_eq_ok, map_eq_ok, and_assoc]

theorem unary_eq_ok {op : Operator} :
    unary op x p = .ok t p' ↔ p.onward.Admits ∧ ∃ r, x p.onward = .ok r p' ∧
      t = .unary p.cursor.here 0 op r := by
  simp [unary, bind_eq_ok, checkAdjacent_eq_ok, bump_eq_ok, current_eq_ok, map_eq_ok, and_assoc]

theorem binary_eq_ok {op : Operator} :
    binary op sub t p = .ok u p' ↔ p.Admits ∧ ∃ r,
      sub p.cursor.here.kind.precedence p.onward = .ok r p' ∧
        u = .binary p.cursor.here 0 op t r := by
  simp [binary, bind_eq_ok, checkAdjacent_eq_ok, bump_eq_ok, current_eq_ok, map_eq_ok, and_assoc]

theorem number_of_leaf {a : Atom} (hk : p.cursor.here.kind = .numeric)
    (h : Leaf o p.cursor.here a) : number o p = .ok (.atom p.cursor.here 0 a) p := by
  unfold number
  cases h <;> simp_all

theorem number_cases (hk : p.cursor.here.kind = .numeric) (h : number o p = .ok t p')
    (hd : p'.deferred = none) :
    ∃ a, Leaf o p.cursor.here a ∧ t = .atom p.cursor.here 0 a ∧ p' = p := by
  unfold number at h
  dsimp only at h
  split at h
  · rename_i hv
    obtain ⟨rfl, rfl⟩ := (EStateM.Result.ok.injEq ..).mp h
    exact ⟨_, .delimited hk (by simpa using hv), rfl, rfl⟩
  · rename_i hv
    split at h
    · rename_i m hm
      obtain ⟨rfl, rfl⟩ := (EStateM.Result.ok.injEq ..).mp h
      exact ⟨_, .number hk (by simpa using hv) hm, rfl, rfl⟩
    · split at h
      · obtain ⟨-, rfl⟩ := (EStateM.Result.ok.injEq ..).mp h
        simp at hd
      · simp at h

theorem operand_of_leaf {a : Atom} (h : Leaf o p.cursor.here a) :
    operand o sub p = .ok (.atom p.cursor.here 0 a) p := by
  rw [operand, current_bind]
  by_cases hk : p.cursor.here.kind = .numeric
  · rw [hk]
    exact number_of_leaf hk h
  · cases h <;> first | exact absurd ‹_› hk | simp [*, pure_eq_ok]

theorem operand_of_openParen (h : p.cursor.here.kind = .openParen) :
    operand o sub p = group (sub .lowest) p := by
  rw [operand, current_bind, h]

theorem operand_of_unary {op : Operator} (ho : op = .minus ∨ op = .bang)
    (h : p.cursor.here.kind = op.kind) : operand o sub p = unary op (sub .unary) p := by
  rw [operand, current_bind, h]
  obtain rfl | rfl := ho <;> rfl

theorem operand_cases (h : operand o sub p = .ok t p') (hd : p'.deferred = none) :
    (∃ a, Leaf o p.cursor.here a ∧ t = .atom p.cursor.here 0 a ∧ p' = p) ∨
      (p.cursor.here.kind = .openParen ∧ group (sub .lowest) p = .ok t p') ∨
        ∃ op, (op = .minus ∨ op = .bang) ∧ p.cursor.here.kind = op.kind ∧
          unary op (sub .unary) p = .ok t p' := by
  rw [operand, current_bind] at h
  cases hk : p.cursor.here.kind <;> rw [hk] at h
  case ident => exact .inl ⟨_, .identifier hk, pure_eq_ok.mp h⟩
  case string => exact .inl ⟨_, .string hk, pure_eq_ok.mp h⟩
  case trueWord => exact .inl ⟨_, .trueWord hk, pure_eq_ok.mp h⟩
  case falseWord => exact .inl ⟨_, .falseWord hk, pure_eq_ok.mp h⟩
  case numeric => exact .inl (number_cases hk h hd)
  case openParen => exact .inr (.inl ⟨rfl, h⟩)
  case bang => exact .inr (.inr ⟨.bang, .inr rfl, rfl, h⟩)
  case minus => exact .inr (.inr ⟨.minus, .inl rfl, rfl, h⟩)
  all_goals exact absurd h throw_ne_ok

theorem moreArguments_zero_eq_ok : moreArguments x 0 p = .ok xs p' ↔ xs = [] ∧ p' = p := by
  simp [moreArguments, pure_eq_ok]

theorem moreArguments_succ_eq_ok :
    moreArguments x (n + 1) p = .ok xs p' ↔
      if p.cursor.peek.kind = .comma then
        ∃ t q ts, x p.onward.onward = .ok t q ∧ moreArguments x n q = .ok ts p' ∧ xs = t :: ts
      else xs = [] ∧ p' = p := by
  simp only [moreArguments, bind_eq_ok, peek_eq_ok]
  split <;> simp [*, bind_eq_ok, bump_eq_ok, pure_eq_ok, map_eq_ok]

theorem arguments_eq_ok :
    arguments x p = .ok xs p' ↔
      if p.cursor.peek.kind = .closeParen then p.onward.Admits ∧ p' = p.onward ∧ xs = []
      else ∃ t q ts r, x p.onward = .ok t q ∧ moreArguments x q.cursor.ahead.length q = .ok ts r ∧
        r.cursor.peek.kind = .closeParen ∧ r.onward.Admits ∧ p' = r.onward ∧ xs = t :: ts := by
  simp only [arguments, bind_eq_ok, peek_eq_ok]
  split <;> simp [*, bind_eq_ok, bump_eq_ok, checkAdjacent_eq_ok, expect_eq_ok,
    remaining_eq_ok, map_eq_ok, and_assoc]

theorem call_eq_ok :
    call x t p = .ok u p' ↔ p.Admits ∧ ∃ xs, arguments x p = .ok xs p' ∧
      u = .call p.cursor.here 0 (.atom t.token 0 (.function (calleeName t))) xs := by
  simp [call, bind_eq_ok, checkAdjacent_eq_ok, current_eq_ok, map_eq_ok, and_assoc]

theorem chain_zero_eq_ok : chain o sub min 0 t p = .ok u p' ↔ u = t ∧ p' = p := by
  simp [chain, pure_eq_ok]

def following? (p : Parser) (min : Precedence) : Option Continuation :=
  if p.deferred = none ∧ min < p.cursor.peek.kind.precedence then
    Continuation.ofKind? p.cursor.peek.kind
  else none

theorem following_eq_ok {c : Option Continuation} :
    following min p = .ok c p' ↔ c = p.following? min ∧ p' = p := by
  simp [following, following?, eq_comm]

theorem following_bind {f : Option Continuation → Parse α} :
    (following min >>= f) p = f (p.following? min) p := rfl

theorem chain_succ_of_none (h : p.following? min = none) :
    chain o sub min (n + 1) t p = .ok u p' ↔ u = t ∧ p' = p := by
  simp [chain, bind_eq_ok, following_eq_ok, h, pure_eq_ok]

theorem chain_succ_of_some {c : Continuation} (h : p.following? min = some c) :
    chain o sub min (n + 1) t p = .ok u p' ↔ p.onward.cursor.peek.kind ≠ .finish ∧ ∃ v q,
      extend sub t c p.onward = .ok v q ∧ v.height ≤ o.maxDepth ∧
        chain o sub min n v q = .ok u p' := by
  simp [chain, bind_eq_ok, following_eq_ok, h, bump_eq_ok, refuseFinish_eq_ok, checkHeight_eq_ok,
    and_assoc]

theorem expression_zero_ne_ok : expression o 0 min p ≠ .ok t p' := by
  simp [expression, tooDeep, bind_eq_ok, throw_ne_ok]

theorem expression_succ_eq_ok :
    expression o (n + 1) min p = .ok t p' ↔ p.Admits ∧ ∃ u q r,
      operand o (expression o n) p.within = .ok u q ∧ u.height ≤ o.maxDepth ∧
        chain o (expression o n) min q.cursor.ahead.length u q = .ok t r ∧ p' = r.out := by
  simp [expression, bind_eq_ok, checkAdjacent_eq_ok, checkHeight_eq_ok, enter_eq_ok, leave_eq_ok,
    remaining_eq_ok, map_eq_ok, and_assoc]

theorem parse_eq_ok :
    parse o p = .ok t p' ↔ expression o (o.maxDepth - p.depth) .lowest p = .ok t p' ∧
      (p'.deferred = none → p'.cursor.peek.kind = .finish) := by
  have hg {b q : Parser} : (get : Parse Parser) p = .ok b q ↔ b = p ∧ q = p := by
    change EStateM.Result.ok p p = _ ↔ _
    simp [eq_comm]
  simp [parse, bind_eq_ok, hg, refuseRest_eq_ok, map_eq_ok]

end RuleLang.Parser
