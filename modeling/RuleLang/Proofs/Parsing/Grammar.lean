import Mathlib.Data.List.Chain
import RuleLang.Proofs.Parsing.Reading
import RuleLang.Tree.Parser

namespace RuleLang

inductive Leaf (o : ParseOptions) (t : Token) : Atom → Prop
  | identifier (h : t.kind = .ident) : Leaf o t (.identifier t.literal)
  | string (h : t.kind = .string) : Leaf o t (.string (Text.unwrap '\'' t.literal))
  | trueWord (h : t.kind = .trueWord) : Leaf o t (.boolean true)
  | falseWord (h : t.kind = .falseWord) : Leaf o t (.boolean false)
  | delimited (h : t.kind = .numeric)
      (hd : t.delimited = true ∨ Text.wrappedIn o.boundary t.literal = true) :
      Leaf o t (.number none)
  | number {n : Numeral} (h : t.kind = .numeric)
      (hd : ¬ (t.delimited = true ∨ Text.wrappedIn o.boundary t.literal = true))
      (hn : Numeral.leading? t.literal = some n) :
      Leaf o t (.number (some (.ofDecimal n.value)))

def Kind.callees : List Kind :=
  [.ident, .trueWord, .falseWord]

mutual

/-- The tokens are those of the tree in order, with as many pairs of parentheses around each node
as it has brackets. -/
inductive Spells (o : ParseOptions) : List Token → Tree → Prop
  | leaf {t : Token} {a : Atom} (h : Leaf o t a) : Spells o [t] (.atom t 0 a)
  | group {opening closing : Token} {ts : List Token} {t : Tree} (ho : opening.kind = .openParen)
      (hc : closing.kind = .closeParen) (h : Spells o ts t) :
      Spells o (opening :: (ts ++ [closing])) (t.withBrackets (t.brackets + 1))
  | unary {t : Token} {op : Operator} {ts : List Token} {r : Tree} (ho : op = .minus ∨ op = .bang)
      (hk : t.kind = op.kind) (h : Spells o ts r) : Spells o (t :: ts) (.unary t 0 op r)
  | binary {t : Token} {op : Operator} {ls rs : List Token} {l r : Tree} (ho : op ≠ .bang)
      (hk : t.kind = op.kind) (hl : Spells o ls l) (hr : Spells o rs r) :
      Spells o (ls ++ t :: rs) (.binary t 0 op l r)
  | call {callee opening closing : Token} {ts : List Token} {xs : List Tree}
      (hf : callee.kind ∈ Kind.callees) (ho : opening.kind = .openParen)
      (hc : closing.kind = .closeParen) (h : SpellsAll o ts xs) :
      Spells o (callee :: opening :: (ts ++ [closing]))
        (.call opening 0 (.atom callee 0 (.function callee.literal)) xs)

inductive SpellsAll (o : ParseOptions) : List Token → List Tree → Prop
  | none : SpellsAll o [] []
  | one {ts : List Token} {t : Tree} (h : Spells o ts t) : SpellsAll o ts [t]
  | more {ts us : List Token} {comma : Token} {t u : Tree} {xs : List Tree} (h : Spells o ts t)
      (hc : comma.kind = .comma) (hs : SpellsAll o us (u :: xs)) :
      SpellsAll o (ts ++ comma :: us) (t :: u :: xs)

end

def Operator.precedence (op : Operator) : Precedence :=
  op.kind.precedence

theorem Operator.precedence_lt_unary (op : Operator) : op.precedence < .unary := by
  cases op <;> decide

namespace Tree

def exposed? : Tree → Option Precedence
  | .binary _ 0 op _ _ => some op.precedence
  | _ => none

def openEnd? : Tree → Option Precedence
  | .unary _ 0 _ _ => some .unary
  | .binary _ 0 op _ _ => some op.precedence
  | _ => none

mutual

def Ranked : Tree → Prop
  | .atom _ _ _ => True
  | .unary _ _ _ r => r.exposed? = none ∧ r.Ranked
  | .binary _ _ op l r =>
      ((∀ e ∈ l.exposed?, op.precedence ≤ e) ∧ l.Ranked) ∧
        ((∀ e ∈ r.exposed?, op.precedence < e) ∧ r.Ranked)
  | .call _ _ _ xs => ListRanked xs

def ListRanked : List Tree → Prop
  | [] => True
  | t :: ts => t.Ranked ∧ ListRanked ts

end

mutual

/-- How many expressions are begun and not completed when the innermost one is. -/
def nesting : Tree → Nat
  | .atom _ n _ => n + 1
  | .unary _ n _ r => n + (1 + r.nesting)
  | .binary _ n _ l r => n + max l.nesting (1 + r.nesting)
  | .call _ n _ xs => n + (1 + greatestNesting xs)

def greatestNesting : List Tree → Nat
  | [] => 0
  | t :: ts => max t.nesting (greatestNesting ts)

end

variable {t : Tree} {n : Nat} {e : Precedence}

theorem nesting_pos (t : Tree) : 0 < t.nesting := by
  cases t <;> simp only [nesting] <;> omega

theorem openEnd_of_exposed (h : e ∈ t.exposed?) : e ∈ t.openEnd? := by
  unfold exposed? at h
  split at h
  · exact h
  · exact absurd h (by simp)

theorem exposed_or_unary (h : e ∈ t.openEnd?) : e ∈ t.exposed? ∨ e = .unary := by
  unfold openEnd? at h
  split at h
  · obtain rfl : Precedence.unary = e := by simpa using h
    exact .inr rfl
  · exact .inl h
  · exact absurd h (by simp)

theorem le_openEnd {p : Precedence} (hx : ∀ e ∈ t.exposed?, p ≤ e) (hu : p ≤ .unary) :
    ∀ e ∈ t.openEnd?, p ≤ e := by
  intro e he
  obtain he | rfl := exposed_or_unary he
  · exact hx e he
  · exact hu

theorem exposed_lt_unary (h : e ∈ t.exposed?) : e < .unary := by
  unfold exposed? at h
  split at h
  · rename_i op _ _
    obtain rfl : op.precedence = e := by simpa using h
    exact op.precedence_lt_unary
  · exact absurd h (by simp)

@[simp]
theorem exposed?_withBrackets_succ : (t.withBrackets (n + 1)).exposed? = none := by
  cases t <;> rfl

@[simp]
theorem openEnd?_withBrackets_succ : (t.withBrackets (n + 1)).openEnd? = none := by
  cases t <;> rfl

@[simp]
theorem ranked_withBrackets : (t.withBrackets n).Ranked ↔ t.Ranked := by
  cases t <;> simp [withBrackets, Ranked]

@[simp]
theorem nesting_withBrackets_succ :
    (t.withBrackets (t.brackets + 1)).nesting = t.nesting + 1 := by
  cases t <;> simp [withBrackets, brackets, nesting] <;> omega

end Tree

namespace Token

def Adjacent (ts : List Token) : Prop :=
  ts.IsChain fun t u => t.kind.mayPrecede u.kind = true

def Uncurried (ts : List Token) : Prop :=
  ts.IsChain fun t u => ¬ (t.kind = .closeParen ∧ u.kind = .openParen)

instance (ts : List Token) : Decidable (Uncurried ts) :=
  inferInstanceAs (Decidable (ts.IsChain _))

def body (ts : List Token) : List Token :=
  ts.takeWhile fun t => t.kind ≠ .finish

namespace Adjacent

variable {ts us : List Token} {t u : Token}

theorem append_cons (h : Adjacent (ts ++ [t])) (h' : Adjacent (t :: us)) :
    Adjacent (ts ++ t :: us) :=
  List.isChain_split.mpr ⟨h, h'⟩

theorem cons_reads {c d : Cursor} (h : t.kind.mayPrecede c.here.kind = true) (hr : c.Reads ts d)
    (ht : Adjacent (ts ++ us)) : Adjacent (t :: (ts ++ us)) := by
  cases hr <;> exact List.isChain_cons_cons.mpr ⟨h, ht⟩

theorem first {c d : Cursor} (hr : c.Reads ts d) (h : Adjacent (ts ++ [d.peek])) :
    c.here.kind.mayPrecede c.peek.kind = true := by
  cases hr with
  | here => exact (List.isChain_cons_cons.mp h).1
  | on hc hr =>
      rw [← Cursor.bump_here hc]
      cases hr <;> exact (List.isChain_cons_cons.mp h).1

theorem tail (h : Adjacent (t :: ts)) : Adjacent ts :=
  List.IsChain.tail h

theorem split (h : Adjacent (ts ++ t :: us)) : Adjacent (ts ++ [t]) ∧ Adjacent (t :: us) :=
  List.isChain_split.mp h

theorem last_congr (hk : t.kind = u.kind) (h : Adjacent (ts ++ [t])) : Adjacent (ts ++ [u]) := by
  obtain ⟨hts, -, ht⟩ := List.isChain_append.mp h
  refine List.isChain_append.mpr ⟨hts, List.isChain_singleton u, ?_⟩
  intro x hx y hy
  obtain rfl : u = y := by simpa using hy
  exact hk ▸ ht x hx t rfl

end Adjacent

end Token

variable {o : ParseOptions} {ts : List Token} {t : Tree} {xs : List Tree}

theorem Leaf.kind_mem {u : Token} {a : Atom} (h : Leaf o u a) :
    u.kind ∈ [Kind.ident, .string, .trueWord, .falseWord, .numeric] := by
  cases h <;> simp [*]

theorem Leaf.calleeName_eq {u : Token} {a : Atom} {n : Nat} (h : Leaf o u a) :
    Parser.calleeName (.atom u n a) = u.literal := by
  cases h <;> rfl

theorem exists_leaf_of_callee (o : ParseOptions) {u : Token} (h : u.kind ∈ Kind.callees) :
    ∃ a, Leaf o u a := by
  simp only [Kind.callees, List.mem_cons, List.not_mem_nil, or_false] at h
  obtain h | h | h := h
  · exact ⟨_, .identifier h⟩
  · exact ⟨_, .trueWord h⟩
  · exact ⟨_, .falseWord h⟩

theorem Operator.kind_ne_finish (op : Operator) : op.kind ≠ .finish := by
  cases op <;> decide

namespace Spells

theorem ne_nil (h : Spells o ts t) : ts ≠ [] := by
  cases h <;> simp

-- Induction through the operands of operators, but not into calls.
theorem operand_induction {motive : ∀ (ts : List Token) (t : Tree), Spells o ts t → Prop}
    (leaf : ∀ {u : Token} {a : Atom} (h : Leaf o u a), motive [u] (.atom u 0 a) (.leaf h))
    (group : ∀ {u v : Token} {ts : List Token} {t : Tree} (ho : u.kind = .openParen)
      (hc : v.kind = .closeParen) (h : Spells o ts t), motive ts t h →
        motive _ _ (.group ho hc h))
    (unary : ∀ {u : Token} {op : Operator} {ts : List Token} {r : Tree}
      (ho : op = .minus ∨ op = .bang) (hk : u.kind = op.kind) (h : Spells o ts r),
        motive ts r h → motive _ _ (.unary ho hk h))
    (binary : ∀ {u : Token} {op : Operator} {ls rs : List Token} {l r : Tree} (ho : op ≠ .bang)
      (hk : u.kind = op.kind) (hl : Spells o ls l) (hr : Spells o rs r), motive ls l hl →
        motive rs r hr → motive _ _ (.binary ho hk hl hr))
    (call : ∀ {f u v : Token} {ts : List Token} {xs : List Tree} (hf : f.kind ∈ Kind.callees)
      (ho : u.kind = .openParen) (hc : v.kind = .closeParen) (h : SpellsAll o ts xs),
        motive _ _ (.call hf ho hc h)) :
    ∀ {ts : List Token} {t : Tree} (h : Spells o ts t), motive ts t h
  | _, _, .leaf h => leaf h
  | _, _, .group ho hc h => group ho hc h (operand_induction leaf group unary binary call h)
  | _, _, .unary ho hk h => unary ho hk h (operand_induction leaf group unary binary call h)
  | _, _, .binary ho hk hl hr =>
      binary ho hk hl hr (operand_induction leaf group unary binary call hl)
        (operand_induction leaf group unary binary call hr)
  | _, _, .call hf ho hc h => call hf ho hc h

theorem token_mem (h : Spells o ts t) : t.token ∈ ts := by
  induction h using operand_induction with
  | leaf h => simp [Tree.token]
  | group ho hc h ih => simp [ih]
  | unary ho hk h ih => simp [Tree.token]
  | binary ho hk hl hr ihl ihr => simp [Tree.token]
  | call hf ho hc h => simp [Tree.token]

theorem lowest_lt {e : Precedence} (h : Spells o ts t) (he : e ∈ t.exposed?) : .lowest < e := by
  cases h with
  | @binary _ op _ _ _ _ ho =>
      obtain rfl : op.precedence = e := by simpa [Tree.exposed?] using he
      cases op <;> first | decide | exact absurd rfl ho
  | group => simp at he
  | leaf => simp [Tree.exposed?] at he
  | unary => simp [Tree.exposed?] at he
  | call => simp [Tree.exposed?] at he

theorem leaf_or_closed (h : Spells o ts t) (ht : t.openEnd? = none) :
    (∃ u a, Leaf o u a ∧ ts = [u] ∧ t = .atom u 0 a) ∨
      ∃ us u, ts = us ++ [u] ∧ u.kind = .closeParen := by
  cases h with
  | leaf h => exact .inl ⟨_, _, h, rfl, rfl⟩
  | @group opening closing us u ho hc h => exact .inr ⟨opening :: us, closing, rfl, hc⟩
  | unary ho hk h => simp [Tree.openEnd?] at ht
  | binary ho hk hl hr => simp [Tree.openEnd?] at ht
  | @call callee opening closing us xs hf ho hc h =>
      exact .inr ⟨callee :: opening :: us, closing, rfl, hc⟩

end Spells

-- Induction on the arguments of a call, of which there is at least one.
theorem SpellsAll.argument_induction
    {motive : ∀ (ts : List Token) (t : Tree) (xs : List Tree), SpellsAll o ts (t :: xs) → Prop}
    (one : ∀ {ts : List Token} {t : Tree} (h : Spells o ts t), motive ts t [] (.one h))
    (more : ∀ {ts us : List Token} {v : Token} {t u : Tree} {xs : List Tree} (h : Spells o ts t)
      (hc : v.kind = .comma) (hs : SpellsAll o us (u :: xs)), motive us u xs hs →
        motive _ _ _ (.more h hc hs)) :
    ∀ {ts : List Token} {t : Tree} {xs : List Tree} (h : SpellsAll o ts (t :: xs)),
      motive ts t xs h
  | _, _, _, .one h => one h
  | _, _, _, .more h hc hs => more h hc hs (argument_induction one more hs)

theorem SpellsAll.ne_nil (h : SpellsAll o ts (t :: xs)) : ts ≠ [] := by
  cases h with
  | one h => exact h.ne_nil
  | more h hc hs => simp

mutual

theorem Spells.kind_ne_finish {ts : List Token} {t : Tree} :
    Spells o ts t → ∀ u ∈ ts, u.kind ≠ .finish
  | .leaf h, u, hu => by
      obtain rfl := List.mem_singleton.mp hu
      intro hk
      simpa [hk] using h.kind_mem
  | .group ho hc h, u, hu => by
      simp only [List.mem_cons, List.mem_append, List.not_mem_nil, or_false] at hu
      obtain rfl | hu | rfl := hu
      · simp [ho]
      · exact h.kind_ne_finish u hu
      · simp [hc]
  | @Spells.unary _ _ op _ _ ho hk h, u, hu => by
      obtain rfl | hu := List.mem_cons.mp hu
      · exact hk ▸ op.kind_ne_finish
      · exact h.kind_ne_finish u hu
  | @Spells.binary _ _ op _ _ _ _ ho hk hl hr, u, hu => by
      simp only [List.mem_cons, List.mem_append] at hu
      obtain hu | rfl | hu := hu
      · exact hl.kind_ne_finish u hu
      · exact hk ▸ op.kind_ne_finish
      · exact hr.kind_ne_finish u hu
  | .call hf ho hc h, u, hu => by
      simp only [List.mem_cons, List.mem_append, List.not_mem_nil, or_false] at hu
      obtain rfl | rfl | hu | rfl := hu
      · intro hk
        simp [hk, Kind.callees] at hf
      · simp [ho]
      · exact h.kind_ne_finish u hu
      · simp [hc]

theorem SpellsAll.kind_ne_finish {ts : List Token} {xs : List Tree} :
    SpellsAll o ts xs → ∀ u ∈ ts, u.kind ≠ .finish
  | .none, u, hu => absurd hu List.not_mem_nil
  | .one h, u, hu => h.kind_ne_finish u hu
  | .more h hc hs, u, hu => by
      simp only [List.mem_cons, List.mem_append] at hu
      obtain hu | rfl | hu := hu
      · exact h.kind_ne_finish u hu
      · simp [hc]
      · exact hs.kind_ne_finish u hu

end

mutual

theorem Spells.size_le_length {ts : List Token} {t : Tree} :
    Spells o ts t → t.height ≤ ts.length ∧ t.nesting ≤ ts.length
  | .leaf h => by simp [Tree.height, Tree.nesting]
  | .group ho hc h => by
      have ih := h.size_le_length
      simp only [Tree.height_withBrackets, Tree.nesting_withBrackets_succ, List.length_cons,
        List.length_append, List.length_nil]
      omega
  | .unary ho hk h => by
      have ih := h.size_le_length
      simp only [Tree.height, Tree.nesting, List.length_cons]
      omega
  | .binary ho hk hl hr => by
      have ihl := hl.size_le_length
      have ihr := hr.size_le_length
      simp only [Tree.height, Tree.nesting, List.length_cons, List.length_append]
      omega
  | .call hf ho hc h => by
      have ih := h.size_le_length
      simp only [Tree.height, Tree.nesting, List.length_cons, List.length_append, List.length_nil]
      omega

theorem SpellsAll.size_le_length {ts : List Token} {xs : List Tree} :
    SpellsAll o ts xs → Tree.greatestHeight xs ≤ ts.length ∧ Tree.greatestNesting xs ≤ ts.length
  | .none => by simp [Tree.greatestHeight, Tree.greatestNesting]
  | .one h => by
      have ih := h.size_le_length
      simp only [Tree.greatestHeight, Tree.greatestNesting]
      omega
  | .more h hc hs => by
      have ih := h.size_le_length
      have ihs := hs.size_le_length
      simp only [Tree.greatestHeight, Tree.greatestNesting, List.length_cons,
        List.length_append] at ihs ⊢
      omega

end

end RuleLang
