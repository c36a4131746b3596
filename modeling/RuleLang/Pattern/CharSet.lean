namespace RuleLang.Pattern

/-- Ranges from the given number on, lowest first and with a gap between any two. -/
inductive Apart : Nat → List (Nat × Nat) → Prop where
  | nil {n : Nat} : Apart n []
  | cons {n low high : Nat} {r : List (Nat × Nat)} (hn : n ≤ low) (h : low ≤ high)
      (hr : Apart (high + 2) r) : Apart n ((low, high) :: r)

def within (n : Nat) (r : List (Nat × Nat)) : Bool :=
  r.any fun (low, high) => low ≤ n && n ≤ high

def lastCodePoint : Nat := 0x10FFFF

/-- Adds a range, which swallows those it overlaps or touches. -/
def insertRange (low high : Nat) : List (Nat × Nat) → List (Nat × Nat)
  | [] => [(low, high)]
  | (a, b) :: r =>
      if high + 1 < a then (low, high) :: (a, b) :: r
      else if b + 1 < low then (a, b) :: insertRange low high r
      else insertRange (min low a) (max high b) r

def complementFrom (next : Nat) : List (Nat × Nat) → List (Nat × Nat)
  | [] => if next ≤ lastCodePoint then [(next, lastCodePoint)] else []
  | (a, b) :: r =>
      if next < a then (next, a - 1) :: complementFrom (b + 1) r else complementFrom (b + 1) r

section Lists

variable {n m low high : Nat} {r : List (Nat × Nat)}

theorem Apart.mono (hr : Apart n r) (hm : m ≤ n) : Apart m r := by
  cases hr with
  | nil => exact .nil
  | cons hn h hr => exact .cons (Nat.le_trans hm hn) h hr

theorem apart_insertRange (h : low ≤ high) (hn : n ≤ low) (hr : Apart n r) :
    Apart n (insertRange low high r) := by
  induction r generalizing n low high with
  | nil => exact .cons hn h .nil
  | cons x r ih =>
      cases hr with
      | @cons _ a b _ ha hab hr =>
          rw [insertRange]
          split
          · exact .cons hn h (.cons (by omega) hab hr)
          · split
            · exact .cons ha hab (ih h (by omega) hr)
            · exact ih (by omega) (by omega) (hr.mono (by omega))

theorem apart_complementFrom (hr : Apart n r) : Apart n (complementFrom n r) := by
  induction r generalizing n with
  | nil =>
      rw [complementFrom]
      split
      · exact .cons (Nat.le_refl n) (by assumption) .nil
      · exact .nil
  | cons x r ih =>
      cases hr with
      | @cons _ a b _ ha hab hr =>
          have hrest := ih (hr.mono (m := b + 1) (by omega))
          rw [complementFrom]
          split
          · exact .cons (Nat.le_refl n) (by omega) (hrest.mono (by omega))
          · exact hrest.mono (by omega)

end Lists

structure Ranges where
  list : List (Nat × Nat)
  apart : Apart 0 list
  deriving DecidableEq, Repr

namespace Ranges

def contains (r : Ranges) (c : Char) : Bool :=
  within c.toNat r.list

def add (range : Nat × Nat) (r : Ranges) : Ranges :=
  if h : range.1 ≤ range.2 then
    ⟨insertRange range.1 range.2 r.list, apart_insertRange h (Nat.zero_le _) r.apart⟩
  else r

def addAll (ranges : List (Nat × Nat)) (r : Ranges) : Ranges :=
  ranges.foldr add r

def ofList (ranges : List (Nat × Nat)) : Ranges :=
  addAll ranges ⟨[], .nil⟩

def single (c : Char) : Ranges :=
  ofList [(c.toNat, c.toNat)]

def union (r s : Ranges) : Ranges :=
  addAll s.list r

def complement (r : Ranges) : Ranges :=
  ⟨complementFrom 0 r.list, apart_complementFrom r.apart⟩

def intersection (r s : Ranges) : Ranges :=
  complement (union (complement r) (complement s))

def difference (r s : Ranges) : Ranges :=
  intersection r (complement s)

def symmetricDifference (r s : Ranges) : Ranges :=
  union (difference r s) (difference s r)

end Ranges

inductive Combination where
  | both
  | without
  | eitherAlone
  deriving DecidableEq, Repr

namespace Combination

def ofMark? : Char → Option Combination
  | '&' => some .both
  | '-' => some .without
  | '~' => some .eitherAlone
  | _ => none

def ranges : Combination → Ranges → Ranges → Ranges
  | .both => Ranges.intersection
  | .without => Ranges.difference
  | .eitherAlone => Ranges.symmetricDifference

def holds : Combination → Bool → Bool → Bool
  | .both, a, b => a && b
  | .without, a, b => a && !b
  | .eitherAlone, a, b => a != b

end Combination

inductive CharSet where
  | range (low high : Char)
  | named (negated : Bool) (ranges : Ranges)
  | union (items : List CharSet)
  | combined (how : Combination) (left right : CharSet)
  | bracketed (negated : Bool) (body : CharSet)
  deriving Repr

namespace CharSet

def ofItems : List CharSet → CharSet
  | [s] => s
  | items => .union items

mutual

def holds (c : Char) : CharSet → Bool
  | .range low high => low ≤ c && c ≤ high
  | .named negated r => r.contains c != negated
  | .union items => anyHolds c items
  | .combined how left right => how.holds (left.holds c) (right.holds c)
  | .bracketed negated body => body.holds c != negated

def anyHolds (c : Char) : List CharSet → Bool
  | [] => false
  | s :: items => s.holds c || anyHolds c items

end

def complementIf (negated : Bool) (r : Ranges) : Ranges :=
  if negated then r.complement else r

mutual

def ranges : CharSet → Ranges
  | .range low high => .ofList [(low.toNat, high.toNat)]
  | .named negated r => complementIf negated r
  | .union items => rangesOfItems items
  | .combined how left right => how.ranges left.ranges right.ranges
  | .bracketed negated body => complementIf negated body.ranges

def rangesOfItems : List CharSet → Ranges
  | [] => .ofList []
  | s :: items => s.ranges.union (rangesOfItems items)

end

mutual

def nesting : CharSet → Nat
  | .range _ _ | .named _ _ | .union [] => 0
  | .union items => 1 + nestingOfItems items
  | .combined _ left right => 1 + max left.nesting right.nesting
  | .bracketed _ body => 1 + body.nesting

def nestingOfItems : List CharSet → Nat
  | [] => 0
  | s :: items => max s.nesting (nestingOfItems items)

end

def named? (name : String) : Option Ranges :=
  Ranges.ofList <$>
    match name with
    | "alnum" => some [(0x30, 0x39), (0x41, 0x5A), (0x61, 0x7A)]
    | "alpha" => some [(0x41, 0x5A), (0x61, 0x7A)]
    | "ascii" => some [(0, 0x7F)]
    | "blank" => some [(0x9, 0x9), (0x20, 0x20)]
    | "cntrl" => some [(0, 0x1F), (0x7F, 0x7F)]
    | "digit" => some [(0x30, 0x39)]
    | "graph" => some [(0x21, 0x7E)]
    | "lower" => some [(0x61, 0x7A)]
    | "print" => some [(0x20, 0x7E)]
    | "punct" => some [(0x21, 0x2F), (0x3A, 0x40), (0x5B, 0x60), (0x7B, 0x7E)]
    | "space" => some [(0x9, 0xD), (0x20, 0x20)]
    | "upper" => some [(0x41, 0x5A)]
    | "word" => some [(0x30, 0x39), (0x41, 0x5A), (0x5F, 0x5F), (0x61, 0x7A)]
    | "xdigit" => some [(0x30, 0x39), (0x41, 0x46), (0x61, 0x66)]
    | _ => none

end CharSet

end RuleLang.Pattern
