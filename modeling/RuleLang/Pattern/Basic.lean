import RuleLang.Pattern.CharSet
import RuleLang.Text.Basic

namespace RuleLang

structure Pattern.Count where
  least : Nat
  most : Option Nat
  ordered : ∀ n ∈ most, least ≤ n
  deriving DecidableEq, Repr

inductive Pattern where
  | empty
  | start
  | finish
  /-- Any character but the end of a line. -/
  | any
  | character (c : Char)
  | set (s : Pattern.CharSet)
  | group (numbered : Bool) (body : Pattern)
  | sequence (parts : List Pattern)
  | either (options : List Pattern)
  | repeated (body : Pattern) (count : Pattern.Count) (greedy : Bool)
  deriving Repr

namespace Pattern

namespace Count

def exactly (n : Nat) : Count :=
  ⟨n, some n, by simp⟩

def atLeast (n : Nat) : Count :=
  ⟨n, none, nofun⟩

def atMostOnce : Count :=
  ⟨0, some 1, by simp⟩

def once (count : Count) : Count where
  least := min count.least 1
  most := some (min (count.most.getD 1) 1)
  ordered := by
    rintro _ ⟨rfl⟩
    cases h : count.most with
    | none => exact Nat.min_le_right _ _
    | some m =>
        have hleast : count.least ≤ m := count.ordered m h
        simp
        omega

def Allows (count : Count) (n : Nat) : Prop :=
  count.least ≤ n ∧ ∀ m ∈ count.most, n ≤ m

end Count

def anyRanges : Ranges :=
  (Ranges.single '\n').complement

def ofParts : List Pattern → Pattern
  | [] => .empty
  | [p] => p
  | parts => .sequence parts

def ofOptions : List Pattern → Pattern
  | [p] => p
  | options => .either options

mutual

def nesting : Pattern → Nat
  | .empty | .start | .finish | .any | .character _ => 0
  | .set s => s.nesting
  | .group _ p | .repeated p _ _ => 1 + p.nesting
  | .sequence ps | .either ps => 1 + nestingOfParts ps

def nestingOfParts : List Pattern → Nat
  | [] => 0
  | p :: ps => max p.nesting (nestingOfParts ps)

end

end Pattern

end RuleLang
