import RuleLang.Pattern.Reader
import RuleLang.Pattern.Size

namespace RuleLang.Pattern

/-- Which places of a text are marked: the one before its first character, and the one behind each
character. -/
abbrev Marks (n : Nat) := Vector Bool (n + 1)

namespace Marks

variable {n : Nat}

def all (n : Nat) : Marks n :=
  .ofFn fun _ => true

def union (s u : Marks n) : Marks n :=
  .ofFn fun i => s.get i || u.get i

def only (holds : Fin (n + 1) → Bool) (s : Marks n) : Marks n :=
  .ofFn fun i => s.get i && holds i

def advance (t : Vector Char n) (fits : Char → Bool) (s : Marks n) : Marks n :=
  .ofFn (Fin.cases false fun i => s.get i.castSucc && fits (t.get i))

def iterate (step : Marks n → Marks n) : Nat → Marks n → Marks n
  | 0, s => s
  | k + 1, s => if step s = s then s else iterate step k (step s)

def reach (step : Marks n → Marks n) : Nat → Marks n → Marks n
  | 0, s => s
  | k + 1, s => if s.union (step s) = s then s else reach step k (s.union (step s))

/-- No step leads back, so in a text of `n` characters `n` steps reach whatever any number does. -/
def repetition (step : Marks n → Marks n) (count : Count) (s : Marks n) : Marks n :=
  let further := match count.most with
    | none => n
    | some most => most - count.least
  reach step further (iterate step count.least s)

end Marks

section Ends

variable {n : Nat} (t : Vector Char n)

mutual

def ends : Pattern → Marks n → Marks n
  | .empty, s => s
  | .start, s => s.only (·.val = 0)
  | .finish, s => s.only (·.val = n)
  | .any, s => s.advance t anyRanges.contains
  | .character c, s => s.advance t (Ranges.single c).contains
  | .set c, s => s.advance t c.ranges.contains
  | .group _ p, s => ends p s
  | .sequence ps, s => endsOfParts ps s
  | .either ps, s => endsOfOptions ps s
  | .repeated p count _, s => s.repetition (ends p) count

def endsOfParts : List Pattern → Marks n → Marks n
  | [], s => s
  | p :: ps, s => endsOfParts ps (ends p s)

def endsOfOptions : List Pattern → Marks n → Marks n
  | [], s => s.only fun _ => false
  | p :: ps, s => (ends p s).union (endsOfOptions ps s)

end

end Ends

def occursIn (p : Pattern) (t : Text) : Bool :=
  (ends t.toArray.toVector p (.all _)).any id

def ofText? (t : Text) : Option Pattern := do
  let p ← read? t
  if p.small then return p else none

def compile? (t : Text) : Option (Text → Bool) :=
  (ofText? t).map occursIn

end RuleLang.Pattern
