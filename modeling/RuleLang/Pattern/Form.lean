import RuleLang.Pattern.Basic

namespace RuleLang.Pattern

/-- A pattern without detours: nothing empty in a sequence, no sequence in a sequence, no
alternatives in alternatives, and neighbouring characters taken together. -/
inductive Form where
  | empty
  | start
  | finish
  | literal (t : Text)
  | set (r : Ranges)
  | group (body : Form)
  | sequence (parts : List Form)
  | either (options : List Form)
  | repeated (body : Form) (count : Count) (greedy : Bool)
  deriving Repr

namespace Form

mutual

def onlyEmpty : Form → Bool
  | .empty | .start | .finish => true
  | .literal _ | .set _ => false
  | .group f => f.onlyEmpty
  | .sequence fs | .either fs => allOnlyEmpty fs
  | .repeated f count _ => f.onlyEmpty && count.most.isSome

def allOnlyEmpty : List Form → Bool
  | [] => true
  | f :: fs => f.onlyEmpty && allOnlyEmpty fs

end

mutual

def leastLength? : Form → Option Nat
  | .empty | .start | .finish => some 0
  | .literal t => some t.length
  | .set r => if r.list.isEmpty then none else some 1
  | .group f => f.leastLength?
  | .sequence fs => leastLengthInTurn? fs
  | .either fs => leastLengthOfAny? fs
  | .repeated f count _ => f.leastLength?.map (· * count.least)

def leastLengthInTurn? : List Form → Option Nat
  | [] => some 0
  | f :: fs => do return (← f.leastLength?) + (← leastLengthInTurn? fs)

def leastLengthOfAny? : List Form → Option Nat
  | [] => none
  | [f] => f.leastLength?
  | f :: fs => do return min (← f.leastLength?) (← leastLengthOfAny? fs)

end

def neverEmpty (f : Form) : Bool :=
  f.leastLength?.any (0 < ·)

mutual

/-- The two are the same and hold no numbered group: two of those never have one number. -/
def same : Form → Form → Bool
  | .empty, .empty | .start, .start | .finish, .finish => true
  | .literal t, .literal u => t = u
  | .set r, .set s => r = s
  | .sequence fs, .sequence gs | .either fs, .either gs => allSame fs gs
  | .repeated f m b, .repeated g n c => same f g && m = n && b = c
  | _, _ => false

def allSame : List Form → List Form → Bool
  | [], [] => true
  | f :: fs, g :: gs => same f g && allSame fs gs
  | _, _ => false

end

def ofRanges (r : Ranges) : Form :=
  match r.list with
  | [(a, b)] => if a = b ∧ a.isValidChar then .literal [Char.ofNat a] else .set r
  | _ => .set r

def before : Form → List Form → List Form
  | .empty, fs => fs
  | .literal t, .literal u :: fs => .literal (t ++ u) :: fs
  | .sequence gs, fs =>
      match gs.getLast?, fs with
      | some (.literal t), .literal u :: fs => gs.dropLast ++ .literal (t ++ u) :: fs
      | _, fs => gs ++ fs
  | f, fs => f :: fs

def inTurn (fs : List Form) : Form :=
  match fs.foldr before [] with
  | [] => .empty
  | [f] => f
  | fs => .sequence fs

def characters? : List Form → Option Ranges
  | [] => some (.ofList [])
  | .literal [c] :: fs => (characters? fs).map (Ranges.add (c.toNat, c.toNat))
  | _ => none

def sets? : List Form → Option Ranges
  | [] => some (.ofList [])
  | .set r :: fs => (sets? fs).map (Ranges.union r)
  | _ => none

def options : Form → List Form
  | .either fs => fs
  | f => [f]

def anyApart (fs : List Form) : Form :=
  match fs.flatMap options with
  | [f] => f
  | fs =>
      match (characters? fs).or (sets? fs) with
      | some r => ofRanges r
      | none => .either fs

def common : List Form → List Form → Nat
  | f :: fs, g :: gs => if same f g then 1 + common fs gs else 0
  | _, _ => 0

def parts? : Form → Option (List Form)
  | .sequence fs => some fs
  | _ => none

def anyOf (fs : List Form) : Form :=
  match anyApart fs with
  | .either options =>
      match options.mapM parts? with
      | some (first :: others) =>
          let n := others.foldl (fun n gs => min n (common first gs)) first.length
          if n = 0 then .either options
          else inTurn (first.take n ++ [anyApart ((first :: others).map fun gs => inTurn (gs.drop n))])
      | _ => .either options
  | f => f

/-- What matches nothing but the empty text is not repeated more than once. -/
def times (f : Form) (count : Count) (greedy : Bool) : Form :=
  let count := if f.onlyEmpty then count.once else count
  match count.least, count.most with
  | 0, some 0 => .empty
  | 1, some 1 => f
  | _, _ => .repeated f count greedy

end Form

mutual

def form : Pattern → Form
  | .empty => .empty
  | .start => .start
  | .finish => .finish
  | .any => .set anyRanges
  | .character c => .literal [c]
  | .set s => .ofRanges s.ranges
  | .group numbered p => if numbered then .group p.form else p.form
  | .sequence ps => .inTurn (formsOfParts ps)
  | .either ps => .anyOf (formsOfParts ps)
  | .repeated p count greedy => p.form.times count greedy

def formsOfParts : List Pattern → List Form
  | [] => []
  | p :: ps => p.form :: formsOfParts ps

end

end RuleLang.Pattern
