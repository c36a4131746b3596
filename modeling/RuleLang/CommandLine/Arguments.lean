import RuleLang.Text.Basic

namespace RuleLang.CommandLine

structure Outcome where
  exitCode : Nat
  output : Text
  deriving DecidableEq, Repr

namespace Outcome

/-- Nothing is printed about arguments that make no sense, nor about a pattern or a catalog that
cannot be used. -/
def misuse : Outcome where
  exitCode := 2
  output := []

end Outcome

structure Input where
  expression : Text
  allowHan : Bool := false
  allowEmpty : Bool := false
  boundary : Char := '$'
  pattern : Option Text := none
  deriving DecidableEq, Repr

structure References where
  catalogPath : Option Text := none
  trustNames : Bool := false
  devicePresets : Bool := false
  deriving DecidableEq, Repr

inductive Request where
  | lex (input : Input)
  | parse (input : Input)
  | check (input : Input) (references : References)
  deriving DecidableEq, Repr

inductive Asked where
  | request (r : Request)
  | answered (o : Outcome)
  deriving DecidableEq, Repr

def longOption (name : String) : Text :=
  '-' :: '-' :: name.toList

def switchWord (name : String) (given : Bool) : List Text :=
  if given then [longOption name] else []

def valueWord (name : String) (value : Text) : Text :=
  longOption name ++ '=' :: value

def Input.words (i : Input) : List Text :=
  switchWord "allow-chinese" i.allowHan ++ switchWord "allow-empty-string" i.allowEmpty
    ++ valueWord "boundary" [i.boundary] :: i.pattern.toList.map (valueWord "ident-pattern")

def References.words (r : References) : List Text :=
  r.catalogPath.toList.map (valueWord "catalog") ++ switchWord "no-check-ident" r.trustNames
    ++ switchWord "device-presets" r.devicePresets

/-- Options first, each with its value attached, and the expression behind two hyphens, where it
can look like anything. -/
def Request.words : Request → List Text
  | .lex i => "lex".toList :: i.words ++ [['-', '-'], i.expression]
  | .parse i => "parse".toList :: i.words ++ [['-', '-'], i.expression]
  | .check i r => "check".toList :: (i.words ++ r.words) ++ [['-', '-'], i.expression]

inductive Command where
  | lex
  | parse
  | check
  deriving DecidableEq, Repr

def Command.ofName? (t : Text) : Option Command :=
  if t = "lex".toList then some .lex
  else if t = "parse".toList then some .parse
  else if t = "check".toList then some .check
  else none

inductive Refusal where
  | help
  | misuse
  deriving DecidableEq, Repr

structure Draft where
  expression : Option Text := none
  allowHan : Bool := false
  allowEmpty : Bool := false
  boundary : Option Char := none
  pattern : Option Text := none
  references : References := {}

namespace Draft

def setExpression (d : Draft) (t : Text) : Except Refusal Draft :=
  if d.expression.isSome then .error .misuse else .ok { d with expression := some t }

def request (d : Draft) (c : Command) : Except Refusal Request :=
  match d.expression with
  | none => .error .misuse
  | some expression =>
      let input : Input :=
        { expression
          allowHan := d.allowHan
          allowEmpty := d.allowEmpty
          boundary := d.boundary.getD '$'
          pattern := d.pattern }
      match c with
      | .lex => .ok (.lex input)
      | .parse => .ok (.parse input)
      | .check => .ok (.check input d.references)

end Draft

inductive Setting where
  | switch (set : Draft → Option Draft)
  | valued (set : Draft → Text → Option Draft)

namespace Setting

def allowHan : Setting :=
  .switch fun d => if d.allowHan then none else some { d with allowHan := true }

def allowEmpty : Setting :=
  .switch fun d => if d.allowEmpty then none else some { d with allowEmpty := true }

def boundary : Setting :=
  .valued fun d t =>
    match d.boundary, t with
    | none, [c] => some { d with boundary := some c }
    | _, _ => none

def pattern : Setting :=
  .valued fun d t => if d.pattern.isSome then none else some { d with pattern := some t }

def references (set : References → Option References) (d : Draft) : Option Draft :=
  (set d.references).map fun r => { d with references := r }

def catalog : Setting :=
  .valued fun d t => references (fun r =>
    if r.catalogPath.isSome || t.isEmpty then none else some { r with catalogPath := some t }) d

def trustNames : Setting :=
  .switch <| references fun r => if r.trustNames then none else some { r with trustNames := true }

def devicePresets : Setting :=
  .switch <| references fun r =>
    if r.devicePresets then none else some { r with devicePresets := true }

def common : List (Text × Setting) :=
  [("allow-chinese".toList, allowHan), ("allow-empty-string".toList, allowEmpty),
    ("boundary".toList, boundary), ("ident-pattern".toList, pattern)]

def forCheck : List (Text × Setting) :=
  [("catalog".toList, catalog), ("no-check-ident".toList, trustNames),
    ("device-presets".toList, devicePresets)]

def named? (c : Command) (name : Text) : Option Setting :=
  (if c = .check then common ++ forCheck else common).lookup name

def lettered? (c : Command) (letter : Char) : Option Setting :=
  if c = .check ∧ letter = 'c' then some catalog else none

end Setting

def looksLikeOption (t : Text) : Bool :=
  t.head? = some '-' && t != ['-']

def apply (setting : Setting) (attached : Option Text) (behind : List Text) (d : Draft) :
    Option (Draft × List Text) :=
  match setting, attached, behind with
  | .switch set, none, _ => (set d).map (·, behind)
  | .switch _, some _, _ => none
  | .valued set, some t, _ => (set d t).map (·, behind)
  | .valued set, none, t :: more => if looksLikeOption t then none else (set d t).map (·, more)
  | .valued _, none, [] => none

def splitName (t : Text) : Text × Option Text :=
  match t.dropWhile (· ≠ '=') with
  | _ :: value => (t.takeWhile (· ≠ '='), some value)
  | [] => (t, none)

def attachedValue : Text → Option Text
  | [] => none
  | '=' :: t => some t
  | t => some t

def orMisuse {α : Type} : Option α → Except Refusal α
  | some a => .ok a
  | none => .error .misuse

def expressions : List Text → Draft → Except Refusal Draft
  | [], d => .ok d
  | t :: ts, d => do expressions ts (← d.setExpression t)

/-- Goes through the words behind the command and stops at the first that asks for help or makes
no sense. Two hyphens alone make expressions of all words behind them. -/
def arguments (c : Command) : Nat → List Text → Draft → Except Refusal Draft
  | 0, _, _ => .error .misuse
  | _ + 1, [], d => .ok d
  | n + 1, t :: ts, d =>
      match t with
      | ['-', '-'] => expressions ts d
      | '-' :: '-' :: name =>
          if name = "help".toList then .error .help
          else do
            let (name, attached) := splitName name
            let (d, ts) ← orMisuse ((Setting.named? c name).bind fun s => apply s attached ts d)
            arguments c n ts d
      | '-' :: letter :: t =>
          if letter = 'h' then .error .help
          else do
            let (d, ts) ← orMisuse
              ((Setting.lettered? c letter).bind fun s => apply s (attachedValue t) ts d)
            arguments c n ts d
      | t => do arguments c n ts (← d.setExpression t)

def requestOfArguments : List Text → Except Refusal Request
  | [] => .error .misuse
  | name :: ts =>
      match Command.ofName? name, name, ts with
      | some c, _, _ => do (← arguments c (ts.length + 1) ts {}).request c
      | none, '-' :: 'h' :: _, _ => .error .help
      | none, name, [] =>
          if name = "--help".toList ∨ name = "help".toList then .error .help else .error .misuse
      | none, name, topic :: more =>
          if name = "--help".toList then .error .help
          else if name = "help".toList ∧ more = [] ∧
            (topic = "help".toList ∨ (Command.ofName? topic).isSome) then .error .help
          else .error .misuse

def ask (help : Text) (args : List Text) : Asked :=
  match requestOfArguments args with
  | .ok r => .request r
  | .error .help => .answered ⟨0, help⟩
  | .error .misuse => .answered .misuse

end RuleLang.CommandLine
