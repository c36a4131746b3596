import RuleLang.Pattern.Form

namespace RuleLang.Text

def utf8Bytes (t : Text) : List Nat :=
  t.flatMap fun c => (String.utf8EncodeChar c).map UInt8.toNat

abbrev ByteRanges := List (Nat × Nat)

/-- The numbers of a range, in base 64 with so many digits behind the first. The given byte stands
for zero as the first digit, `0x80` as any other. -/
def digitRanges : Nat → Nat → Nat → Nat → List ByteRanges
  | 0, base, low, high => [[(base + low, base + high)]]
  | n + 1, base, low, high =>
      let place := Nat.pow 64 (n + 1)
      let a := low / place
      let b := high / place
      let starting (d e low high : Nat) : List ByteRanges :=
        (digitRanges n 0x80 low high).map ((base + d, base + e) :: ·)
      if a = b then starting a a (low % place) (high % place)
      else
        let wholeFrom := if low % place = 0 then a else a + 1
        let wholeTo := if high % place = place - 1 then b + 1 else b
        (if wholeFrom = a then [] else starting a a (low % place) (place - 1))
          ++ (if wholeFrom < wholeTo then starting wholeFrom (wholeTo - 1) 0 (place - 1) else [])
          ++ (if wholeTo = b then starting b b 0 (high % place) else [])

/-- Code points of equal length: the first and the last, how many bytes follow the first one, and
the first byte of zero. Surrogates have none. -/
def utf8Blocks : List (Nat × Nat × Nat × Nat) :=
  [(0, 0x7F, 0, 0), (0x80, 0x7FF, 1, 0xC0), (0x800, 0xD7FF, 2, 0xE0), (0xE000, 0xFFFF, 2, 0xE0),
    (0x10000, 0x10FFFF, 3, 0xF0)]

def utf8Ranges (low high : Nat) : List ByteRanges :=
  utf8Blocks.flatMap fun (first, last, n, base) =>
    if max low first ≤ min high last then digitRanges n base (max low first) (min high last) else []

end RuleLang.Text

namespace RuleLang.Pattern

/-- One automaton reads a text forward to find where a match ends, one backward to find where it
starts. Both read single bytes. -/
inductive Direction where
  | forward
  | backward
  deriving DecidableEq, Repr

namespace Size

def state (arcs alternatives : Nat) : Nat :=
  32 + 8 * arcs + 4 * alternatives

def plain : Nat :=
  state 0 0

def sparse (arcs : Nat) : Nat :=
  state arcs 0

def branching (alternatives : Nat) : Nat :=
  state 0 alternatives

def sumOf {α : Type} (size : α → Nat) (xs : List α) : Nat :=
  xs.foldl (fun n x => n + size x) 0

open Text (ByteRanges)

def firsts (s : List ByteRanges) : List (Nat × Nat) :=
  (s.filterMap List.head?).eraseDups

def behind (first : Nat × Nat) (s : List ByteRanges) : List ByteRanges :=
  s.filterMap fun
    | r :: rest => if r = first then some rest else none
    | [] => none

def suffixes : Nat → List ByteRanges → List (List ByteRanges)
  | 0, _ => []
  | n + 1, s =>
      match firsts s with
      | [] => []
      | rs => s :: rs.flatMap fun r => suffixes n (behind r s)

def beginnings (s : ByteRanges) : List ByteRanges :=
  (List.range s.length).map fun n => s.take (n + 1)

/-- Forward, places before the same ends are one state; backward, places behind the same starts
are. No sequence is longer than four. -/
def ofSet (d : Direction) (r : Ranges) : Nat :=
  if r.list.all fun (_, high) => high < 0x80 then plain + sparse r.list.length
  else
    let s := r.list.flatMap fun (low, high) => Text.utf8Ranges low high
    match d with
    | .forward => plain + sumOf (fun t => sparse (firsts t).length) (suffixes 4 s).eraseDups
    | .backward =>
        branching s.length + plain + plain * (s.flatMap beginnings).eraseDups.length

def between : List (List Nat) → List (List (List Nat))
  | [] => [[]]
  | [] :: ws => [] :: between ws
  | w :: ws =>
      match between ws with
      | c :: cs => (w :: c) :: cs
      | [] => [[w]]

def chunks : List (List Nat) → List (List (List Nat))
  | [] :: ws => between ([] :: ws.dropWhile List.isEmpty)
  | ws => between ws

/-- A tree of words of at most so many bytes. Words that start alike share their start unless
another word ends there between them. -/
def ofWords : Nat → List (List Nat) → Nat
  | 0, _ => 0
  | n + 1, ws =>
      if ws.all List.isEmpty then 0
      else
        let cs := chunks ws
        let full := cs.filter fun c => !c.isEmpty
        let ofChunk (c : List (List Nat)) : Nat :=
          let bytes := (c.filterMap List.head?).eraseDups
          (if bytes.length = 1 then plain else sparse bytes.length)
            + sumOf (fun b => ofWords n ((c.filter (·.head? = some b)).map (·.drop 1))) bytes
        branching (full.length + (cs.length - 1)) + sumOf ofChunk full

def literals? : List Form → Option (List Text)
  | [] => some []
  | .literal t :: fs => (literals? fs).map (t :: ·)
  | _ => none

def ofLiterals (d : Direction) (ts : List Text) : Nat :=
  let words := ts.map fun t =>
    match d with
    | .forward => Text.utf8Bytes t
    | .backward => (Text.utf8Bytes t).reverse
  plain + ofWords (words.foldl (fun n w => max n w.length) 0) words

mutual

/-- A repetition takes room for each time it may have to happen, and a branch for each time it
need not. -/
def ofForm (d : Direction) : Form → Nat
  | .empty | .start | .finish => plain
  | .literal t => plain * (Text.utf8Bytes t).length
  | .set r => ofSet d r
  | .group f => (if d = .forward then 2 * plain else 0) + ofForm d f
  | .sequence fs => ofForms d fs
  | .either fs =>
      match literals? fs with
      | some ts => ofLiterals d ts
      | none => branching fs.length + plain + ofForms d fs
  | .repeated f count _ =>
      let body := ofForm d f
      match count.least, count.most with
      | 0, none =>
          if f.neverEmpty then branching 2 + body else 2 * branching 2 + plain + body
      | n, none => n * body + branching 2
      | 0, some 1 => branching 2 + plain + body
      | n, some m =>
          (if n = 0 then plain else n * body)
            + (if n = m then 0 else plain + (m - n) * (branching 2 + body))

def ofForms (d : Direction) : List Form → Nat
  | [] => 0
  | f :: fs => ofForm d f + ofForms d fs

end

mutual

def beginsAtEnd (d : Direction) : Form → Bool
  | .start => d = .forward
  | .finish => d = .backward
  | .empty | .literal _ | .set _ => false
  | .group f => beginsAtEnd d f
  | .sequence fs => beginsAtEndInTurn d fs
  | .either fs => allBeginAtEnd d fs
  | .repeated f count _ => 0 < count.least && beginsAtEnd d f

def beginsAtEndInTurn (d : Direction) : List Form → Bool
  | [] => false
  | f :: fs =>
      match d with
      | .forward => beginsAtEnd d f || (f.onlyEmpty && beginsAtEndInTurn d fs)
      | .backward => beginsAtEndInTurn d fs || (Form.allOnlyEmpty fs && beginsAtEnd d f)

def allBeginAtEnd (d : Direction) : List Form → Bool
  | [] => true
  | f :: fs => beginsAtEnd d f && allBeginAtEnd d fs

end

def ofPattern (d : Direction) (p : Pattern) : Nat :=
  let f := p.form
  (if beginsAtEnd d f then plain else branching 2 + plain + sparse 1)
    + ofForm d (.group f) + plain

end Size

def nestingLimit : Nat := 250

def sizeLimit : Nat := 0xA00000

def small (p : Pattern) : Bool :=
  p.nesting ≤ nestingLimit
    && [Direction.forward, .backward].all fun d => Size.ofPattern d p ≤ sizeLimit

end RuleLang.Pattern
