import RuleLang.Proofs.Lexing.Scan
import RuleLang.Tree.Basic

namespace RuleLang

def Lexeme.shape (x : Lexeme) : Kind × Text × Bool :=
  (x.kind, x.text, x.delimited)

inductive Faultless (o : LexOptions) : Text → List (Kind × Text × Bool) → Prop
  | blank {t : Text} (ht : ∀ c ∈ t, Text.isBlank c) : Faultless o t [(.finish, [], false)]
  | lexeme {blanks : Text} {c : Char} {behind : Text} {x : Lexeme}
      {shapes : List (Kind × Text × Bool)} (hb : ∀ d ∈ blanks, Text.isBlank d)
      (hc : ¬ Text.isBlank c) (hx : Cut o c behind x) (hf : x.fault = none)
      (hm : Faultless o x.rest shapes) : Faultless o (blanks ++ c :: behind) (x.shape :: shapes)

def Kind.operands : List Kind :=
  [.ident, .string, .trueWord, .falseWord, .numeric]

def Text.Closed (t : Text) : Prop :=
  ∀ c ∈ t.head?, c ∈ [' ', '(', ')', ',']

structure Rereads (o : LexOptions) (u : Token) : Prop where
  starts : ∃ c tail, u.literal = c :: tail ∧ c ≠ '='
  reads {rest : Text} {shapes : List (Kind × Text × Bool)} (hr : rest.Closed)
    (hm : Faultless o rest shapes) : Faultless o (u.literal ++ rest) (u.shape :: shapes)

structure Genuine (o : LexOptions) (u : Token) : Prop where
  operand (hk : u.kind ∈ Kind.operands) : Rereads o u
  mark (hk : u.kind ∉ Kind.operands) (hf : u.kind ≠ .finish) :
    u.shape = (u.kind, u.kind.spelling, false)
  trueWord (hk : u.kind = .trueWord) : u.literal = Text.ofBool true
  falseWord (hk : u.kind = .falseWord) : u.literal = Text.ofBool false

variable {o : LexOptions} {c : Char} {behind : Text} {x : Lexeme}

namespace Kind

theorem mark?_mem {k : Kind} (h : mark? c = some k) : k ∉ .invalid :: operands := by
  unfold mark? at h
  split at h <;> cases h <;> decide

theorem extensible?_mem {second : Char} {both alone : Kind}
    (h : extensible? c = some (second, both, alone)) :
    both ∉ .invalid :: operands ∧ alone ∉ .invalid :: operands := by
  unfold extensible? at h
  split at h <;> cases h <;> decide

end Kind

namespace Cut

theorem keyword?_cases (t : Text) :
    (Kind.keyword? t).getD .ident = .ident ∨
      ((Kind.keyword? t).getD .ident = .trueWord ∧ t = Text.ofBool true) ∨
        ((Kind.keyword? t).getD .ident = .falseWord ∧ t = Text.ofBool false) := by
  unfold Kind.keyword?
  split_ifs with ht hf
  · exact .inr (.inl ⟨rfl, ht⟩)
  · exact .inr (.inr ⟨rfl, hf⟩)
  · exact .inl rfl

theorem kind_ne_invalid (h : Cut o c behind x) (hf : x.fault = none) : x.kind ≠ .invalid := by
  cases h with
  | mark hc =>
      rintro (rfl : _ = Kind.invalid)
      exact Kind.mark?_mem hc List.mem_cons_self
  | pair hc =>
      rintro (rfl : _ = Kind.invalid)
      exact (Kind.extensible?_mem hc).1 List.mem_cons_self
  | single hc =>
      rintro (rfl : _ = Kind.invalid)
      exact (Kind.extensible?_mem hc).2 List.mem_cons_self
  | @word _ tail _ =>
      obtain hk | ⟨hk, -⟩ | ⟨hk, -⟩ := keyword?_cases (c :: tail) <;> simp [hk]
  | invalid => simp at hf
  | _ => simp

theorem shape_of_notMem (h : Cut o c behind x) (hf : x.fault = none)
    (hk : x.kind ∉ Kind.operands) : x.shape = (x.kind, x.kind.spelling, false) := by
  cases h with
  | mark hc => simp [Lexeme.shape, Kind.spelling_of_mark? hc]
  | pair hc => simp [Lexeme.shape, (Kind.spelling_of_extensible? hc).1]
  | single hc => simp [Lexeme.shape, (Kind.spelling_of_extensible? hc).2]
  | @word _ tail _ =>
      obtain hw | ⟨hw, -⟩ | ⟨hw, -⟩ := keyword?_cases (c :: tail) <;>
        simp [hw, Kind.operands] at hk
  | invalid => simp at hf
  | _ => simp [Kind.operands] at hk

theorem text_of_keyword (h : Cut o c behind x) :
    (x.kind = .trueWord → x.text = Text.ofBool true) ∧
      (x.kind = .falseWord → x.text = Text.ofBool false) := by
  cases h with
  | mark hc =>
      have hm := Kind.mark?_mem hc
      constructor <;> rintro (rfl : _ = _) <;> simp [Kind.operands] at hm
  | pair hc =>
      have hm := (Kind.extensible?_mem hc).1
      constructor <;> rintro (rfl : _ = _) <;> simp [Kind.operands] at hm
  | single hc =>
      have hm := (Kind.extensible?_mem hc).2
      constructor <;> rintro (rfl : _ = _) <;> simp [Kind.operands] at hm
  | @word _ tail _ =>
      constructor
      · intro hk
        obtain hw | ⟨-, ht⟩ | ⟨hw, -⟩ := keyword?_cases (c :: tail)
        · exact absurd (hw.symm.trans hk) (by decide)
        · exact ht
        · exact absurd (hw.symm.trans hk) (by decide)
      · intro hk
        obtain hw | ⟨hw, -⟩ | ⟨-, ht⟩ := keyword?_cases (c :: tail)
        · exact absurd (hw.symm.trans hk) (by decide)
        · exact absurd (hw.symm.trans hk) (by decide)
        · exact ht
  | _ => simp

end Cut

theorem Text.closed_cons (h : c ∈ [' ', '(', ')', ',']) (t : Text) : Text.Closed (c :: t) := by
  rintro d ⟨⟩
  exact h

namespace Text.Closed

variable {rest : Text}

theorem not_isWordCharacter (h : rest.Closed) : ∀ d ∈ rest.head?, ¬ o.isWordCharacter d := by
  intro d hd
  have hm := h d hd
  simp only [List.mem_cons, List.not_mem_nil, or_false] at hm
  obtain rfl | rfl | rfl | rfl := hm <;>
    simp [LexOptions.isWordCharacter, LexOptions.isLetter, LexOptions.isHan]

theorem not_isNumberCharacter (h : rest.Closed) :
    ∀ d ∈ rest.head?, ¬ Lexeme.isNumberCharacter d := by
  intro d hd
  have hm := h d hd
  simp only [List.mem_cons, List.not_mem_nil, or_false] at hm
  obtain rfl | rfl | rfl | rfl := hm <;> decide

theorem numberFault_eq_none (h : rest.Closed) (n : Nat) : Lexeme.numberFault n rest = none := by
  cases rest with
  | nil => rfl
  | cons d rest =>
      have hm := h d rfl
      simp only [List.mem_cons, List.not_mem_nil, or_false] at hm
      obtain rfl | rfl | rfl | rfl := hm <;> rfl

end Text.Closed

theorem Kind.ne_equals_of_extensible? (h : Kind.extensible? c = none) : c ≠ '=' := by
  rintro rfl
  simp [Kind.extensible?] at h

theorem Lexeme.stringFault_ne_none (content : Text) :
    Lexeme.stringFault o content false ≠ none := by
  unfold Lexeme.stringFault
  split <;> simp

theorem Cut.rereads (h : Cut o c behind x) (hc : ¬ Text.isBlank c) (hf : x.fault = none)
    (hk : x.kind ∈ Kind.operands) (start : Nat) : Rereads o (x.token start) := by
  have hnil : ∀ d ∈ ([] : Text), Text.isBlank d := List.forall_mem_nil _
  cases h with
  | mark hm => exact absurd (List.mem_cons_of_mem _ hk) (Kind.mark?_mem hm)
  | pair hm => exact absurd (List.mem_cons_of_mem _ hk) (Kind.extensible?_mem hm).1
  | single hm => exact absurd (List.mem_cons_of_mem _ hk) (Kind.extensible?_mem hm).2
  | @closedString content _ hq =>
      refine ⟨⟨_, _, rfl, by decide⟩, fun {rest shapes} hr hm => ?_⟩
      have hcut : Cut o '\'' (content ++ '\'' :: rest) _ := .closedString hq
      have hlex := Faultless.lexeme hnil hc hcut hf hm
      simpa [Lexeme.token, Lexeme.shape, Token.shape] using hlex
  | openString hq => exact absurd hf (Lexeme.stringFault_ne_none _)
  | @word _ tail _ hl ht hr' =>
      obtain ⟨-, he, -⟩ := LexOptions.unmarked_of_isLetter hl
      refine ⟨⟨_, _, rfl, Kind.ne_equals_of_extensible? he⟩, fun hr hm => ?_⟩
      exact .lexeme hnil hc (.word hl ht hr.not_isWordCharacter) rfl hm
  | @number _ tail _ hn ht hr' =>
      obtain ⟨-, he, -⟩ := LexOptions.unmarked_of_isNumberCharacter hn
      refine ⟨⟨_, _, rfl, Kind.ne_equals_of_extensible? he⟩, fun hr hm => ?_⟩
      exact .lexeme hnil hc (.number hn ht hr.not_isNumberCharacter) (hr.numberFault_eq_none _) hm
  | @closedName name _ hu hb =>
      refine ⟨⟨_, _, rfl, Kind.ne_equals_of_extensible? hu.extensible⟩,
        fun {rest shapes} hr hm => ?_⟩
      have hcut : Cut o o.boundary (name ++ o.boundary :: rest) _ := .closedName hu hb
      have hlex := Faultless.lexeme hnil hc hcut hf hm
      simpa [Lexeme.token, Lexeme.shape, Token.shape] using hlex
  | openName hu hb => simp at hf
  | invalid => simp at hf

theorem Cut.genuine (h : Cut o c behind x) (hc : ¬ Text.isBlank c) (hf : x.fault = none)
    (start : Nat) : Genuine o (x.token start) where
  operand hk := h.rereads hc hf hk start
  mark hk _ := h.shape_of_notMem hf hk
  trueWord := h.text_of_keyword.1
  falseWord := h.text_of_keyword.2

theorem Scans.faultless {passed : Nat} {t : Text} {r : Lexed} (h : Scans o passed t r)
    (he : r.error = none) : Faultless o t (r.tokens.map Token.shape) := by
  induction h with
  | blank ht => exact .blank ht
  | invalid hb hc hs hx hk =>
      exact absurd hk (hx.kind_ne_invalid (by simpa [Lexeme.errorAt] using he))
  | lexeme hb hc hs hx hk hm ih =>
      obtain ⟨hf, he⟩ := Option.or_eq_none_iff.mp he
      exact .lexeme hb hc hx (by simpa [Lexeme.errorAt] using hf) (ih he)

theorem Faultless.exists_scans {t : Text} {shapes : List (Kind × Text × Bool)}
    (h : Faultless o t shapes) (passed : Nat) :
    ∃ r, Scans o passed t r ∧ r.error = none ∧ r.tokens.map Token.shape = shapes := by
  induction h generalizing passed with
  | blank ht => exact ⟨_, .blank ht, rfl, rfl⟩
  | @lexeme blanks c behind x shapes hb hc hx hf hm ih =>
      obtain ⟨r, hr, he, hs⟩ := ih (passed + blanks.length + x.text.length)
      refine ⟨_, .lexeme hb hc rfl hx (hx.kind_ne_invalid hf) hr, ?_, ?_⟩
      · simp [Lexeme.errorAt, hf, he]
      · rw [List.map_cons, hs]
        rfl

theorem genuine_finish (offset : Nat) : Genuine o (.finish offset) where
  operand hk := by simp [Token.finish, Kind.operands] at hk
  mark _ hf := absurd rfl hf
  trueWord hk := by simp [Token.finish] at hk
  falseWord hk := by simp [Token.finish] at hk

theorem Scans.genuine {passed : Nat} {t : Text} {r : Lexed} (h : Scans o passed t r)
    (he : r.error = none) : ∀ u ∈ r.tokens, Genuine o u := by
  induction h with
  | blank ht =>
      intro u hu
      obtain rfl := List.mem_singleton.mp hu
      exact genuine_finish _
  | invalid hb hc hs hx hk =>
      exact absurd hk (hx.kind_ne_invalid (by simpa [Lexeme.errorAt] using he))
  | lexeme hb hc hs hx hk hm ih =>
      obtain ⟨hf, he⟩ := Option.or_eq_none_iff.mp he
      intro u hu
      obtain rfl | hu := List.mem_cons.mp hu
      · exact hx.genuine hc (by simpa [Lexeme.errorAt] using hf) _
      · exact ih he u hu

end RuleLang
