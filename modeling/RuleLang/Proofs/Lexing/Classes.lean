import RuleLang.Proofs.Lexing.Wellformed

namespace RuleLang

def Lexeme.marks : List Char :=
  ['(', ')', ',', '\x7b', '\x7d', '+', '-', '*', '/', '=', '!', '<', '>', '&', '|', '\'']

namespace LexOptions

def Starts (o : LexOptions) (c : Char) : Prop :=
  c ∈ Lexeme.marks ∨ o.isLetter c ∨ Lexeme.isNumberCharacter c ∨ c = o.boundary

/-- Variables can stand between these marks: no token starts with one in another way, and none is
skipped as a blank. -/
structure Delimits (o : LexOptions) (c : Char) : Prop where
  visible : ¬ Text.isBlank c
  mark : c ∉ Lexeme.marks
  letter : ¬ o.isLetter c
  number : ¬ Lexeme.isNumberCharacter c

end LexOptions

def Text.RunsTo (mark : Char) (next : Option Char) (t : Text) : Prop :=
  ∃ content, mark ∉ content ∧
    (t = mark :: (content ++ [mark]) ∨ t = mark :: content ∧ next = none)

def Kind.extension? : Kind → Option Char
  | .assign | .bang | .lt | .gt => some '='
  | .bitAnd => some '&'
  | .bitOr => some '|'
  | _ => none

def Kind.words : List Kind :=
  [.ident, .trueWord, .falseWord]

structure Token.Classified (o : LexOptions) (next : Option Char) (t : Token) : Prop where
  word : t.kind ∈ Kind.words →
    (∃ c ∈ t.literal.head?, o.isLetter c) ∧ (∀ c ∈ t.literal, o.isWordCharacter c) ∧
      ∀ c ∈ next, ¬ o.isWordCharacter c
  trueWord : t.kind ∈ Kind.words → (t.kind = .trueWord ↔ t.literal = ['t', 'r', 'u', 'e'])
  falseWord : t.kind ∈ Kind.words → (t.kind = .falseWord ↔ t.literal = ['f', 'a', 'l', 's', 'e'])
  number : t.kind = .numeric → t.delimited = false →
    t.literal ≠ [] ∧ (∀ c ∈ t.literal, c.isDigit ∨ c = '.') ∧ ∀ c ∈ next, ¬ (c.isDigit ∨ c = '.')
  variableName : t.kind = .numeric → t.delimited = true →
    o.Delimits o.boundary ∧ t.literal.RunsTo o.boundary next
  string : t.kind = .string → t.literal.RunsTo '\'' next
  mark : t.kind ∉ Kind.operands → t.kind ≠ .finish → t.kind ≠ .invalid →
    t.literal = t.kind.spelling
  alone : ∀ c, t.kind.extension? = some c → c ∉ next

namespace Lexeme

theorem mem_marks_iff {c : Char} :
    c ∈ marks ↔ Kind.mark? c ≠ none ∨ Kind.extensible? c ≠ none ∨ c = '\'' := by
  constructor
  · intro h
    simp only [marks, List.mem_cons, List.not_mem_nil, or_false] at h
    rcases h with rfl | rfl | rfl | rfl | rfl | rfl | rfl | rfl | rfl | rfl | rfl | rfl | rfl |
      rfl | rfl | rfl <;> decide
  · unfold Kind.mark? Kind.extensible?
    rintro (h | h | rfl)
    · split at h <;> first | decide | exact absurd rfl h
    · split at h <;> first | decide | exact absurd rfl h
    · decide

theorem isNumberCharacter_iff {c : Char} : isNumberCharacter c ↔ c.isDigit ∨ c = '.' := by
  simp [isNumberCharacter]

end Lexeme

namespace LexOptions

variable {o : LexOptions} {c : Char}

theorem unclaimed_iff :
    o.Unclaimed c ↔ c ∉ Lexeme.marks ∧ ¬ o.isLetter c ∧ ¬ Lexeme.isNumberCharacter c := by
  rw [Lexeme.mem_marks_iff]
  constructor
  · rintro ⟨hm, he, hq, hl, hn⟩
    exact ⟨by simp [hm, he, hq], hl, hn⟩
  · rintro ⟨h, hl, hn⟩
    simp only [ne_eq, not_or, not_not] at h
    exact ⟨h.1, h.2.1, h.2.2, hl, hn⟩

theorem not_starts_iff : ¬ o.Starts c ↔ o.Unclaimed c ∧ c ≠ o.boundary := by
  rw [unclaimed_iff, Starts]
  tauto

theorem delimits_iff : o.Delimits c ↔ o.Unclaimed c ∧ ¬ Text.isBlank c := by
  rw [unclaimed_iff]
  exact ⟨fun ⟨hv, hm, hl, hn⟩ => ⟨⟨hm, hl, hn⟩, hv⟩, fun ⟨⟨hm, hl, hn⟩, hv⟩ => ⟨hv, hm, hl, hn⟩⟩

end LexOptions

namespace Kind

theorem extension?_of_mark? {c : Char} {k : Kind} (h : mark? c = some k) : k.extension? = none := by
  unfold mark? at h
  split at h <;> cases h <;> rfl

theorem extension?_of_extensible? {c second : Char} {both alone : Kind}
    (h : extensible? c = some (second, both, alone)) :
    both.extension? = none ∧ alone.extension? = some second := by
  unfold extensible? at h
  split at h <;> cases h <;> exact ⟨rfl, rfl⟩

theorem words_subset_operands : words ⊆ operands := by
  decide

theorem keyword?_iff (t : Text) :
    (keyword? t).getD .ident ∈ words ∧
      ((keyword? t).getD .ident = .trueWord ↔ t = ['t', 'r', 'u', 'e']) ∧
        ((keyword? t).getD .ident = .falseWord ↔ t = ['f', 'a', 'l', 's', 'e']) := by
  unfold keyword?
  split_ifs with ht hf
  · subst ht
    decide
  · subst hf
    decide
  · simp [words, ht, hf]

end Kind

variable {o : LexOptions} {c : Char} {behind : Text} {x : Lexeme} {t : Token} {next : Option Char}

namespace Token.Classified

theorem of_mark (hk : t.kind ∉ Kind.operands) (hl : t.literal = t.kind.spelling)
    (ha : ∀ c, t.kind.extension? = some c → c ∉ next) : t.Classified o next where
  word h := absurd (Kind.words_subset_operands h) hk
  trueWord h := absurd (Kind.words_subset_operands h) hk
  falseWord h := absurd (Kind.words_subset_operands h) hk
  number h := by simp [h, Kind.operands] at hk
  variableName h := by simp [h, Kind.operands] at hk
  string h := by simp [h, Kind.operands] at hk
  mark _ _ _ := hl
  alone := ha

theorem of_string (hk : t.kind = .string) (hr : t.literal.RunsTo '\'' next) :
    t.Classified o next := by
  constructor <;> simp_all [Kind.words, Kind.operands, Kind.extension?]

theorem of_number (hk : t.kind = .numeric) (hd : t.delimited = false)
    (hn : t.literal ≠ [] ∧ (∀ c ∈ t.literal, c.isDigit ∨ c = '.') ∧
      ∀ c ∈ next, ¬ (c.isDigit ∨ c = '.')) : t.Classified o next := by
  constructor <;> simp_all [Kind.words, Kind.operands, Kind.extension?]

theorem of_variableName (hk : t.kind = .numeric) (hd : t.delimited = true)
    (hv : o.Delimits o.boundary ∧ t.literal.RunsTo o.boundary next) : t.Classified o next := by
  constructor <;> simp_all [Kind.words, Kind.operands, Kind.extension?]

theorem of_bare (hk : t.kind = .finish ∨ t.kind = .invalid) : t.Classified o next := by
  rcases hk with hk | hk <;> constructor <;> simp_all [Kind.words, Kind.operands, Kind.extension?]

theorem of_word (hk : t.kind ∈ Kind.words)
    (htrue : t.kind = .trueWord ↔ t.literal = ['t', 'r', 'u', 'e'])
    (hfalse : t.kind = .falseWord ↔ t.literal = ['f', 'a', 'l', 's', 'e'])
    (hw : (∃ c ∈ t.literal.head?, o.isLetter c) ∧ (∀ c ∈ t.literal, o.isWordCharacter c) ∧
      ∀ c ∈ next, ¬ o.isWordCharacter c) : t.Classified o next where
  word _ := hw
  trueWord _ := htrue
  falseWord _ := hfalse
  number h := by simp [h, Kind.words] at hk
  variableName h := by simp [h, Kind.words] at hk
  string h := by simp [h, Kind.words] at hk
  mark h := absurd (Kind.words_subset_operands hk) h
  alone := by cases hkind : t.kind <;> simp_all [Kind.words, Kind.extension?]

end Token.Classified

namespace Text.RunsTo

variable {mark : Char} {content rest : Text}

theorem closed (h : mark ∉ content) : RunsTo mark next (mark :: (content ++ [mark])) :=
  ⟨content, h, .inl rfl⟩

theorem unclosed (h : mark ∉ content) : RunsTo mark none (mark :: content) :=
  ⟨content, h, .inr ⟨rfl, rfl⟩⟩

end Text.RunsTo

theorem Cut.classified (h : Cut o c behind x) (hc : ¬ Text.isBlank c) (start : Nat) :
    (x.token start).Classified o x.rest.head? := by
  cases h with
  | mark hm =>
      refine .of_mark (fun hk => Kind.mark?_mem hm (List.mem_cons_of_mem _ hk))
        (Kind.spelling_of_mark? hm).symm fun d hd => ?_
      exact absurd (hd.symm.trans (Kind.extension?_of_mark? hm)) (by simp)
  | pair he =>
      refine .of_mark (fun hk => (Kind.extensible?_mem he).1 (List.mem_cons_of_mem _ hk))
        (Kind.spelling_of_extensible? he).1.symm fun d hd => ?_
      exact absurd (hd.symm.trans (Kind.extension?_of_extensible? he).1) (by simp)
  | single he hr =>
      refine .of_mark (fun hk => (Kind.extensible?_mem he).2 (List.mem_cons_of_mem _ hk))
        (Kind.spelling_of_extensible? he).2.symm fun d hd => ?_
      obtain rfl := Option.some.inj (hd.symm.trans (Kind.extension?_of_extensible? he).2)
      exact hr
  | closedString hq =>
      exact .of_string rfl (.closed hq)
  | openString hq =>
      exact .of_string rfl (.unclosed hq)
  | @word _ tail _ hl ht hr =>
      obtain ⟨hk, htrue, hfalse⟩ := Kind.keyword?_iff (c :: tail)
      have hword : ∀ d ∈ c :: tail, o.isWordCharacter d :=
        List.forall_mem_cons.mpr ⟨by simp [LexOptions.isWordCharacter, hl], ht⟩
      exact .of_word hk htrue hfalse ⟨⟨c, rfl, hl⟩, hword, hr⟩
  | @number _ tail _ hn ht hr =>
      simp only [Lexeme.isNumberCharacter_iff] at hn ht hr
      exact .of_number rfl rfl ⟨List.cons_ne_nil c tail, List.forall_mem_cons.mpr ⟨hn, ht⟩, hr⟩
  | closedName hu hb =>
      exact .of_variableName rfl rfl ⟨LexOptions.delimits_iff.mpr ⟨hu, hc⟩, .closed hb⟩
  | openName hu hb =>
      exact .of_variableName rfl rfl ⟨LexOptions.delimits_iff.mpr ⟨hu, hc⟩, .unclosed hb⟩
  | invalid => exact .of_bare (.inr rfl)

theorem Scans.exists_cut_of_mem {passed : Nat} {s : Text} {r : Lexed} (h : Scans o passed s r) :
    ∀ before : Text, before.length = passed → ∀ u ∈ r.tokens,
      u = .finish (before ++ s).length ∨
        ∃ front c behind x, before ++ s = front ++ c :: behind ∧ ¬ Text.isBlank c ∧
          Cut o c behind x ∧ u = x.token front.length := by
  induction h with
  | blank =>
      rintro before rfl u hu
      obtain rfl := List.mem_singleton.mp hu
      exact .inl (by rw [List.length_append])
  | @invalid passed start blanks c behind x hb hc hs hx hk =>
      rintro before rfl u hu
      obtain rfl := List.mem_singleton.mp hu
      exact .inr ⟨before ++ blanks, c, behind, x, by simp, hc, hx, by simp [hs]⟩
  | @lexeme passed start blanks c behind x more hb hc hs hx hk hm ih =>
      rintro before rfl u hu
      subst hs
      rcases List.mem_cons.mp hu with rfl | hu
      · exact .inr ⟨before ++ blanks, c, behind, x, by simp, hc, hx, by simp⟩
      · have hrest := ih (before ++ blanks ++ x.text) (by simp [Nat.add_assoc]) u hu
        rwa [List.append_assoc _ x.text, hx.text_append_rest, List.append_assoc] at hrest

theorem lex_classified (o : LexOptions) (source : Text) :
    Covers source 0 (lex o source).tokens ((lex o source).tokens.map Token.span) ∧
      ∀ t ∈ (lex o source).tokens, t.Classified o source[t.span.stop]? := by
  rcases lex_cases o source with ⟨-, hl⟩ | hscan
  · rw [hl]
    exact ⟨.nil source 0, List.forall_mem_nil _⟩
  · obtain ⟨spans, hspans⟩ := hscan.exists_covers [] rfl
    refine ⟨hspans.eq_spans ▸ hspans, fun t ht => ?_⟩
    rcases hscan.exists_cut_of_mem [] rfl t ht with rfl | ⟨front, c, behind, x, hs, hc, hx, rfl⟩
    · exact .of_bare (.inl rfl)
    · have hnext := hx.getElem?_stop front
      rw [← hs, List.nil_append] at hnext
      rw [hnext]
      exact hx.classified hc front.length

theorem lex_classified_openName :
    let source := ['t', 'r', 'u', 'e', '1', '<', '#', '=']
    (⟨.ident, ['t', 'r', 'u', 'e', '1'], 5, false⟩ : Token) ∈
        (lex { boundary := '#' } source).tokens ∧
      (⟨.numeric, ['#', '='], 8, true⟩ : Token) ∈ (lex { boundary := '#' } source).tokens ∧
      (∀ c ∈ some '<', ¬ LexOptions.isWordCharacter { boundary := '#' } c) ∧
      Text.RunsTo '#' none ['#', '='] := by
  intro source
  have hword : (⟨.ident, ['t', 'r', 'u', 'e', '1'], 5, false⟩ : Token) ∈
      (lex { boundary := '#' } source).tokens := by decide +kernel
  have hname : (⟨.numeric, ['#', '='], 8, true⟩ : Token) ∈
      (lex { boundary := '#' } source).tokens := by decide +kernel
  have hclassified := (lex_classified { boundary := '#' } source).2
  obtain ⟨-, -, hnext⟩ := (hclassified _ hword).word (by decide)
  exact ⟨hword, hname, hnext, ((hclassified _ hname).variableName rfl rfl).2⟩

end RuleLang
