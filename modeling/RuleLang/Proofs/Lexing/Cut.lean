import Mathlib.Data.List.TakeWhile
import RuleLang.Token.Lexeme

namespace RuleLang

section Span

variable {α : Type} {p : α → Bool}

theorem span_append {front rest : List α} (hf : ∀ a ∈ front, p a) (hr : ∀ a ∈ rest.head?, ¬ p a) :
    (front ++ rest).takeWhile p = front ∧ (front ++ rest).dropWhile p = rest := by
  rw [List.takeWhile_append_of_pos hf, List.dropWhile_append_of_pos hf]
  cases rest with
  | nil => simp
  | cons a rest =>
      have ha : ¬ p a := hr a rfl
      simp [ha]

theorem exists_span (p : α → Bool) (l : List α) :
    ∃ front rest, l = front ++ rest ∧ (∀ a ∈ front, p a) ∧ ∀ a ∈ rest.head?, ¬ p a := by
  refine ⟨l.takeWhile p, l.dropWhile p, List.takeWhile_append_dropWhile.symm,
    fun a ha => List.mem_takeWhile_imp ha, ?_⟩
  intro a ha
  have h := List.head?_dropWhile_not p l
  rw [Option.mem_def.mp ha] at h
  simpa using h

end Span

namespace LexOptions

structure Unclaimed (o : LexOptions) (c : Char) : Prop where
  mark : Kind.mark? c = none
  extensible : Kind.extensible? c = none
  quote : c ≠ '\''
  letter : ¬ o.isLetter c
  number : ¬ Lexeme.isNumberCharacter c

variable {o : LexOptions} {c : Char}

theorem toNat_of_isAlpha (h : c.isAlpha = true) :
    (65 ≤ c.toNat ∧ c.toNat ≤ 90) ∨ (97 ≤ c.toNat ∧ c.toNat ≤ 122) := by
  have halpha : c.isAlpha =
      (decide (c.val ≥ 65 ∧ c.val ≤ 90) || (c.val ≥ 97 && c.val ≤ 122)) := rfl
  simp only [halpha, Bool.or_eq_true, Bool.and_eq_true, decide_eq_true_eq,
    UInt32.le_iff_toNat_le, ge_iff_le] at h
  exact h

theorem toNat_of_isLetter (h : o.isLetter c) :
    c.toNat = 95 ∨ (65 ≤ c.toNat ∧ c.toNat ≤ 90) ∨ (97 ≤ c.toNat ∧ c.toNat ≤ 122) ∨
      0x4E00 ≤ c.toNat := by
  simp only [isLetter, isHan, Bool.or_eq_true, Bool.and_eq_true, beq_iff_eq,
    decide_eq_true_eq] at h
  rcases h with (rfl | h) | ⟨_, h, _⟩
  · exact .inl rfl
  · rcases toNat_of_isAlpha h with h | h
    · exact .inr (.inl h)
    · exact .inr (.inr (.inl h))
  · exact .inr (.inr (.inr h))

theorem toNat_of_isNumberCharacter (h : Lexeme.isNumberCharacter c) :
    c.toNat = 46 ∨ (48 ≤ c.toNat ∧ c.toNat ≤ 57) := by
  simp only [Lexeme.isNumberCharacter, Char.isDigit, Bool.or_eq_true,
    Bool.and_eq_true, beq_iff_eq, decide_eq_true_eq, UInt32.le_iff_toNat_le, ge_iff_le] at h
  rcases h with ⟨h, h'⟩ | rfl
  · exact .inr ⟨h, h'⟩
  · exact .inl rfl

theorem not_isLetter_of_isNumberCharacter (h : Lexeme.isNumberCharacter c) : ¬ o.isLetter c := by
  intro hl
  have hn := toNat_of_isNumberCharacter h
  have hc := toNat_of_isLetter hl
  omega

theorem unmarked_of_isLetter (h : o.isLetter c) :
    Kind.mark? c = none ∧ Kind.extensible? c = none ∧ c ≠ '\'' := by
  refine ⟨?_, ?_, ?_⟩
  · unfold Kind.mark?
    split <;> first | rfl | simp [isLetter, isHan] at h
  · unfold Kind.extensible?
    split <;> first | rfl | simp [isLetter, isHan] at h
  · rintro rfl
    simp [isLetter, isHan] at h

theorem unmarked_of_isNumberCharacter (h : Lexeme.isNumberCharacter c) :
    Kind.mark? c = none ∧ Kind.extensible? c = none ∧ c ≠ '\'' := by
  refine ⟨?_, ?_, ?_⟩
  · unfold Kind.mark?
    split <;> first | rfl | simp [Lexeme.isNumberCharacter] at h
  · unfold Kind.extensible?
    split <;> first | rfl | simp [Lexeme.isNumberCharacter] at h
  · rintro rfl
    simp [Lexeme.isNumberCharacter] at h

end LexOptions

/-- How the text that starts with `c` and goes on behind it is cut into a lexeme. -/
inductive Cut (o : LexOptions) : Char → Text → Lexeme → Prop
  | mark {c : Char} {kind : Kind} {rest : Text} (hc : Kind.mark? c = some kind) :
      Cut o c rest { kind, text := [c], rest }
  | pair {c second : Char} {both alone : Kind} {rest : Text}
      (hc : Kind.extensible? c = some (second, both, alone)) :
      Cut o c (second :: rest) { kind := both, text := [c, second], rest }
  | single {c second : Char} {both alone : Kind} {rest : Text}
      (hc : Kind.extensible? c = some (second, both, alone)) (hr : second ∉ rest.head?) :
      Cut o c rest { kind := alone, text := [c], rest }
  | closedString {content rest : Text} (hq : '\'' ∉ content) :
      Cut o '\'' (content ++ '\'' :: rest)
        { kind := .string
          text := '\'' :: (content ++ ['\''])
          rest
          fault := Lexeme.stringFault o content true }
  | openString {content : Text} (hq : '\'' ∉ content) :
      Cut o '\'' content
        { kind := .string
          text := '\'' :: content
          rest := []
          fault := Lexeme.stringFault o content false }
  | word {c : Char} {tail rest : Text} (hc : o.isLetter c)
      (ht : ∀ d ∈ tail, o.isWordCharacter d) (hr : ∀ d ∈ rest.head?, ¬ o.isWordCharacter d) :
      Cut o c (tail ++ rest)
        { kind := (Kind.keyword? (c :: tail)).getD .ident
          text := c :: tail
          rest }
  | number {c : Char} {tail rest : Text} (hc : Lexeme.isNumberCharacter c)
      (ht : ∀ d ∈ tail, Lexeme.isNumberCharacter d)
      (hr : ∀ d ∈ rest.head?, ¬ Lexeme.isNumberCharacter d) :
      Cut o c (tail ++ rest)
        { kind := .numeric
          text := c :: tail
          rest
          fault := Lexeme.numberFault (tail.length + 1) rest }
  | closedName {name rest : Text} (hc : o.Unclaimed o.boundary) (hb : o.boundary ∉ name) :
      Cut o o.boundary (name ++ o.boundary :: rest)
        { kind := .numeric
          text := o.boundary :: (name ++ [o.boundary])
          rest
          delimited := true
          fault :=
            if o.names.accepts name then none
            else some (name.length + 1, .illegalVariable o.names.hint) }
  | openName {name : Text} (hc : o.Unclaimed o.boundary) (hb : o.boundary ∉ name) :
      Cut o o.boundary name
        { kind := .numeric
          text := o.boundary :: name
          rest := []
          delimited := true
          fault := some (name.length + 1, .unclosedVariable o.boundary) }
  | invalid {c : Char} {rest : Text} (hc : o.Unclaimed c) (hb : c ≠ o.boundary) :
      Cut o c rest
        { kind := .invalid
          text := [c]
          rest
          fault := some (0, .invalidToken c) }

namespace Kind

theorem spelling_of_mark? {c : Char} {k : Kind} (h : mark? c = some k) : k.spelling = [c] := by
  unfold mark? at h
  split at h <;> cases h <;> rfl

theorem mark?_of_extensible? {c : Char} {e : Char × Kind × Kind} (h : extensible? c = some e) :
    mark? c = none := by
  unfold extensible? at h
  split at h <;> first | rfl | cases h

theorem spelling_of_extensible? {c second : Char} {both alone : Kind}
    (h : extensible? c = some (second, both, alone)) :
    both.spelling = [c, second] ∧ alone.spelling = [c] := by
  unfold extensible? at h
  split at h <;> cases h <;> exact ⟨rfl, rfl⟩

end Kind

namespace Cut

variable {o : LexOptions} {c : Char} {behind : Text} {x : Lexeme}

theorem exists_front (mark : Char) (t : Text) :
    (∃ front rest, t = front ++ mark :: rest ∧ mark ∉ front) ∨ mark ∉ t := by
  by_cases h : mark ∈ t
  · exact .inl (List.eq_append_cons_of_mem h)
  · exact .inr h

theorem exists_cut (o : LexOptions) (c : Char) (behind : Text) : ∃ x, Cut o c behind x := by
  cases hm : Kind.mark? c with
  | some k => exact ⟨_, .mark hm⟩
  | none =>
      cases he : Kind.extensible? c with
      | some e =>
          obtain ⟨second, both, alone⟩ := e
          by_cases hs : second ∈ behind.head?
          · obtain ⟨rest, rfl⟩ := List.head?_eq_some_iff.mp hs
            exact ⟨_, .pair he⟩
          · exact ⟨_, .single he hs⟩
      | none =>
          by_cases hq : c = '\''
          · subst hq
            rcases exists_front '\'' behind with ⟨content, rest, rfl, h⟩ | h
            · exact ⟨_, .closedString h⟩
            · exact ⟨_, .openString h⟩
          by_cases hl : o.isLetter c
          · obtain ⟨tail, rest, rfl, ht, hr⟩ := exists_span o.isWordCharacter behind
            exact ⟨_, .word hl ht hr⟩
          by_cases hn : Lexeme.isNumberCharacter c
          · obtain ⟨tail, rest, rfl, ht, hr⟩ := exists_span Lexeme.isNumberCharacter behind
            exact ⟨_, .number hn ht hr⟩
          have hu : o.Unclaimed c := ⟨hm, he, hq, hl, hn⟩
          by_cases hb : c = o.boundary
          · subst hb
            rcases exists_front o.boundary behind with ⟨name, rest, rfl, h⟩ | h
            · exact ⟨_, .closedName hu h⟩
            · exact ⟨_, .openName hu h⟩
          · exact ⟨_, .invalid hu hb⟩

theorem span_of_notMem {mark : Char} {front rest t : Text} (ht : t = front ++ mark :: rest)
    (h : mark ∉ front) :
    t.takeWhile (· ≠ mark) = front ∧ t.dropWhile (· ≠ mark) = mark :: rest := by
  subst ht
  apply span_append
  · intro d hd
    simpa using fun hdm : d = mark => h (hdm ▸ hd)
  · simp

theorem span_of_notMem_all {mark : Char} {t : Text} (h : mark ∉ t) :
    t.takeWhile (· ≠ mark) = t ∧ t.dropWhile (· ≠ mark) = [] := by
  have ht : ∀ d ∈ t, decide (d ≠ mark) = true := by
    intro d hd
    simpa using fun hdm : d = mark => h (hdm ▸ hd)
  exact ⟨List.takeWhile_eq_self_iff.mpr ht, List.dropWhile_eq_nil_iff.mpr ht⟩

theorem ofText_of_unclaimed (hc : o.Unclaimed c) :
    Lexeme.ofText o c behind =
      if c = o.boundary then Lexeme.variableName o behind
      else
        { kind := .invalid
          text := [c]
          rest := behind
          fault := some (0, .invalidToken c) } := by
  simp [Lexeme.ofText, hc.mark, hc.extensible, hc.quote, hc.letter, hc.number]

theorem ofText_of_extensible? {second : Char} {both alone : Kind}
    (hc : Kind.extensible? c = some (second, both, alone)) :
    Lexeme.ofText o c behind = Lexeme.extensible c second both alone behind := by
  simp [Lexeme.ofText, Kind.mark?_of_extensible? hc, hc]

theorem ofText_eq (h : Cut o c behind x) : Lexeme.ofText o c behind = x := by
  cases h with
  | mark hc => simp [Lexeme.ofText, hc]
  | pair hc => simp [ofText_of_extensible? hc, Lexeme.extensible]
  | @single _ second _ _ _ hc hr =>
      rw [ofText_of_extensible? hc]
      cases behind with
      | nil => rfl
      | cons d rest =>
          have hd : d ≠ second := by
            rintro rfl
            exact hr rfl
          simp [Lexeme.extensible, hd]
  | @closedString content rest hq =>
      obtain ⟨h1, h2⟩ := span_of_notMem (t := content ++ '\'' :: rest) rfl hq
      change Lexeme.string o _ = _
      simp only [Lexeme.string, h1, h2]
  | openString hq =>
      obtain ⟨h1, h2⟩ := span_of_notMem_all hq
      change Lexeme.string o _ = _
      simp only [Lexeme.string, h1, h2]
  | word hc ht hr =>
      obtain ⟨h1, h2, h3⟩ := LexOptions.unmarked_of_isLetter hc
      obtain ⟨h4, h5⟩ := span_append ht hr
      simp [Lexeme.ofText, h1, h2, h3, hc, Lexeme.word, h4, h5]
  | number hc ht hr =>
      obtain ⟨h1, h2, h3⟩ := LexOptions.unmarked_of_isNumberCharacter hc
      have hl : ¬ o.isLetter c := LexOptions.not_isLetter_of_isNumberCharacter hc
      obtain ⟨h4, h5⟩ := span_append ht hr
      simp [Lexeme.ofText, h1, h2, h3, hl, hc, Lexeme.number, h4, h5]
  | @closedName name rest hc hb =>
      obtain ⟨h1, h2⟩ := span_of_notMem (t := name ++ o.boundary :: rest) rfl hb
      rw [ofText_of_unclaimed hc, if_pos rfl]
      simp only [Lexeme.variableName, h1, h2]
  | openName hc hb =>
      obtain ⟨h1, h2⟩ := span_of_notMem_all hb
      rw [ofText_of_unclaimed hc, if_pos rfl]
      simp only [Lexeme.variableName, h1, h2]
  | invalid hc hb => rw [ofText_of_unclaimed hc, if_neg hb]

theorem cut_iff : Cut o c behind x ↔ Lexeme.ofText o c behind = x := by
  constructor
  · exact ofText_eq
  · rintro rfl
    obtain ⟨x, hx⟩ := exists_cut o c behind
    rwa [ofText_eq hx]

theorem text_append_rest (h : Cut o c behind x) : x.text ++ x.rest = c :: behind := by
  cases h <;> simp

theorem exists_text_eq (h : Cut o c behind x) : ∃ tail, x.text = c :: tail := by
  cases h <;> exact ⟨_, rfl⟩

theorem kind_ne_finish (h : Cut o c behind x) : x.kind ≠ .finish := by
  cases h with
  | mark hc =>
      rintro (rfl : _ = Kind.finish)
      simpa [Kind.spelling] using Kind.spelling_of_mark? hc
  | pair hc =>
      rintro (rfl : _ = Kind.finish)
      simpa [Kind.spelling] using (Kind.spelling_of_extensible? hc).1
  | single hc =>
      rintro (rfl : _ = Kind.finish)
      simpa [Kind.spelling] using (Kind.spelling_of_extensible? hc).2
  | word =>
      unfold Kind.keyword?
      dsimp only
      split_ifs <;> simp
  | _ => simp

end Cut

end RuleLang
