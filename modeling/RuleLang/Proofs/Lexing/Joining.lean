import RuleLang.Proofs.Lexing.Faultless

namespace RuleLang

def Token.shifted (n : Nat) (t : Token) : Token :=
  { t with offset := n + t.offset }

def LexError.shifted (n : Nat) (e : LexError) : LexError :=
  { e with offset := n + e.offset }

def Lexed.shifted (n : Nat) (r : Lexed) : Lexed where
  tokens := r.tokens.map (Token.shifted n)
  error := r.error.map (LexError.shifted n)

structure Text.Gap (w : Text) : Prop where
  nonempty : w ≠ []
  blank : ∀ c ∈ w, isBlank c

variable {o : LexOptions} {c : Char} {behind s t w : Text} {x : Lexeme} {passed : Nat}
  {r r' : Lexed}

namespace Text

theorem toNat_of_isBlank (h : isBlank c) :
    c.toNat ≤ 0x20 ∨ (0x85 ≤ c.toNat ∧ c.toNat ≤ 0x3000) := by
  simp only [isBlank, blankRanges, List.any_cons, List.any_nil, Bool.or_eq_true, Bool.and_eq_true,
    decide_eq_true_eq, Bool.false_eq_true, or_false] at h
  omega

theorem not_isWordCharacter_of_isBlank (h : isBlank c) : ¬ o.isWordCharacter c := by
  intro hw
  have hblank := toNat_of_isBlank h
  rcases Bool.or_eq_true_iff.mp hw with hl | hd
  · have hletter := LexOptions.toNat_of_isLetter hl
    omega
  · have hdigit : Lexeme.isNumberCharacter c := by simp [Lexeme.isNumberCharacter, hd]
    have hnumber := LexOptions.toNat_of_isNumberCharacter hdigit
    omega

theorem not_isNumberCharacter_of_isBlank (h : isBlank c) : ¬ Lexeme.isNumberCharacter c := by
  intro hn
  have hblank := toNat_of_isBlank h
  have hnumber := LexOptions.toNat_of_isNumberCharacter hn
  omega

theorem numberFault_of_isBlank (h : isBlank c) (n : Nat) :
    Lexeme.numberFault n (c :: t) = none := by
  have hw : ¬ LexOptions.isWordCharacter {} c := not_isWordCharacter_of_isBlank h
  refine if_neg fun hc => hw ?_
  rcases hc with rfl | hc
  · rfl
  · simp [LexOptions.isWordCharacter, LexOptions.isLetter, hc]

theorem isBlank_of_extensible? {second : Char} {both alone : Kind}
    (h : Kind.extensible? c = some (second, both, alone)) : ¬ isBlank second := by
  unfold Kind.extensible? at h
  split at h <;> cases h <;> decide

theorem Gap.head?_append {p : Char → Prop} (hw : w.Gap) (hb : ∀ c, isBlank c → p c)
    (hs : ∀ c ∈ s.head?, p c) : ∀ c ∈ (s ++ (w ++ t)).head?, p c := by
  obtain ⟨b, w, rfl⟩ := List.exists_cons_of_ne_nil hw.nonempty
  cases s with
  | nil =>
      rintro _ ⟨⟩
      exact hb b (hw.blank b (List.mem_cons_self ..))
  | cons d s => exact hs

end Text

theorem Cut.append (h : Cut o c behind x) (hf : x.fault = none) (hw : w.Gap) (t : Text) :
    Cut o c (behind ++ (w ++ t)) { x with rest := x.rest ++ (w ++ t) } := by
  cases h with
  | mark hc => exact .mark hc
  | pair hc => exact .pair hc
  | @single _ second _ _ _ hc hr =>
      refine .single hc fun hs => ?_
      have hne : ∀ d ∈ (behind ++ (w ++ t)).head?, d ≠ second := by
        refine hw.head?_append (fun d hd => ?_) (fun d hd => ?_)
        · rintro rfl
          exact Text.isBlank_of_extensible? hc hd
        · rintro rfl
          exact hr hd
      exact hne second hs rfl
  | @closedString content rest hq =>
      have hcut : Cut o '\'' (content ++ '\'' :: (rest ++ (w ++ t))) _ := .closedString hq
      simpa using hcut
  | openString => exact absurd hf (Lexeme.stringFault_ne_none _)
  | @word _ tail rest hc ht hr =>
      have hcut : Cut o c (tail ++ (rest ++ (w ++ t))) _ :=
        .word hc ht (hw.head?_append (fun _ => Text.not_isWordCharacter_of_isBlank) hr)
      simpa using hcut
  | @number _ tail rest hc ht hr =>
      have hcut : Cut o c (tail ++ (rest ++ (w ++ t))) _ :=
        .number hc ht (hw.head?_append (fun _ => Text.not_isNumberCharacter_of_isBlank) hr)
      have hfault : Lexeme.numberFault (tail.length + 1) (rest ++ (w ++ t)) = none := by
        obtain ⟨b, w, rfl⟩ := List.exists_cons_of_ne_nil hw.nonempty
        cases rest with
        | nil => exact Text.numberFault_of_isBlank (hw.blank b (List.mem_cons_self ..)) _
        | cons d rest => exact hf
      rw [hfault] at hcut
      dsimp only at hf
      simpa [hf] using hcut
  | @closedName name rest hc hb =>
      have hcut : Cut o o.boundary (name ++ o.boundary :: (rest ++ (w ++ t))) _ := .closedName hc hb
      simpa using hcut
  | openName => simp at hf
  | invalid => simp at hf

theorem Cut.token_shifted (h : Cut o c behind x) (n start : Nat) :
    x.token (n + start) = (x.token start).shifted n := by
  obtain ⟨tail, ht⟩ := h.exists_text_eq
  simp only [Lexeme.token, Token.shifted, ht, List.length_cons, Token.mk.injEq, true_and, and_true]
  split <;> omega

theorem Lexeme.errorAt_shifted (x : Lexeme) (n start : Nat) :
    x.errorAt (n + start) = (x.errorAt start).map (LexError.shifted n) := by
  unfold errorAt
  cases x.fault with
  | none => rfl
  | some fault => simp [LexError.shifted, Nat.add_assoc]

namespace Scans

theorem shifted (h : Scans o passed t r) (n : Nat) : Scans o (n + passed) t (r.shifted n) := by
  induction h with
  | @blank passed t ht =>
      have hscan : Scans o (n + passed) t _ := .blank ht
      simpa [Lexed.shifted, Token.shifted, Token.finish, Nat.add_assoc] using hscan
  | @invalid passed start blanks c behind x hb hc hs hx hk =>
      have hs' : n + start = n + passed + blanks.length := by omega
      have hscan := Scans.invalid hb hc hs' hx hk
      rwa [hx.token_shifted, x.errorAt_shifted] at hscan
  | @lexeme passed start blanks c behind x more hb hc hs hx hk hm ih =>
      have hs' : n + start = n + passed + blanks.length := by omega
      rw [← Nat.add_assoc] at ih
      have hscan := Scans.lexeme hb hc hs' hx hk ih
      rw [hx.token_shifted, x.errorAt_shifted] at hscan
      simpa [Lexed.shifted, Option.map_or] using hscan

theorem prepend (h : Scans o (passed + w.length) t r) (hw : ∀ c ∈ w, Text.isBlank c) :
    Scans o passed (w ++ t) r := by
  generalize hp : passed + w.length = start at h
  cases h with
  | @blank _ t ht =>
      have hscan : Scans o passed (w ++ t) _ := .blank (List.forall_mem_append.mpr ⟨hw, ht⟩)
      rwa [List.length_append, ← Nat.add_assoc, hp] at hscan
  | @invalid _ stop blanks c behind x hb hc hs hx hk =>
      have hs' : stop = passed + (w ++ blanks).length := by
        rw [List.length_append]
        omega
      rw [← List.append_assoc]
      exact .invalid (List.forall_mem_append.mpr ⟨hw, hb⟩) hc hs' hx hk
  | @lexeme _ stop blanks c behind x more hb hc hs hx hk hm =>
      have hs' : stop = passed + (w ++ blanks).length := by
        rw [List.length_append]
        omega
      rw [← List.append_assoc]
      exact .lexeme (List.forall_mem_append.mpr ⟨hw, hb⟩) hc hs' hx hk hm

theorem append (h : Scans o passed s r) (he : r.error = none) (hw : w.Gap) :
    ∃ front, r.tokens = front ++ [.finish (passed + s.length)] ∧ ∀ t r',
      Scans o (passed + (s ++ w).length) t r' →
        Scans o passed (s ++ (w ++ t)) { tokens := front ++ r'.tokens, error := r'.error } := by
  induction h with
  | @blank passed s hs =>
      refine ⟨[], rfl, fun t r' ht => ?_⟩
      rw [← List.append_assoc]
      exact ht.prepend (List.forall_mem_append.mpr ⟨hs, hw.blank⟩)
  | invalid hb hc hs hx hk =>
      exact absurd hk (hx.kind_ne_invalid (by simpa [Lexeme.errorAt] using he))
  | @lexeme passed start blanks c behind x more hb hc hs hx hk hm ih =>
      obtain ⟨hf, he⟩ := Option.or_eq_none_iff.mp he
      obtain ⟨front, hfront, hjoin⟩ := ih he
      have hlength := congrArg List.length hx.text_append_rest
      simp only [List.length_append, List.length_cons] at hlength
      refine ⟨x.token start :: front, ?_, fun t r' ht => ?_⟩
      · have hend : start + x.text.length + x.rest.length =
            passed + (blanks ++ c :: behind).length := by
          simp only [List.length_append, List.length_cons]
          omega
        rw [hfront, hend, List.cons_append]
      · have hfault : x.fault = none := by simpa [Lexeme.errorAt] using hf
        have hend : start + x.text.length + (x.rest ++ w).length =
            passed + (blanks ++ c :: behind ++ w).length := by
          simp only [List.length_append, List.length_cons]
          omega
        have hscan := Scans.lexeme hb hc hs (hx.append hfault hw t) hk (hjoin t r' (hend ▸ ht))
        simpa [Lexeme.token, Lexeme.errorAt, hfault] using hscan

end Scans

theorem lex_append (hs : (lex o s).error = none) (hw : w.Gap)
    (ht : (∃ c ∈ t, ¬ Text.isBlank c) ∨ o.allowEmpty = true) :
    ∃ front, (lex o s).tokens = front ++ [.finish s.length] ∧
      (lex o (s ++ w ++ t)).tokens =
        front ++ (lex o t).tokens.map (Token.shifted (s ++ w).length) ∧
      (lex o (s ++ w ++ t)).error = (lex o t).error.map (LexError.shifted (s ++ w).length) := by
  obtain ⟨front, hfront, hjoin⟩ := (scans_of_error_eq_none hs).append hs hw
  obtain ⟨r, hr⟩ := exists_scans o 0 t
  have hmoved : Scans o (0 + (s ++ w).length) t (r.shifted (s ++ w).length) := by
    rw [Nat.zero_add]
    exact hr.shifted (s ++ w).length
  have hscan := hjoin t _ hmoved
  have hvisible : o.allowEmpty ∨ ∃ c ∈ s ++ (w ++ t), ¬ Text.isBlank c := by
    rcases ht with ⟨c, hc, hb⟩ | ha
    · exact .inr ⟨c, by simp [hc], hb⟩
    · exact .inl ha
  refine ⟨front, by simpa using hfront, ?_⟩
  rw [List.append_assoc, hscan.lex_eq hvisible, hr.lex_eq ht.symm]
  exact ⟨rfl, rfl⟩

theorem lex_append_words :
    (lex {} ['a', '=']).error = none ∧
      (lex {} ['1', '_']).error = some ⟨.identifierAfterNumber '_', 1⟩ ∧
      (lex {} ['a', '=', ' ', '\t', '1', '_']).error = some ⟨.identifierAfterNumber '_', 5⟩ := by
  have hs : (lex {} ['a', '=']).error = none := by decide +kernel
  have ht : (lex {} ['1', '_']).error = some ⟨.identifierAfterNumber '_', 1⟩ := by decide +kernel
  have hgap : Text.Gap [' ', '\t'] :=
    ⟨by decide, List.forall_mem_cons.mpr ⟨by decide, List.forall_mem_singleton.mpr (by decide)⟩⟩
  obtain ⟨-, -, -, he⟩ := lex_append (t := ['1', '_']) hs hgap (.inl ⟨'1', by decide, by decide⟩)
  rw [ht] at he
  exact ⟨hs, ht, he⟩

end RuleLang
