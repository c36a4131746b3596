import RuleLang.Proofs.Lexing.Cut
import RuleLang.Token.Lexer

namespace RuleLang

inductive Scans (o : LexOptions) : Nat → Text → Lexed → Prop
  | blank {passed : Nat} {t : Text} (ht : ∀ c ∈ t, Text.isBlank c) :
      Scans o passed t { tokens := [.finish (passed + t.length)], error := none }
  | invalid {passed start : Nat} {blanks : Text} {c : Char} {behind : Text} {x : Lexeme}
      (hb : ∀ d ∈ blanks, Text.isBlank d) (hc : ¬ Text.isBlank c)
      (hs : start = passed + blanks.length) (hx : Cut o c behind x) (hk : x.kind = .invalid) :
      Scans o passed (blanks ++ c :: behind)
        { tokens := [x.token start], error := x.errorAt start }
  | lexeme {passed start : Nat} {blanks : Text} {c : Char} {behind : Text} {x : Lexeme}
      {more : Lexed} (hb : ∀ d ∈ blanks, Text.isBlank d) (hc : ¬ Text.isBlank c)
      (hs : start = passed + blanks.length) (hx : Cut o c behind x) (hk : x.kind ≠ .invalid)
      (hm : Scans o (start + x.text.length) x.rest more) :
      Scans o passed (blanks ++ c :: behind)
        { tokens := x.token start :: more.tokens
          error := (x.errorAt start).or more.error }

theorem Cut.length_rest_le {o : LexOptions} {c : Char} {behind : Text} {x : Lexeme}
    (h : Cut o c behind x) : x.rest.length ≤ behind.length := by
  obtain ⟨tail, ht⟩ := h.exists_text_eq
  have hl := congrArg List.length h.text_append_rest
  simp only [ht, List.length_append, List.length_cons] at hl
  omega

theorem exists_scans (o : LexOptions) (passed : Nat) (t : Text) : ∃ r, Scans o passed t r := by
  -- Induction on the length: what remains behind a lexeme is no tail of a known form.
  induction hn : t.length using Nat.strongRecOn generalizing passed t with
  | ind n ih =>
      obtain ⟨blanks, rest, rfl, hb, hr⟩ := exists_span Text.isBlank t
      cases rest with
      | nil => exact ⟨_, .blank (by simpa using hb)⟩
      | cons c behind =>
          obtain ⟨x, hx⟩ := Cut.exists_cut o c behind
          by_cases hk : x.kind = .invalid
          · exact ⟨_, .invalid hb (hr c rfl) rfl hx hk⟩
          · have hl := hx.length_rest_le
            simp only [List.length_append, List.length_cons] at hn
            obtain ⟨more, hm⟩ :=
              ih x.rest.length (by omega) (passed + blanks.length + x.text.length) x.rest rfl
            exact ⟨_, .lexeme hb (hr c rfl) rfl hx hk hm⟩

namespace Lexer

theorem take_finished {l : Lexer} (h : l.finished = true) (n : Nat) : l.take n = ([], l) := by
  cases n with
  | zero => rfl
  | succ n => simp [take, next, h]

theorem take_next {l l' : Lexer} {t : Token} (h : l.next = (some t, l')) (n : Nat) :
    l.take (n + 1) = (t :: (l'.take n).1, (l'.take n).2) := by
  simp [take, h]

theorem next_blank {l : Lexer} (hf : l.finished = false) (h : ∀ c ∈ l.rest, Text.isBlank c) :
    l.next = (some (.finish (l.passed + l.rest.length)),
      { l with rest := [], passed := l.passed + l.rest.length, finished := true }) := by
  simp [next, hf, List.dropWhile_eq_nil_iff.mpr h, List.takeWhile_eq_self_iff.mpr h]

theorem next_lexeme {l : Lexer} {blanks : Text} {c : Char} {behind : Text} {x : Lexeme}
    (hf : l.finished = false) (ht : l.rest = blanks ++ c :: behind)
    (hb : ∀ d ∈ blanks, Text.isBlank d) (hc : ¬ Text.isBlank c)
    (hx : Cut l.options c behind x) :
    l.next = (some (x.token (l.passed + blanks.length)),
      { l with
        rest := x.rest
        passed := l.passed + blanks.length + x.text.length
        error := l.error.or (x.errorAt (l.passed + blanks.length))
        finished := x.kind = .invalid }) := by
  have hd : ∀ d ∈ (c :: behind).head?, ¬ Text.isBlank d := by simpa using hc
  obtain ⟨h1, h2⟩ := span_append hb hd
  simp [next, hf, ht, h1, h2, hx.ofText_eq]

end Lexer

theorem Scans.take_eq {o : LexOptions} {passed : Nat} {t : Text} {r : Lexed}
    (h : Scans o passed t r) :
    ∀ n, t.length < n → ∀ error, ∃ last,
      Lexer.take n { options := o, rest := t, passed, error } = (r.tokens, last) ∧
        last.error = error.or r.error := by
  induction h with
  | @blank passed t ht =>
      intro n hn error
      obtain ⟨n, rfl⟩ := Nat.exists_eq_succ_of_ne_zero (Nat.ne_zero_of_lt hn)
      rw [Lexer.take_next (Lexer.next_blank rfl ht), Lexer.take_finished rfl]
      exact ⟨_, rfl, by simp⟩
  | @invalid passed start blanks c behind x hb hc hs hx hk =>
      intro n hn error
      obtain ⟨n, rfl⟩ := Nat.exists_eq_succ_of_ne_zero (Nat.ne_zero_of_lt hn)
      subst hs
      rw [Lexer.take_next (Lexer.next_lexeme rfl rfl hb hc hx),
        Lexer.take_finished (by simpa using hk)]
      exact ⟨_, rfl, rfl⟩
  | @lexeme passed start blanks c behind x more hb hc hs hx hk hm ih =>
      intro n hn error
      obtain ⟨n, rfl⟩ := Nat.exists_eq_succ_of_ne_zero (Nat.ne_zero_of_lt hn)
      subst hs
      have hl := hx.length_rest_le
      simp only [List.length_append, List.length_cons] at hn
      obtain ⟨last, ht, he⟩ :=
        ih n (by omega) (error.or (x.errorAt (passed + blanks.length)))
      rw [Lexer.take_next (Lexer.next_lexeme rfl rfl hb hc hx)]
      simp only [hk, decide_false, ht]
      exact ⟨last, rfl, by rw [he, Option.or_assoc]⟩

theorem Lexer.start_eq {o : LexOptions} {source : Text}
    (hb : o.allowEmpty ∨ ∃ c ∈ source, ¬ Text.isBlank c) :
    Lexer.start o source = { options := o, rest := source } := by
  refine if_neg ?_
  rcases hb with hb | ⟨c, hc, hb⟩
  · simp [hb]
  · simp only [Bool.and_eq_true, List.all_eq_true, not_and]
    exact fun hall => absurd (hall c hc) hb

theorem Scans.lex_eq {o : LexOptions} {source : Text} {r : Lexed} (h : Scans o 0 source r)
    (hb : o.allowEmpty ∨ ∃ c ∈ source, ¬ Text.isBlank c) : lex o source = r := by
  obtain ⟨last, ht, he⟩ := h.take_eq (source.length + 1) (Nat.lt_succ_self _) none
  simp only [lex, Lexer.start_eq hb, ht, he, Option.none_or]

theorem lex_refused {o : LexOptions} {source : Text} (ha : o.allowEmpty = false)
    (hb : ∀ c ∈ source, Text.isBlank c) :
    lex o source = { tokens := [], error := some ⟨.blankSource, 0⟩ } := by
  have hs : source.all Text.isBlank && !o.allowEmpty := by
    simpa [ha] using hb
  simp only [lex, Lexer.start, if_pos hs, Lexer.take_finished]

theorem lex_cases (o : LexOptions) (source : Text) :
    (∀ c ∈ source, Text.isBlank c) ∧
        lex o source = { tokens := [], error := some ⟨.blankSource, 0⟩ } ∨
      Scans o 0 source (lex o source) := by
  by_cases hb : o.allowEmpty ∨ ∃ c ∈ source, ¬ Text.isBlank c
  · obtain ⟨r, hr⟩ := exists_scans o 0 source
    right
    rwa [hr.lex_eq hb]
  · simp only [not_or, not_exists, not_and, not_not] at hb
    exact .inl ⟨hb.2, lex_refused (by simpa using hb.1) hb.2⟩

theorem scans_of_mem {o : LexOptions} {source : Text} {t : Token}
    (ht : t ∈ (lex o source).tokens) : Scans o 0 source (lex o source) := by
  obtain ⟨-, hl⟩ | hs := lex_cases o source
  · simp [hl] at ht
  · exact hs

theorem scans_of_error_eq_none {o : LexOptions} {source : Text}
    (he : (lex o source).error = none) : Scans o 0 source (lex o source) := by
  obtain ⟨-, hl⟩ | hs := lex_cases o source
  · simp [hl] at he
  · exact hs

end RuleLang
