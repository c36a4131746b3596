import RuleLang.Proofs.Lexing.Blame
import RuleLang.Proofs.Lexing.Classes
import RuleLang.Proofs.Lexing.Joining

namespace RuleLang

/-- Scanning the first text, the lexer passes the second and stands in front of the third, with
every lexeme it began behind it. -/
inductive Reaches (o : LexOptions) : Text → Text → Text → Prop
  | here (t : Text) : Reaches o t [] t
  | blank {c : Char} {t before rest : Text} (hc : Text.isBlank c) (h : Reaches o t before rest) :
      Reaches o (c :: t) (c :: before) rest
  | lexeme {c : Char} {behind before rest : Text} {x : Lexeme} (hc : ¬ Text.isBlank c)
      (hs : o.Starts c) (hx : Cut o c behind x) (h : Reaches o x.rest before rest) :
      Reaches o (c :: behind) (x.text ++ before) rest

/-- The lexer gives these tokens one by one, then none, and has this error from then on. -/
structure Lexer.Yields (l : Lexer) (r : Lexed) : Prop where
  next : ∀ i, (l.after i).next.1 = r.tokens[i]?
  error : ∀ i, r.tokens.length ≤ i → (l.after i).error = r.error

def Kind.ends : List Kind :=
  [.finish, .invalid]

variable {o : LexOptions} {c : Char} {behind before rest s : Text} {x : Lexeme} {passed : Nat}
  {r : Lexed} {t u : Token}

namespace Lexer.Yields

variable {l l' : Lexer}

theorem of_finished (h : l.finished = true) : l.Yields { tokens := [], error := l.error } := by
  have hafter (i : Nat) : l.after i = l := by
    induction i with
    | zero => rfl
    | succ i ih => simp [after, Lexer.next, h, ih]
  constructor
  · intro i
    simp [hafter i, Lexer.next, h]
  · intro i _
    rw [hafter i]

theorem cons (hn : l.next = (some t, l')) (h : l'.Yields r) :
    l.Yields { tokens := t :: r.tokens, error := r.error } := by
  constructor
  · intro i
    cases i with
    | zero => simp [after, hn]
    | succ i => simpa [after, hn] using h.next i
  · intro i hi
    cases i with
    | zero => simp at hi
    | succ i => simpa [after, hn] using h.error i (by simpa using hi)

end Lexer.Yields

theorem Scans.yields (h : Scans o passed s r) (error : Option LexError) :
    Lexer.Yields { options := o, rest := s, passed, error }
      { tokens := r.tokens, error := error.or r.error } := by
  induction h generalizing error with
  | blank ht => simpa using (Lexer.Yields.of_finished rfl).cons (Lexer.next_blank rfl ht)
  | invalid hb hc hs hx hk =>
      subst hs
      exact (Lexer.Yields.of_finished (by simpa using hk)).cons
        (Lexer.next_lexeme rfl rfl hb hc hx)
  | lexeme hb hc hs hx hk hm ih =>
      subst hs
      rw [← Option.or_assoc]
      refine (ih _).cons ?_
      rw [Lexer.next_lexeme rfl rfl hb hc hx]
      simp [hk]

theorem lex_yields (o : LexOptions) (source : Text) :
    (Lexer.start o source).Yields (lex o source) := by
  by_cases hb : o.allowEmpty ∨ ∃ c ∈ source, ¬ Text.isBlank c
  · obtain ⟨r, hr⟩ := exists_scans o 0 source
    rw [hr.lex_eq hb, Lexer.start_eq hb]
    exact hr.yields none
  · simp only [not_or, not_exists, not_and, not_not] at hb
    have ha : o.allowEmpty = false := by simpa using hb.1
    rw [lex_refused ha hb.2, Lexer.start, if_pos (by simpa [ha] using hb.2)]
    exact .of_finished rfl

theorem Scans.length_tokens_le (h : Scans o passed s r) : r.tokens.length ≤ s.length + 1 := by
  induction h with
  | blank => simp
  | invalid => simp
  | lexeme hb hc hs hx hk hm ih =>
      have hrest := hx.length_rest_le
      simp only [List.length_append, List.length_cons]
      omega

theorem Scans.exists_end (h : Scans o passed s r) :
    ∃ front t, r.tokens = front ++ [t] ∧ t.kind ∈ Kind.ends ∧ ∀ u ∈ front, u.kind ∉ Kind.ends := by
  induction h with
  | blank => exact ⟨[], _, rfl, by simp [Token.finish, Kind.ends], List.forall_mem_nil _⟩
  | invalid _ _ _ _ hk =>
      exact ⟨[], _, rfl, by simp [Lexeme.token, Kind.ends, hk], List.forall_mem_nil _⟩
  | @lexeme _ start _ _ _ x _ _ _ _ hx hk _ ih =>
      obtain ⟨front, t, ht, hend, hfront⟩ := ih
      have hfirst : (x.token start).kind ∉ Kind.ends := by
        simp [Lexeme.token, Kind.ends, hk, hx.kind_ne_finish]
      exact ⟨x.token start :: front, t, by rw [ht, List.cons_append], hend,
        List.forall_mem_cons.mpr ⟨hfirst, hfront⟩⟩

theorem Cut.kind_eq_invalid_iff (h : Cut o c behind x) : x.kind = .invalid ↔ ¬ o.Starts c := by
  have hfaultless := h.kind_ne_invalid
  have hmark (hc : c ∈ Lexeme.marks) : ¬¬ o.Starts c := not_not_intro (.inl hc)
  cases h with
  | mark hm =>
      exact iff_of_false (hfaultless rfl) (hmark (Lexeme.mem_marks_iff.mpr (.inl (by simp [hm]))))
  | pair he | single he =>
      refine iff_of_false (hfaultless rfl) (hmark (Lexeme.mem_marks_iff.mpr (.inr (.inl ?_))))
      simp [he]
  | closedString | openString => exact iff_of_false (by simp) (hmark (by decide))
  | word hl => exact iff_of_false (hfaultless rfl) (not_not_intro (.inr (.inl hl)))
  | number hn => exact iff_of_false (by simp) (not_not_intro (.inr (.inr (.inl hn))))
  | closedName | openName =>
      exact iff_of_false (by simp) (not_not_intro (.inr (.inr (.inr rfl))))
  | invalid hu hb => exact iff_of_true rfl (LexOptions.not_starts_iff.mpr ⟨hu, hb⟩)

def Token.stray (c : Char) (offset : Nat) : Token where
  kind := .invalid
  literal := [c]
  offset := offset

theorem Cut.token_of_invalid (h : Cut o c behind x) (hk : x.kind = .invalid) (start : Nat) :
    x.token start = .stray c start := by
  obtain ⟨hu, hb⟩ := LexOptions.not_starts_iff.mp (h.kind_eq_invalid_iff.mp hk)
  have hinvalid : Cut o c behind _ := .invalid hu hb
  have hx : x = _ := h.ofText_eq.symm.trans hinvalid.ofText_eq
  rw [hx]
  simp [Lexeme.token, Token.stray, Kind.citesLast]

namespace Reaches

theorem eq_append (h : Reaches o s before rest) : s = before ++ rest := by
  induction h with
  | here => rfl
  | blank _ _ ih => rw [ih, List.cons_append]
  | lexeme _ _ hx _ ih => rw [← hx.text_append_rest, List.append_assoc, ← ih]

theorem blanks {w : Text} (hw : ∀ d ∈ w, Text.isBlank d) (h : Reaches o s before rest) :
    Reaches o (w ++ s) (w ++ before) rest := by
  induction w with
  | nil => exact h
  | cons d w ih =>
      obtain ⟨hd, hw⟩ := List.forall_mem_cons.mp hw
      exact .blank hd (ih hw)

theorem exists_scans (h : Reaches o s before (c :: behind)) (hc : ¬ Text.isBlank c)
    (hs : ¬ o.Starts c) (passed : Nat) :
    ∃ r, Scans o passed s r ∧ .stray c (passed + before.length) ∈ r.tokens := by
  generalize hrest : c :: behind = rest at h
  induction h generalizing passed with
  | here t =>
      subst hrest
      obtain ⟨x, hx⟩ := Cut.exists_cut o c behind
      have hk := hx.kind_eq_invalid_iff.mpr hs
      refine ⟨_, .invalid (List.forall_mem_nil _) hc rfl hx hk, ?_⟩
      rw [hx.token_of_invalid hk]
      exact List.mem_singleton_self _
  | @blank d t before rest hd h ih =>
      obtain ⟨r, hr, hu⟩ := ih (passed + 1) hrest
      have hscan : Scans o passed ([d] ++ t) r := hr.prepend (List.forall_mem_singleton.mpr hd)
      refine ⟨r, hscan, ?_⟩
      rwa [List.length_cons, ← Nat.add_assoc, Nat.add_right_comm]
  | @lexeme d behind' before rest x hd hstarts hx h ih =>
      have hk : x.kind ≠ .invalid := fun hk => hx.kind_eq_invalid_iff.mp hk hstarts
      obtain ⟨r, hr, hu⟩ := ih (passed + x.text.length) hrest
      refine ⟨_, .lexeme (List.forall_mem_nil _) hd rfl hx hk hr, List.mem_cons_of_mem _ ?_⟩
      rwa [List.length_append, ← Nat.add_assoc]

end Reaches

theorem Scans.exists_reaches (h : Scans o passed s r) (hu : u ∈ r.tokens) (hk : u.kind = .invalid) :
    ∃ before c behind, Reaches o s before (c :: behind) ∧ ¬ Text.isBlank c ∧ ¬ o.Starts c ∧
      u = .stray c (passed + before.length) := by
  induction h with
  | blank =>
      obtain rfl := List.mem_singleton.mp hu
      cases hk
  | @invalid passed start blanks c behind x hb hc hs hx hk =>
      obtain rfl := List.mem_singleton.mp hu
      refine ⟨blanks, c, behind, ?_, hc, hx.kind_eq_invalid_iff.mp hk, ?_⟩
      · simpa using (Reaches.here (c :: behind)).blanks hb
      · rw [hx.token_of_invalid hk, hs]
  | @lexeme passed start blanks c behind x more hb hc hs hx hk' hm ih =>
      rcases List.mem_cons.mp hu with rfl | hu
      · exact absurd hk hk'
      · obtain ⟨before, d, rest, hreach, hd, hstarts, hu⟩ := ih hu
        have hstart : o.Starts c := not_not.mp (hk' ∘ hx.kind_eq_invalid_iff.mpr)
        refine ⟨_, d, rest, (hreach.lexeme hc hstart hx).blanks hb, hd, hstarts, ?_⟩
        rw [hu, hs, List.length_append, List.length_append]
        simp only [Nat.add_assoc]

theorem Scans.error_ne_none (h : Scans o passed s r) (hu : u ∈ r.tokens) (hk : u.kind = .invalid) :
    r.error ≠ none := by
  induction h with
  | blank =>
      obtain rfl := List.mem_singleton.mp hu
      cases hk
  | invalid hb hc hs hx hk' =>
      intro he
      exact hx.kind_ne_invalid (by simpa [Lexeme.errorAt] using he) hk'
  | lexeme hb hc hs hx hk' hm ih =>
      rcases List.mem_cons.mp hu with rfl | hu
      · exact absurd hk hk'
      · intro he
        exact ih hu (Option.or_eq_none_iff.mp he).2

theorem lex_ends (o : LexOptions) (source : Text) :
    (lex o source).tokens.length ≤ source.length + 1 ∧
      (Lexer.start o source).Yields (lex o source) ∧
      ((lex o source).tokens = [] ↔ (∀ c ∈ source, Text.isBlank c) ∧ o.allowEmpty = false) ∧
      ((lex o source).tokens ≠ [] → ∃ front t, (lex o source).tokens = front ++ [t] ∧
        t.kind ∈ Kind.ends ∧ ∀ u ∈ front, u.kind ∉ Kind.ends) ∧
      (∀ u, (u ∈ (lex o source).tokens ∧ u.kind = .invalid) ↔
        ∃ before c behind, Reaches o source before (c :: behind) ∧ ¬ Text.isBlank c ∧
          ¬ o.Starts c ∧ u = .stray c before.length) ∧
      ((∃ u ∈ (lex o source).tokens, u.kind = .invalid) → (lex o source).error ≠ none) := by
  have hyields := lex_yields o source
  by_cases hb : o.allowEmpty ∨ ∃ c ∈ source, ¬ Text.isBlank c
  · obtain ⟨r, hr⟩ := exists_scans o 0 source
    rw [hr.lex_eq hb] at hyields ⊢
    obtain ⟨front, t, ht, hend, hfront⟩ := hr.exists_end
    refine ⟨hr.length_tokens_le, hyields, iff_of_false (by simp [ht]) ?_,
      fun _ => ⟨front, t, ht, hend, hfront⟩, fun u => ⟨?_, ?_⟩, ?_⟩
    · rintro ⟨hall, ha⟩
      rcases hb with hb | ⟨c, hc, hb⟩
      · simp [ha] at hb
      · exact hb (hall c hc)
    · rintro ⟨hu, hk⟩
      simpa using hr.exists_reaches hu hk
    · rintro ⟨before, c, behind, hreach, hc, hs, rfl⟩
      obtain ⟨r', hr', hu⟩ := hreach.exists_scans hc hs 0
      rw [Nat.zero_add, ← hr'.lex_eq hb, hr.lex_eq hb] at hu
      exact ⟨hu, rfl⟩
    · rintro ⟨u, hu, hk⟩
      exact hr.error_ne_none hu hk
  · simp only [not_or, not_exists, not_and, not_not] at hb
    have ha : o.allowEmpty = false := by simpa using hb.1
    rw [lex_refused ha hb.2] at hyields ⊢
    refine ⟨Nat.zero_le _, hyields, iff_of_true rfl ⟨hb.2, ha⟩, fun h => absurd rfl h,
      fun u => iff_of_false (by simp) ?_, by simp⟩
    -- Whatever is reached stands in the source, and that is blank.
    rintro ⟨before, c, behind, hreach, hc, -, -⟩
    exact hc (hb.2 c (by simp [hreach.eq_append]))

end RuleLang
