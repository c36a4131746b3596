import RuleLang.Proofs.Lexing.Wellformed

namespace RuleLang

namespace Lexer

def after : Nat → Lexer → Lexer
  | 0, l => l
  | n + 1, l => after n l.next.2

structure Blames (l : Lexer) (source : Text) (e : LexError) (front : List Token) (t : Token) :
    Prop where
  sound : ∀ u ∈ front, u.Wellformed l.options source
  faulty : ¬ t.Wellformed l.options source
  near : t.span.start ≤ e.offset ∧ e.offset ≤ t.span.stop
  silent : ∀ n ≤ front.length, (l.after n).error = none
  made : (l.after front.length).next.1 = some t
  kept : ∀ n, front.length < n → (l.after n).error = some e

variable {l l' : Lexer} {source : Text} {e : LexError} {front : List Token} {t u : Token}

theorem error_next (h : l.error = some e) : l.next.2.error = some e := by
  unfold next
  split
  · exact h
  · dsimp only
    split
    · exact h
    · simp [h]

theorem error_after (h : l.error = some e) (n : Nat) : (l.after n).error = some e := by
  induction n generalizing l with
  | zero => exact h
  | succ n ih => exact ih (error_next h)

namespace Blames

theorem head (hn : l.next = (some t, l')) (he : l.error = none) (he' : l'.error = some e)
    (ht : ¬ t.Wellformed l.options source)
    (ho : t.span.start ≤ e.offset ∧ e.offset ≤ t.span.stop) :
    l.Blames source e [] t where
  sound := List.forall_mem_nil _
  faulty := ht
  near := ho
  silent n hle := by
    obtain rfl := Nat.le_zero.mp hle
    exact he
  made := by rw [List.length_nil, after, hn]
  kept n hlt := by
    obtain ⟨n, rfl⟩ := Nat.exists_eq_succ_of_ne_zero (Nat.ne_zero_of_lt hlt)
    rw [after, hn]
    exact error_after he' n

theorem cons (h : l'.Blames source e front t) (hn : l.next = (some u, l')) (he : l.error = none)
    (ho : l'.options = l.options) (hu : u.Wellformed l.options source) :
    l.Blames source e (u :: front) t where
  sound := List.forall_mem_cons.mpr ⟨hu, ho ▸ h.sound⟩
  faulty := ho ▸ h.faulty
  near := h.near
  silent n hle := by
    cases n with
    | zero => exact he
    | succ n =>
        rw [after, hn]
        exact h.silent n (Nat.le_of_succ_le_succ hle)
  made := by
    rw [List.length_cons, after, hn]
    exact h.made
  kept n hlt := by
    obtain ⟨n, rfl⟩ := Nat.exists_eq_succ_of_ne_zero (Nat.ne_zero_of_lt hlt)
    rw [after, hn]
    exact h.kept n (Nat.lt_of_succ_lt_succ hlt)

end Blames

end Lexer

variable {o : LexOptions} {passed : Nat} {t : Text} {r : Lexed}

theorem Cut.blames {blanks behind before : Text} {c : Char} {x : Lexeme} {d : Nat} {f : LexFault}
    (hx : Cut o c behind x) (hb : ∀ d ∈ blanks, Text.isBlank d) (hc : ¬ Text.isBlank c)
    (hf : x.fault = some (d, f)) :
    Lexer.Blames { options := o, rest := blanks ++ c :: behind, passed := before.length }
      (before ++ (blanks ++ c :: behind)) ⟨f, before.length + blanks.length + d⟩ []
      (x.token (before.length + blanks.length)) := by
  have hle := hx.fault_le hf
  have hw := hx.fault_eq_none_iff (before ++ blanks)
  simp only [hf, reduceCtorEq, false_iff, List.append_assoc, List.length_append] at hw
  apply Lexer.Blames.head (Lexer.next_lexeme rfl rfl hb hc hx) rfl _ hw
  · rw [hx.span_token]
    dsimp only
    omega
  · simp [Lexeme.errorAt, hf]

theorem Scans.wellformed_or_blames (h : Scans o passed t r) :
    ∀ before : Text, before.length = passed →
      (r.error = none ∧ ∀ u ∈ r.tokens, u.Wellformed o (before ++ t)) ∨
        ∃ e front u back, r.error = some e ∧ r.tokens = front ++ u :: back ∧
          Lexer.Blames { options := o, rest := t, passed } (before ++ t) e front u := by
  induction h with
  | blank ht =>
      rintro before -
      refine .inl ⟨rfl, fun u hu => ?_⟩
      obtain rfl := List.mem_singleton.mp hu
      exact Token.wellformed_of_plain nofun nofun nofun rfl
  | @invalid passed start blanks c behind x hb hc hs hx hk =>
      rintro before rfl
      subst hs
      cases hf : x.fault with
      | none => exact absurd hk (hx.kind_ne_invalid hf)
      | some fault =>
          exact .inr ⟨_, [], _, [], by simp [Lexeme.errorAt, hf], rfl, hx.blames hb hc hf⟩
  | @lexeme passed start blanks c behind x more hb hc hs hx hk hm ih =>
      rintro before rfl
      subst hs
      cases hf : x.fault with
      | some fault =>
          exact .inr ⟨_, [], _, _, by simp [Lexeme.errorAt, hf], rfl, hx.blames hb hc hf⟩
      | none =>
          have hw := (hx.fault_eq_none_iff (before ++ blanks)).mp hf
          have hrest := ih (before ++ blanks ++ x.text) (by simp [Nat.add_assoc])
          rw [List.append_assoc _ x.text, hx.text_append_rest] at hrest
          simp only [List.append_assoc, List.length_append] at hw hrest
          have herror : (x.errorAt (before.length + blanks.length)).or more.error = more.error := by
            simp [Lexeme.errorAt, hf]
          rcases hrest with ⟨he, hall⟩ | ⟨e, front, u, back, he, hu, hblames⟩
          · exact .inl ⟨herror.trans he, List.forall_mem_cons.mpr ⟨hw, hall⟩⟩
          · -- The lexeme is faultless, so the lexer stands behind it without an error.
            refine .inr ⟨e, _ :: front, u, back, herror.trans he, congrArg _ hu, ?_⟩
            refine hblames.cons ?_ rfl rfl hw
            rw [Lexer.next_lexeme rfl rfl hb hc hx]
            simp only [hk, decide_false, Lexeme.errorAt, hf, Option.map_none, Option.or_none]

theorem lex_wellformed_or_blames (o : LexOptions) (source : Text) :
    Covers source 0 (lex o source).tokens ((lex o source).tokens.map Token.span) ∧
      ((lex o source).error = none ↔
        ((∃ c ∈ source, ¬ Text.isBlank c) ∨ o.allowEmpty = true) ∧
          ∀ t ∈ (lex o source).tokens, t.Wellformed o source) ∧
      ∀ e, (lex o source).error = some e → (∃ c ∈ source, ¬ Text.isBlank c) →
        ∃ front t back, (lex o source).tokens = front ++ t :: back ∧
          (Lexer.start o source).Blames source e front t := by
  by_cases hb : (∃ c ∈ source, ¬ Text.isBlank c) ∨ o.allowEmpty = true
  · obtain ⟨r, hr⟩ := exists_scans o 0 source
    obtain ⟨spans, hspans⟩ := hr.exists_covers [] rfl
    rw [hr.lex_eq hb.symm, Lexer.start_eq hb.symm]
    refine ⟨hspans.eq_spans ▸ hspans, ?_⟩
    rcases hr.wellformed_or_blames [] rfl with ⟨he, hall⟩ | ⟨e, front, u, back, he, hu, hblames⟩
    · exact ⟨iff_of_true he ⟨hb, hall⟩, fun e he' => by simp [he] at he'⟩
    · have hmem : u ∈ r.tokens := hu ▸ by simp
      refine ⟨iff_of_false (by simp [he]) fun h => hblames.faulty (h.2 u hmem), fun e' he' _ => ?_⟩
      obtain rfl : e = e' := Option.some.inj (he.symm.trans he')
      exact ⟨front, u, back, hu, hblames⟩
  · have ha : o.allowEmpty = false := by simpa using fun h => hb (.inr h)
    have hblank : ∀ c ∈ source, Text.isBlank c := by simpa using fun h => hb (.inl h)
    rw [lex_refused ha hblank]
    exact ⟨.nil source 0, iff_of_false (by simp) fun h => hb h.1, fun _ _ h => absurd (.inl h) hb⟩

theorem blames_blankString :
    ∃ front t back, (lex {} ['1', '\'', ' ', '\'', '2', 'a']).tokens = front ++ t :: back ∧
      (Lexer.start {} ['1', '\'', ' ', '\'', '2', 'a']).Blames ['1', '\'', ' ', '\'', '2', 'a']
        ⟨.formatCharacter, 2⟩ front t :=
  (lex_wellformed_or_blames {} _).2.2 _ (by decide +kernel) ⟨'1', by decide, by decide⟩

end RuleLang
