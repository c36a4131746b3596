import Mathlib.Data.List.Forall2
import RuleLang.Proofs.Lexing.Scan

namespace RuleLang

structure Span where
  start : Nat
  stop : Nat
  deriving DecidableEq, Repr

namespace Span

def Contains (s : Span) (i : Nat) : Prop :=
  s.start ≤ i ∧ i < s.stop

def text (s : Span) (source : Text) : Text :=
  (source.drop s.start).take (s.stop - s.start)

end Span

def Kind.citedBehind : List Kind :=
  [.ident, .trueWord, .falseWord, .numeric, .string, .openParen, .closeParen, .openBrace,
    .closeBrace, .comma, .plus, .minus, .asterisk, .slash]

def Kind.citedInside : List Kind :=
  [.assign, .eq, .bang, .ne, .lt, .le, .gt, .ge, .bitAnd, .and, .bitOr, .or, .invalid]

structure Occupies (source : Text) (t : Token) (s : Span) : Prop where
  inside : s.stop ≤ source.length
  literal : t.literal = s.text source
  nonempty : t.kind ≠ .finish → s.start < s.stop
  behind : t.kind ∈ Kind.citedBehind → t.offset = s.stop
  last : t.kind ∈ Kind.citedInside → t.offset + 1 = s.stop
  finish : t.kind = .finish → t.literal = [] ∧ t.offset = source.length ∧
    s = ⟨source.length, source.length⟩

structure Covers (source : Text) (onset : Nat) (tokens : List Token) (spans : List Span) :
    Prop where
  occupied : List.Forall₂ (Occupies source) tokens spans
  ordered : spans.Pairwise fun a b => a.stop ≤ b.start
  onward : ∀ s ∈ spans, onset ≤ s.start
  blank : ∀ i c, onset ≤ i → source[i]? = some c → (∀ s ∈ spans, ¬ s.Contains i) →
    ((∃ s ∈ spans, i < s.start) ∨ ∃ t, tokens.getLast? = some t ∧ t.kind = .finish) →
      Text.isBlank c

theorem Kind.citesLast_iff {k : Kind} :
    (k ∈ citedInside ↔ k.citesLast) ∧ (k ∈ citedBehind → k.citesLast = false) := by
  cases k <;> decide

theorem Cut.occupies {o : LexOptions} {c : Char} {behind : Text} {x : Lexeme}
    (h : Cut o c behind x) (before : Text) :
    Occupies (before ++ c :: behind) (x.token before.length)
      ⟨before.length, before.length + x.text.length⟩ := by
  obtain ⟨tail, ht⟩ := h.exists_text_eq
  have hsource : before ++ c :: behind = before ++ (x.text ++ x.rest) := by
    rw [h.text_append_rest]
  have hpos : 0 < x.text.length := by simp [ht]
  rw [hsource]
  exact
    { inside := by simp
      literal := by simp [Span.text, Lexeme.token]
      nonempty := fun _ => by dsimp only; omega
      behind := fun hk => by
        have hc : x.kind.citesLast = false := Kind.citesLast_iff.2 hk
        simp [Lexeme.token, hc]
      last := fun hk => by
        have hc : x.kind.citesLast := Kind.citesLast_iff.1.mp hk
        simp only [Lexeme.token, hc, if_true]
        omega
      finish := fun hk => absurd hk h.kind_ne_finish }

theorem occupies_finish (source : Text) :
    Occupies source (.finish source.length) ⟨source.length, source.length⟩ where
  inside := le_rfl
  literal := by simp [Span.text, Token.finish]
  nonempty := fun h => absurd rfl h
  behind := fun _ => rfl
  last := fun h => by simp [Token.finish, Kind.citedInside] at h
  finish := fun _ => ⟨rfl, rfl, rfl⟩

namespace Covers

variable {source : Text} {passed : Nat} {tokens : List Token} {spans : List Span}

theorem nil (source : Text) (passed : Nat) : Covers source passed [] [] where
  occupied := .nil
  ordered := .nil
  onward := by simp
  blank := by simp

theorem finish (h : ∀ i c, passed ≤ i → source[i]? = some c → Text.isBlank c)
    (hp : passed ≤ source.length) :
    Covers source passed [.finish source.length] [⟨source.length, source.length⟩] where
  occupied := .cons (occupies_finish source) .nil
  ordered := List.pairwise_singleton _ _
  onward := by simpa using hp
  blank := fun i c hi hc _ _ => h i c hi hc

theorem cons {t : Token} {start stop : Nat} (h : Covers source stop tokens spans)
    (ht : Occupies source t ⟨start, stop⟩) (hk : t.kind ≠ .finish) (hp : passed ≤ start)
    (hb : ∀ i c, passed ≤ i → i < start → source[i]? = some c → Text.isBlank c) :
    Covers source passed (t :: tokens) (⟨start, stop⟩ :: spans) where
  occupied := .cons ht h.occupied
  ordered := List.pairwise_cons.mpr ⟨h.onward, h.ordered⟩
  onward := by
    have hlt : start < stop := ht.nonempty hk
    intro s hs
    rcases List.mem_cons.mp hs with rfl | hs
    · exact hp
    · have hstop := h.onward s hs
      omega
  blank := by
    intro i c hi hc hout hlater
    have hfirst : ¬ (start ≤ i ∧ i < stop) := hout _ (List.mem_cons_self ..)
    by_cases hlt : i < start
    · exact hb i c hi hlt hc
    refine h.blank i c (by omega) hc (fun s hs => hout s (List.mem_cons_of_mem _ hs)) ?_
    rcases hlater with ⟨s, hs, his⟩ | ⟨u, hu, huk⟩
    · rcases List.mem_cons.mp hs with rfl | hs
      · exact absurd his hlt
      · exact .inl ⟨s, hs, his⟩
    · cases tokens with
      | nil =>
          obtain rfl : t = u := by simpa using hu
          exact absurd huk hk
      | cons v vs => exact .inr ⟨u, by simpa using hu, huk⟩

end Covers

theorem Text.mem_of_getElem?_append {before middle behind : Text} {i : Nat} {c : Char}
    (h : (before ++ (middle ++ behind))[i]? = some c) (hi : before.length ≤ i)
    (hm : i < before.length + middle.length) : c ∈ middle := by
  rw [List.getElem?_append_right hi, List.getElem?_append_left (by omega)] at h
  exact List.mem_of_getElem? h

theorem Scans.exists_covers {o : LexOptions} {passed : Nat} {t : Text} {r : Lexed}
    (h : Scans o passed t r) :
    ∀ before : Text, before.length = passed →
      ∃ spans, Covers (before ++ t) passed r.tokens spans := by
  induction h with
  | @blank passed t ht =>
      rintro before rfl
      rw [← List.length_append]
      refine ⟨_, .finish (fun i c hi hc => ht c ?_) (by simp)⟩
      rw [List.getElem?_append_right hi] at hc
      exact List.mem_of_getElem? hc
  | @invalid passed start blanks c behind x hb hc hs hx hk =>
      rintro before rfl
      subst hs
      have ho := hx.occupies (before ++ blanks)
      simp only [List.append_assoc, List.length_append] at ho
      exact ⟨_, (Covers.nil _ _).cons ho hx.kind_ne_finish (by omega) fun i d hi hlt hd =>
        hb d (Text.mem_of_getElem?_append hd hi hlt)⟩
  | @lexeme passed start blanks c behind x more hb hc hs hx hk hm ih =>
      rintro before rfl
      subst hs
      have ho := hx.occupies (before ++ blanks)
      obtain ⟨spans, hspans⟩ := ih (before ++ blanks ++ x.text) (by simp [Nat.add_assoc])
      rw [List.append_assoc _ x.text, hx.text_append_rest] at hspans
      simp only [List.append_assoc, List.length_append] at ho hspans
      exact ⟨_, hspans.cons ho hx.kind_ne_finish (by omega) fun i d hi hlt hd =>
        hb d (Text.mem_of_getElem?_append hd hi hlt)⟩

theorem Scans.finish_last {o : LexOptions} {passed : Nat} {t : Text} {r : Lexed}
    (h : Scans o passed t r) : r.tokens.Pairwise fun t _ => t.kind ≠ .finish := by
  induction h with
  | blank => exact List.pairwise_singleton _ _
  | invalid => exact List.pairwise_singleton _ _
  | lexeme _ _ _ hx _ _ ih => exact List.pairwise_cons.mpr ⟨fun _ _ => hx.kind_ne_finish, ih⟩

theorem Scans.exists_last {o : LexOptions} {passed : Nat} {t : Text} {r : Lexed}
    (h : Scans o passed t r) :
    ∃ u, r.tokens.getLast? = some u ∧ (u.kind = .finish ∨ u.kind = .invalid) := by
  induction h with
  | blank => exact ⟨_, rfl, .inl rfl⟩
  | invalid _ _ _ _ hk => exact ⟨_, rfl, .inr hk⟩
  | lexeme _ _ _ _ _ _ ih =>
      obtain ⟨u, hu, hk⟩ := ih
      exact ⟨u, by simp [List.getLast?_cons, hu], hk⟩

namespace Occupies

variable {source : Text} {t u : Token} {a b : Span}

theorem cited (k : Kind) : k = .finish ∨ k ∈ Kind.citedBehind ∨ k ∈ Kind.citedInside := by
  cases k <;> decide

theorem offset_le_stop (h : Occupies source t a) : t.offset ≤ a.stop := by
  rcases cited t.kind with hk | hk | hk
  · obtain ⟨-, ho, rfl⟩ := h.finish hk
    exact le_of_eq ho
  · exact le_of_eq (h.behind hk)
  · have ho := h.last hk
    omega

theorem start_le_offset (h : Occupies source t a) : a.start ≤ t.offset := by
  rcases cited t.kind with hk | hk | hk
  · obtain ⟨-, ho, rfl⟩ := h.finish hk
    exact le_of_eq ho.symm
  · have hlt := h.nonempty (by rintro heq; simp [heq, Kind.citedBehind] at hk)
    have ho := h.behind hk
    omega
  · have hlt := h.nonempty (by rintro heq; simp [heq, Kind.citedInside] at hk)
    have ho := h.last hk
    omega

theorem stop_unique (ha : Occupies source t a) (hb : Occupies source t b) : a.stop = b.stop := by
  rcases cited t.kind with hk | hk | hk
  · rw [(ha.finish hk).2.2, (hb.finish hk).2.2]
  · rw [← ha.behind hk, ← hb.behind hk]
  · rw [← ha.last hk, ← hb.last hk]

theorem offset_le_and_ne (ht : Occupies source t a) (hu : Occupies source u b)
    (hab : a.stop ≤ b.start) (hk : t.kind ≠ .finish) : t.offset ≤ u.offset ∧ t ≠ u := by
  refine ⟨ht.offset_le_stop.trans (hab.trans hu.start_le_offset), ?_⟩
  rintro rfl
  have hlt := hu.nonempty hk
  have heq := ht.stop_unique hu
  omega

end Occupies

theorem exists_occupies_of_mem {source : Text} {t : Token} {tokens : List Token}
    {spans : List Span} (h : List.Forall₂ (Occupies source) tokens spans) (ht : t ∈ tokens) :
    ∃ s ∈ spans, Occupies source t s := by
  induction h with
  | nil => cases ht
  | @cons u s tokens spans hu _ ih =>
      rcases List.mem_cons.mp ht with rfl | ht
      · exact ⟨s, List.mem_cons_self .., hu⟩
      · obtain ⟨b, hb, hub⟩ := ih ht
        exact ⟨b, List.mem_cons_of_mem _ hb, hub⟩

theorem Covers.pairwise {source : Text} {onset : Nat} {tokens : List Token} {spans : List Span}
    (h : Covers source onset tokens spans) (hf : tokens.Pairwise fun t _ => t.kind ≠ .finish) :
    tokens.Pairwise fun t u => t.offset ≤ u.offset ∧ t ≠ u := by
  obtain ⟨ho, hs, -, -⟩ := h
  induction ho with
  | nil => exact .nil
  | @cons t s tokens spans ht hrest ih =>
      obtain ⟨hfirst, hf⟩ := List.pairwise_cons.mp hf
      obtain ⟨hnext, hs⟩ := List.pairwise_cons.mp hs
      refine List.pairwise_cons.mpr ⟨fun u hu => ?_, ih hf hs⟩
      obtain ⟨b, hb, hub⟩ := exists_occupies_of_mem hrest hu
      exact ht.offset_le_and_ne hub (hnext b hb) (hfirst u hu)

theorem lex_pairwise (o : LexOptions) (source : Text) :
    (lex o source).tokens.Pairwise fun t u => t.offset ≤ u.offset ∧ t ≠ u := by
  rcases lex_cases o source with ⟨-, hl⟩ | h
  · rw [hl]
    exact .nil
  · obtain ⟨spans, hspans⟩ := h.exists_covers [] rfl
    exact hspans.pairwise h.finish_last

theorem lex_nodup (o : LexOptions) (source : Text) : (lex o source).tokens.Nodup := by
  apply (lex_pairwise o source).imp
  intro t u h
  exact h.2

theorem lex_covers (o : LexOptions) (source : Text) :
    (∃ spans, Covers source 0 (lex o source).tokens spans) ∧
      ((lex o source).tokens.Pairwise fun t u => t.offset ≤ u.offset ∧ t ≠ u) ∧
      ((∀ c ∈ source, Text.isBlank c) ∨ ∃ t, (lex o source).tokens.getLast? = some t ∧
        (t.kind = .finish ∨ t.kind = .invalid)) := by
  have hp := lex_pairwise o source
  rcases lex_cases o source with ⟨hb, hl⟩ | h
  · refine ⟨⟨[], ?_⟩, hp, .inl hb⟩
    rw [hl]
    exact .nil source 0
  · exact ⟨h.exists_covers [] rfl, hp, .inr h.exists_last⟩

end RuleLang
