import RuleLang.Proofs.Lexing.Cover
import RuleLang.Proofs.Lexing.Faultless

namespace RuleLang

def Token.span (t : Token) : Span :=
  let stop := t.offset + if t.kind.citesLast then 1 else 0
  ⟨stop - t.literal.length, stop⟩

structure Text.Quotable (o : LexOptions) (content : Text) : Prop where
  visible : ∀ c ∈ content, ¬ Text.isBlank c ∧ ¬ Text.isControl c
  nonempty : content ≠ [] ∨ o.allowEmpty = true
  named : content.head? = some o.boundary → content.getLast? = some o.boundary →
    o.names.accepts (Text.unwrap o.boundary content) = true

structure Token.Wellformed (o : LexOptions) (source : Text) (t : Token) : Prop where
  valid : t.kind ≠ .invalid
  quoted : t.kind = .string →
    ∃ content, t.literal = '\'' :: (content ++ ['\'']) ∧ Text.Quotable o content
  named : t.delimited = true →
    ∃ name, t.literal = o.boundary :: (name ++ [o.boundary]) ∧ o.names.accepts name = true
  apart : t.kind = .numeric → t.delimited = false →
    ∀ c ∈ source[t.span.stop]?, ¬ (c = '_' ∨ c.isAlpha = true)

variable {o : LexOptions} {c : Char} {behind source : Text} {x : Lexeme} {t : Token}

theorem Occupies.eq_span {s : Span} (h : Occupies source t s) : s = t.span := by
  have hstop : s.stop = t.span.stop := by
    rcases Occupies.cited t.kind with hk | hk | hk
    · obtain ⟨-, ho, rfl⟩ := h.finish hk
      simp [Token.span, hk, ho, Kind.citesLast]
    · simp [Token.span, Kind.citesLast_iff.2 hk, h.behind hk]
    · simp [Token.span, Kind.citesLast_iff.1.mp hk, h.last hk]
  have hle : s.start ≤ s.stop := by
    by_cases hk : t.kind = .finish
    · obtain ⟨-, -, rfl⟩ := h.finish hk
      exact le_rfl
    · exact (h.nonempty hk).le
  have hin := h.inside
  have hlength : t.literal.length = s.stop - s.start := by
    rw [h.literal, Span.text, List.length_take, List.length_drop]
    omega
  have hstart : s.start = t.span.start := by
    change s.start = t.span.stop - t.literal.length
    omega
  cases s
  simp_all

theorem Covers.eq_spans {onset : Nat} {tokens : List Token} {spans : List Span}
    (h : Covers source onset tokens spans) : spans = tokens.map Token.span := by
  have ho := h.occupied
  clear h
  induction ho with
  | nil => rfl
  | cons ht _ ih => rw [List.map_cons, ← ht.eq_span, ih]

theorem Token.wellformed_of_plain (hi : t.kind ≠ .invalid) (hs : t.kind ≠ .string)
    (hn : t.kind ≠ .numeric) (hd : t.delimited = false) : t.Wellformed o source where
  valid := hi
  quoted h := absurd h hs
  named h := by simp [hd] at h
  apart h := absurd h hn

theorem Token.wellformed_of_notMem (hk : t.kind ∉ .invalid :: Kind.operands)
    (hd : t.delimited = false) : t.Wellformed o source := by
  refine wellformed_of_plain ?_ ?_ ?_ hd <;> intro h <;> simp [h, Kind.operands] at hk

namespace Lexeme

theorem stringFault_eq_none_iff {content : Text} :
    stringFault o content true = none ↔ Text.Quotable o content := by
  have hformat : content.findIdx? Text.isFormat = none ↔
      ∀ c ∈ content, ¬ Text.isBlank c ∧ ¬ Text.isControl c := by
    simp [List.findIdx?_eq_none_iff, Text.isFormat]
  have hquotable : Text.Quotable o content ↔ content.findIdx? Text.isFormat = none ∧
      (content ≠ [] ∨ o.allowEmpty = true) ∧
      (content.head? = some o.boundary → content.getLast? = some o.boundary →
        o.names.accepts (Text.unwrap o.boundary content) = true) :=
    ⟨fun h => ⟨hformat.mpr h.visible, h.nonempty, h.named⟩,
      fun ⟨hv, hn, hm⟩ => ⟨hformat.mp hv, hn, hm⟩⟩
  rw [hquotable, stringFault]
  cases hf : content.findIdx? Text.isFormat with
  | some i => simp
  | none => grind [Text.wrappedIn]

theorem numberFault_eq_none_iff {n : Nat} {rest : Text} :
    numberFault n rest = none ↔ ∀ d ∈ rest.head?, ¬ (d = '_' ∨ d.isAlpha = true) := by
  cases rest with
  | nil => simp [numberFault]
  | cons d rest => simp [numberFault]

theorem stringFault_le {content : Text} {closed : Bool} {d : Nat} {f : LexFault}
    (h : stringFault o content closed = some (d, f)) :
    d ≤ content.length + if closed then 2 else 1 := by
  unfold stringFault at h
  cases hf : content.findIdx? Text.isFormat with
  | some i =>
      obtain ⟨hi, -⟩ := List.findIdx?_eq_some_iff_getElem.mp hf
      simp only [hf, Option.some.injEq, Prod.mk.injEq] at h
      split <;> omega
  | none =>
      simp only [hf] at h
      split_ifs at h <;> cases h <;> simp_all

end Lexeme

namespace Cut

theorem span_token (h : Cut o c behind x) (start : Nat) :
    (x.token start).span = ⟨start, start + x.text.length⟩ := by
  obtain ⟨tail, ht⟩ := h.exists_text_eq
  cases hc : x.kind.citesLast <;> simp [Token.span, Lexeme.token, hc, ht, Nat.add_assoc]

theorem getElem?_stop (h : Cut o c behind x) (before : Text) :
    (before ++ c :: behind)[(x.token before.length).span.stop]? = x.rest.head? := by
  rw [h.span_token, ← h.text_append_rest, List.getElem?_append_right (by simp),
    List.getElem?_append_right (by simp)]
  simp [List.head?_eq_getElem?]

theorem fault_le (h : Cut o c behind x) {d : Nat} {f : LexFault} (hf : x.fault = some (d, f)) :
    d ≤ x.text.length := by
  cases h with
  | mark | pair | single | word => cases hf
  | closedString => simpa using Lexeme.stringFault_le hf
  | openString => simpa using Lexeme.stringFault_le hf
  | @number _ tail rest =>
      cases rest with
      | nil => cases hf
      | cons e rest =>
          simp only [Lexeme.numberFault] at hf
          split_ifs at hf
          cases hf
          exact le_rfl
  | closedName =>
      dsimp only at hf
      split_ifs at hf
      cases hf
      simp
  | openName | invalid =>
      cases hf
      simp

theorem fault_eq_none_iff (h : Cut o c behind x) (before : Text) :
    x.fault = none ↔ (x.token before.length).Wellformed o (before ++ c :: behind) := by
  have hnext := h.getElem?_stop before
  cases h with
  | mark hc =>
      exact iff_of_true rfl (Token.wellformed_of_notMem (Kind.mark?_mem hc) rfl)
  | pair hc =>
      exact iff_of_true rfl (Token.wellformed_of_notMem (Kind.extensible?_mem hc).1 rfl)
  | single hc =>
      exact iff_of_true rfl (Token.wellformed_of_notMem (Kind.extensible?_mem hc).2 rfl)
  | @closedString content rest =>
      rw [Lexeme.stringFault_eq_none_iff]
      constructor
      · intro hq
        exact { valid := by simp [Lexeme.token], quoted := fun _ => ⟨content, rfl, hq⟩,
                named := by simp [Lexeme.token], apart := by simp [Lexeme.token] }
      · intro hw
        obtain ⟨content', hl, hq⟩ := hw.quoted rfl
        obtain rfl : content = content' := by simpa [Lexeme.token] using hl
        exact hq
  | openString hq =>
      -- The text has one quote only, which cannot be both its first and its last.
      refine iff_of_false (Lexeme.stringFault_ne_none _) fun hw => ?_
      obtain ⟨content', hl, -⟩ := hw.quoted rfl
      obtain ⟨-, rfl⟩ := List.cons.inj hl
      exact hq (by simp)
  | @word _ tail _ =>
      obtain hk | ⟨hk, -⟩ | ⟨hk, -⟩ := keyword?_cases (c :: tail) <;>
        exact iff_of_true rfl
          (Token.wellformed_of_plain (by simp [Lexeme.token, hk]) (by simp [Lexeme.token, hk])
            (by simp [Lexeme.token, hk]) rfl)
  | number =>
      rw [Lexeme.numberFault_eq_none_iff, ← hnext]
      constructor
      · intro hr
        exact { valid := by simp [Lexeme.token], quoted := by simp [Lexeme.token],
                named := by simp [Lexeme.token], apart := fun _ _ => hr }
      · intro hw
        exact hw.apart rfl rfl
  | @closedName name rest =>
      constructor
      · intro hn
        have hn : o.names.accepts name = true := by simpa using hn
        exact { valid := by simp [Lexeme.token], quoted := by simp [Lexeme.token],
                named := fun _ => ⟨name, rfl, hn⟩, apart := by simp [Lexeme.token] }
      · intro hw
        obtain ⟨name', hl, hn⟩ := hw.named rfl
        obtain rfl : name = name' := by simpa [Lexeme.token] using hl
        simp [hn]
  | openName _ hb =>
      refine iff_of_false (by simp) fun hw => ?_
      obtain ⟨name', hl, -⟩ := hw.named rfl
      obtain ⟨-, rfl⟩ := List.cons.inj hl
      exact hb (by simp)
  | invalid => exact iff_of_false (by simp) fun hw => hw.valid rfl

end Cut

end RuleLang
