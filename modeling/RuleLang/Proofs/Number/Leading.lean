import RuleLang.Number.Binary64
import RuleLang.Proofs.Lexing.Cut

namespace RuleLang

namespace Numeral

structure Pure (n : Numeral) : Prop where
  whole : ∀ c ∈ n.whole, c.isDigit
  fraction : ∀ c ∈ n.fraction.getD [], c.isDigit

structure Leads (n : Numeral) (t : Text) : Prop extends n.Pure where
  start : n.spelling <+: t
  digit : ∃ c ∈ n.spelling, c.isDigit

structure Longest (n : Numeral) (t : Text) : Prop where
  leads : n.Leads t
  most : ∀ m : Numeral, m.Leads t → m.spelling.length ≤ n.spelling.length

variable {n m : Numeral} {t : Text}

theorem dot_not_digit : ¬ ('.').isDigit := by
  decide

theorem Pure.digits_ne_nil_iff (h : n.Pure) :
    n.digits ≠ [] ↔ ∃ c ∈ n.spelling, c.isDigit := by
  obtain ⟨whole, fraction⟩ := n
  constructor
  · intro hd
    obtain ⟨c, hc⟩ := List.exists_mem_of_ne_nil _ hd
    rcases List.mem_append.mp hc with hw | hf
    · exact ⟨c, by cases fraction <;> simp_all [spelling], h.whole c hw⟩
    · exact ⟨c, by cases fraction <;> simp_all [spelling], h.fraction c hf⟩
  · rintro ⟨c, hc, hdigit⟩
    cases fraction with
    | none => exact List.ne_nil_of_mem (List.mem_append_left _ hc)
    | some fraction =>
        rcases List.mem_append.mp hc with hw | hf
        · exact List.ne_nil_of_mem (List.mem_append_left _ hw)
        · rcases List.mem_cons.mp hf with rfl | hf
          · exact absurd hdigit dot_not_digit
          · exact List.ne_nil_of_mem (List.mem_append_right _ hf)

theorem front_append_none {whole rest : Text} (hw : ∀ c ∈ whole, c.isDigit)
    (hr : ∀ c ∈ rest.head?, ¬ c.isDigit) (hd : '.' ∉ rest.head?) :
    front (whole ++ rest) = ⟨whole, none⟩ := by
  obtain ⟨htake, hdrop⟩ := span_append hw hr
  rw [front, htake, hdrop]
  cases rest with
  | nil => rfl
  | cons c rest =>
      have hc : c ≠ '.' := by simpa using hd
      simp [hc]

theorem front_append_dot {whole behind : Text} (hw : ∀ c ∈ whole, c.isDigit) :
    front (whole ++ '.' :: behind) = ⟨whole, some (behind.takeWhile Char.isDigit)⟩ := by
  have hdot : ∀ c ∈ ('.' :: behind).head?, ¬ c.isDigit := by simp [dot_not_digit]
  obtain ⟨htake, hdrop⟩ := span_append hw hdot
  rw [front, htake, hdrop]
  rfl

theorem exists_front (t : Text) :
    ∃ whole rest, t = whole ++ rest ∧ (∀ c ∈ whole, c.isDigit) ∧
      (front t = ⟨whole, none⟩ ∨
        ∃ fraction last, rest = '.' :: (fraction ++ last) ∧ (∀ c ∈ fraction, c.isDigit) ∧
          front t = ⟨whole, some fraction⟩) := by
  obtain ⟨whole, rest, rfl, hw, hr⟩ := exists_span Char.isDigit t
  refine ⟨whole, rest, rfl, hw, ?_⟩
  by_cases hd : '.' ∈ rest.head?
  · obtain ⟨behind, rfl⟩ : ∃ behind, rest = '.' :: behind := by
      cases rest with
      | nil => simp at hd
      | cons c behind => exact ⟨behind, by simpa using hd⟩
    refine .inr ⟨behind.takeWhile Char.isDigit, behind.dropWhile Char.isDigit, ?_, ?_,
      front_append_dot hw⟩
    · rw [List.takeWhile_append_dropWhile]
    · exact fun c hc => List.mem_takeWhile_imp hc
  · exact .inl (front_append_none hw hr hd)

theorem pure_front (t : Text) : (front t).Pure := by
  obtain ⟨whole, rest, -, hw, hf | ⟨fraction, last, -, hdigits, hf⟩⟩ := exists_front t
  · rw [hf]
    exact ⟨hw, by simp⟩
  · rw [hf]
    exact ⟨hw, hdigits⟩

theorem spelling_front_prefix (t : Text) : (front t).spelling <+: t := by
  obtain ⟨whole, rest, rfl, -, hf | ⟨fraction, last, rfl, -, hf⟩⟩ := exists_front t
  · rw [hf]
    exact List.prefix_append whole rest
  · rw [hf]
    exact ⟨last, by simp [spelling]⟩

theorem Pure.prefix_front (h : n.Pure) (hn : n.spelling <+: t) :
    n.spelling <+: (front t).spelling := by
  obtain ⟨rest, rfl⟩ := hn
  obtain ⟨whole, fraction⟩ := n
  cases fraction with
  | none =>
      -- The digits of the text go on behind the numeral, and perhaps there is a dot behind them.
      have hwhole : whole <+: (front (whole ++ rest)).whole := by
        rw [front, List.takeWhile_append_of_pos h.whole]
        exact List.prefix_append _ _
      apply hwhole.trans
      unfold spelling
      split
      · exact List.prefix_append _ _
      · exact List.prefix_rfl
  | some fraction =>
      have hfraction : ∀ c ∈ fraction, c.isDigit := h.fraction
      have hfront : front (whole ++ '.' :: (fraction ++ rest)) =
          ⟨whole, some (fraction ++ rest.takeWhile Char.isDigit)⟩ := by
        rw [front_append_dot h.whole, List.takeWhile_append_of_pos hfraction]
      simp only [spelling, List.append_assoc, List.cons_append, hfront]
      exact ⟨rest.takeWhile Char.isDigit, by simp⟩

theorem Pure.front_spelling (h : n.Pure) : front n.spelling = n := by
  obtain ⟨whole, fraction⟩ := n
  cases fraction with
  | none =>
      have hfront : front (whole ++ []) = ⟨whole, none⟩ :=
        front_append_none h.whole (by simp) (by simp)
      rwa [List.append_nil] at hfront
  | some fraction =>
      have hall : fraction.takeWhile Char.isDigit = fraction :=
        List.takeWhile_eq_self_iff.mpr h.fraction
      rw [spelling, front_append_dot h.whole, hall]

theorem front_leads (h : m.Leads t) : (front t).Leads t where
  toPure := pure_front t
  start := spelling_front_prefix t
  digit := by
    obtain ⟨c, hc, hdigit⟩ := h.digit
    exact ⟨c, (h.prefix_front h.start).subset hc, hdigit⟩

theorem front_longest (h : m.Leads t) : (front t).Longest t where
  leads := front_leads h
  most _ hm := (hm.prefix_front hm.start).length_le

theorem Longest.eq_front (h : n.Longest t) : n = front t := by
  -- The front starts with the spelling of the numeral and is no longer, so both are spelled alike.
  have hprefix := h.leads.prefix_front h.leads.start
  have hlength := h.most _ (front_leads h.leads)
  have hspelling : n.spelling = (front t).spelling := hprefix.eq_of_length_le hlength
  rw [← h.leads.front_spelling, hspelling, (pure_front t).front_spelling]

theorem leading?_eq_none_iff : leading? t = none ↔ ∀ n : Numeral, ¬ n.Leads t := by
  have hdigits := (pure_front t).digits_ne_nil_iff
  rw [leading?, ite_eq_left_iff]
  constructor
  · intro h n hn
    exact absurd (h (hdigits.mpr (front_leads hn).digit)) (by simp)
  · intro h hd
    exact absurd ⟨pure_front t, spelling_front_prefix t, hdigits.mp hd⟩ (h (front t))

theorem leading?_eq_some_iff : leading? t = some n ↔ n.Longest t := by
  constructor
  · intro h
    have hleads : ∃ m : Numeral, m.Leads t := by
      by_contra hnone
      rw [not_exists, ← leading?_eq_none_iff, h] at hnone
      cases hnone
    obtain ⟨m, hm⟩ := hleads
    have heq : front t = n := by
      rw [leading?] at h
      split at h <;> simp_all
    rw [← heq]
    exact front_longest hm
  · intro h
    have hd := (pure_front t).digits_ne_nil_iff.mpr (front_leads h.leads).digit
    rw [leading?, if_neg hd, h.eq_front]

end Numeral

end RuleLang
