import Mathlib.Data.Bool.Basic
import RuleLang.Pattern.Basic

namespace RuleLang.Pattern

section Lists

variable {n m low high : Nat} {r : List (Nat × Nat)}

theorem within_cons : within n ((low, high) :: r) = true ↔
    (low ≤ n ∧ n ≤ high) ∨ within n r = true := by
  simp [within]

theorem Apart.le_of_within (hr : Apart m r) (h : within n r = true) : m ≤ n := by
  induction hr with
  | nil => cases h
  | cons hm _ _ ih =>
      rcases within_cons.mp h with ⟨hlow, -⟩ | h
      · omega
      · have := ih h
        omega

theorem within_insertRange (h : low ≤ high) (hr : Apart m r) :
    within n (insertRange low high r) = true ↔ (low ≤ n ∧ n ≤ high) ∨ within n r = true := by
  induction r generalizing m low high with
  | nil => exact within_cons
  | cons x r ih =>
      cases hr with
      | @cons _ a b _ ha hab hr =>
          rw [insertRange]
          split_ifs with hbefore hbehind
          · exact within_cons
          · rw [within_cons, within_cons, ih h hr, or_left_comm]
          · -- The two ranges touch, so no number lies between them.
            rw [ih (by omega) hr, within_cons, ← or_assoc]
            exact or_congr_left (by omega)

theorem within_complementFrom (hr : Apart m r) (hn : n ≤ lastCodePoint) :
    within n (complementFrom m r) = true ↔ m ≤ n ∧ within n r = false := by
  induction r generalizing m with
  | nil =>
      rw [complementFrom]
      split_ifs with h
      · simp [within, hn]
      · simp [within]
        omega
  | cons x r ih =>
      cases hr with
      | @cons _ a b _ ha hab hr =>
          have hbehind : within n r = true → b + 2 ≤ n := hr.le_of_within
          have hrest := ih (hr.mono (m := b + 1) (by omega))
          rw [complementFrom, ← Bool.not_eq_true, within_cons]
          cases hw : within n r <;> rw [hw] at hrest hbehind
          · split_ifs with h
            · rw [within_cons, hrest]
              simp
              omega
            · rw [hrest]
              simp
              omega
          · have hn := hbehind rfl
            split_ifs with h
            · rw [within_cons, hrest]
              simp
              omega
            · rw [hrest]
              simp

end Lists

namespace Ranges

variable {c : Char}

theorem toNat_le_lastCodePoint (c : Char) : c.toNat ≤ lastCodePoint := by
  have hvalid := c.valid
  simp only [UInt32.isValidChar, Nat.isValidChar] at hvalid
  have hval : c.val.toNat = c.toNat := rfl
  simp only [lastCodePoint]
  omega

@[simp]
theorem contains_add (low high : Nat) (r : Ranges) :
    (add (low, high) r).contains c = (decide (low ≤ c.toNat ∧ c.toNat ≤ high) || r.contains c) := by
  rw [Bool.eq_iff_iff, Bool.or_eq_true, decide_eq_true_iff, add]
  split_ifs with h
  · exact within_insertRange h r.apart
  · exact (or_iff_right fun hc => h (Nat.le_trans hc.1 hc.2)).symm

@[simp]
theorem contains_addAll (ranges : List (Nat × Nat)) (r : Ranges) :
    (addAll ranges r).contains c = (within c.toNat ranges || r.contains c) := by
  induction ranges with
  | nil => rfl
  | cons x ranges ih =>
      have hcons : addAll (x :: ranges) r = add x (addAll ranges r) := rfl
      rw [hcons, contains_add, ih, ← Bool.or_assoc]
      simp [within]

@[simp]
theorem contains_ofList (ranges : List (Nat × Nat)) :
    (ofList ranges).contains c = within c.toNat ranges :=
  (contains_addAll ranges _).trans (Bool.or_false _)

@[simp]
theorem contains_single (a : Char) : (single a).contains c = decide (c = a) := by
  rw [single, contains_ofList, Bool.eq_iff_iff, within_cons, decide_eq_true_iff,
    ← Char.toNat_inj]
  simp only [within, List.any_nil, Bool.false_eq_true, or_false]
  omega

@[simp]
theorem contains_union (r s : Ranges) :
    (r.union s).contains c = (r.contains c || s.contains c) :=
  (contains_addAll s.list r).trans (Bool.or_comm _ _)

@[simp]
theorem contains_complement (r : Ranges) : r.complement.contains c = !r.contains c := by
  rw [Bool.eq_iff_iff, Bool.not_eq_true']
  have h := within_complementFrom r.apart (toNat_le_lastCodePoint c)
  exact h.trans (and_iff_right (Nat.zero_le _))

@[simp]
theorem contains_intersection (r s : Ranges) :
    (r.intersection s).contains c = (r.contains c && s.contains c) := by
  simp [intersection]

@[simp]
theorem contains_difference (r s : Ranges) :
    (r.difference s).contains c = (r.contains c && !s.contains c) := by
  simp [difference]

@[simp]
theorem contains_symmetricDifference (r s : Ranges) :
    (r.symmetricDifference s).contains c = (r.contains c != s.contains c) := by
  simp only [symmetricDifference, contains_union, contains_difference]
  cases r.contains c <;> cases s.contains c <;> rfl

end Ranges

theorem Combination.contains_ranges (how : Combination) (r s : Ranges) (c : Char) :
    (how.ranges r s).contains c = how.holds (r.contains c) (s.contains c) := by
  cases how <;> simp [ranges, holds]

namespace CharSet

theorem contains_complementIf (negated : Bool) (r : Ranges) (c : Char) :
    (complementIf negated r).contains c = (r.contains c != negated) := by
  cases negated <;> simp [complementIf]

mutual

theorem contains_ranges (c : Char) : ∀ s : CharSet, s.ranges.contains c = s.holds c
  | .range low high => by
      rw [ranges, holds, Ranges.contains_ofList]
      simp only [within, List.any_cons, List.any_nil, Bool.or_false]
      rfl
  | .named negated r => contains_complementIf negated r c
  | .union items => contains_rangesOfItems c items
  | .combined how left right => by
      rw [ranges, holds, how.contains_ranges, contains_ranges c left, contains_ranges c right]
  | .bracketed negated body => by
      rw [ranges, holds, contains_complementIf, contains_ranges c body]

theorem contains_rangesOfItems (c : Char) :
    ∀ items : List CharSet, (rangesOfItems items).contains c = anyHolds c items
  | [] => rfl
  | s :: items => by
      rw [rangesOfItems, anyHolds, Ranges.contains_union, contains_ranges c s,
        contains_rangesOfItems c items]

end

end CharSet

theorem contains_anyRanges (c : Char) : anyRanges.contains c = (c != '\n') := by
  simp [anyRanges, bne, beq_eq_decide]

end RuleLang.Pattern
