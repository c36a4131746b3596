import Mathlib
import RuleLang.Pattern.Matching
import RuleLang.Proofs.Pattern.CharSet
import RuleLang.Token.Lexeme

namespace RuleLang.Pattern

open Relation (Comp)

abbrev Span (n : Nat) := Fin (n + 1) → Fin (n + 1) → Prop

section Spans

variable {n : Nat}

def Stays (holds : Fin (n + 1) → Prop) : Span n := fun i j =>
  i = j ∧ holds i

def Reads (t : Vector Char n) (fits : Char → Bool) : Span n := fun i j =>
  ∃ k : Fin n, i = k.castSucc ∧ j = k.succ ∧ fits (t.get k) = true

def Times (r : Span n) : Nat → Span n
  | 0 => Eq
  | k + 1 => Comp r (Times r k)

def Repeats (r : Span n) (count : Count) : Span n := fun i j =>
  ∃ k, count.Allows k ∧ Times r k i j

def Forward (r : Span n) : Prop :=
  ∀ i j, r i j → i ≤ j

end Spans

section Matches

variable {n : Nat} (t : Vector Char n)

mutual

def Matches : Pattern → Span n
  | .empty => Eq
  | .start => Stays (·.val = 0)
  | .finish => Stays (·.val = n)
  | .any => Reads t (· != '\n')
  | .character c => Reads t (· == c)
  | .set s => Reads t s.holds
  | .group _ p => Matches p
  | .sequence ps => InTurn ps
  | .either ps => AnyOf ps
  | .repeated p count _ => Repeats (Matches p) count

def InTurn : List Pattern → Span n
  | [] => Eq
  | p :: ps => Comp (Matches p) (InTurn ps)

def AnyOf : List Pattern → Span n
  | [] => fun _ _ => False
  | p :: ps => fun i j => Matches p i j ∨ AnyOf ps i j

end

end Matches

section Steps

variable {n : Nat} {t : Vector Char n} {r q : Span n} {i j : Fin (n + 1)} {k m : Nat}

theorem times_add : Times r (k + m) = Comp (Times r k) (Times r m) := by
  induction k with
  | zero => simp [Times, Relation.eq_comp]
  | succ k ih => rw [Nat.succ_add, Times, Times, ih, Relation.comp_assoc]

theorem forward_eq : Forward (n := n) Eq := by
  rintro i _ rfl
  exact le_rfl

theorem forward_stays {holds : Fin (n + 1) → Prop} : Forward (Stays holds) := by
  rintro i _ ⟨rfl, -⟩
  exact le_rfl

theorem forward_reads {fits : Char → Bool} : Forward (Reads t fits) := by
  rintro _ _ ⟨k, rfl, rfl, -⟩
  exact k.castSucc_lt_succ.le

theorem Forward.comp (hr : Forward r) (hq : Forward q) : Forward (Comp r q) := by
  rintro i j ⟨k, hik, hkj⟩
  exact (hr i k hik).trans (hq k j hkj)

theorem Forward.times (hr : Forward r) : ∀ k, Forward (Times r k)
  | 0 => forward_eq
  | k + 1 => hr.comp (hr.times k)

mutual

theorem forward_matches : ∀ p : Pattern, Forward (p.Matches t)
  | .empty => forward_eq
  | .start | .finish => forward_stays
  | .any | .character _ | .set _ => forward_reads
  | .group _ p => forward_matches p
  | .sequence ps => forward_inTurn ps
  | .either ps => forward_anyOf ps
  | .repeated p _ _ => by
      rintro i j ⟨k, -, h⟩
      exact (forward_matches p).times k i j h

theorem forward_inTurn : ∀ ps : List Pattern, Forward (InTurn t ps)
  | [] => forward_eq
  | p :: ps => (forward_matches p).comp (forward_inTurn ps)

theorem forward_anyOf : ∀ ps : List Pattern, Forward (AnyOf t ps)
  | [] => nofun
  | p :: ps => by
      rintro i j (h | h)
      · exact forward_matches p i j h
      · exact forward_anyOf ps i j h

end

theorem Forward.exists_times (hr : Forward r) (h : Times r k i j) :
    ∃ m, i.val + m ≤ j.val ∧ Times r m i j := by
  induction k generalizing i with
  | zero =>
      obtain rfl : i = j := h
      exact ⟨0, Nat.le_refl _, rfl⟩
  | succ k ih =>
      obtain ⟨next, hstep, hrest⟩ := h
      obtain ⟨m, hm, htimes⟩ := ih hrest
      rcases (hr i next hstep).eq_or_lt with rfl | hlt
      · exact ⟨m, hm, htimes⟩
      · have hval : i.val < next.val := hlt
        exact ⟨m + 1, by omega, next, hstep, htimes⟩

end Steps

section Images

variable {n : Nat} {t : Vector Char n} {f g : Marks n → Marks n} {r q : Span n}
  {s u : Marks n} {k : Nat}

def Images (f : Marks n → Marks n) (r : Span n) : Prop :=
  ∀ s j, (f s).get j = true ↔ ∃ i, s.get i = true ∧ r i j

theorem get_union (i : Fin (n + 1)) : (s.union u).get i = true ↔ s.get i = true ∨ u.get i = true := by
  simp [Marks.union]

theorem images_id : Images (n := n) id Eq := by
  intro s j
  simp

theorem images_only (holds : Fin (n + 1) → Bool) :
    Images (Marks.only holds) (Stays (holds · = true)) := by
  intro s j
  simp only [Marks.only, Vector.get_ofFn, Bool.and_eq_true]
  constructor
  · rintro ⟨hs, hj⟩
    exact ⟨j, hs, rfl, hj⟩
  · rintro ⟨_, hs, rfl, hj⟩
    exact ⟨hs, hj⟩

theorem images_advance (fits : Char → Bool) : Images (Marks.advance t fits) (Reads t fits) := by
  intro s j
  simp only [Marks.advance, Vector.get_ofFn]
  cases j using Fin.cases with
  | zero =>
      refine iff_of_false nofun ?_
      rintro ⟨_, -, k, -, h, -⟩
      exact k.succ_ne_zero h.symm
  | succ j =>
      simp only [Fin.cases_succ, Bool.and_eq_true]
      constructor
      · rintro ⟨hs, hj⟩
        exact ⟨j.castSucc, hs, j, rfl, rfl, hj⟩
      · rintro ⟨_, hs, k, rfl, h, hk⟩
        obtain rfl := Fin.succ_inj.mp h
        exact ⟨hs, hk⟩

theorem Images.comp (hf : Images f r) (hg : Images g q) : Images (g ∘ f) (Comp r q) := by
  intro s j
  rw [Function.comp_apply, hg]
  simp only [hf s, Comp]
  grind

theorem Images.union (hf : Images f r) (hg : Images g q) :
    Images (fun s => (f s).union (g s)) fun i j => r i j ∨ q i j := by
  intro s j
  rw [get_union, hf, hg]
  grind

theorem Images.congr (hf : Images f r) (h : ∀ i j, r i j ↔ q i j) : Images f q := by
  intro s j
  simp only [hf s, h]

theorem times_of_fixed (hf : Images f r) (hs : f s = s) (j : Fin (n + 1)) :
    s.get j = true ↔ ∃ i, s.get i = true ∧ Times r k i j := by
  induction k generalizing j with
  | zero => exact images_id s j
  | succ k ih =>
      have hstep := hf s
      rw [hs] at hstep
      simp only [Times, Comp]
      grind

theorem Images.iterate (hf : Images f r) : ∀ k, Images (Marks.iterate f k) (Times r k)
  | 0 => images_id
  | k + 1 => by
      intro s j
      rw [Marks.iterate]
      split_ifs with hs
      · exact times_of_fixed hf hs j
      · exact (hf.comp (hf.iterate k)) s j

theorem times_of_closed {i j : Fin (n + 1)}
    (hs : ∀ i j : Fin (n + 1), s.get i = true → r i j → s.get j = true) (hi : s.get i = true)
    (h : Times r k i j) : s.get j = true := by
  induction k generalizing i with
  | zero =>
      obtain rfl : i = j := h
      exact hi
  | succ k ih =>
      obtain ⟨next, hstep, hrest⟩ := h
      exact ih (hs i next hi hstep) hrest

theorem Images.reach (hf : Images f r) :
    ∀ k, Images (Marks.reach f k) fun i j => ∃ m ≤ k, Times r m i j
  | 0 => images_id.congr (by simp [Times])
  | k + 1 => by
      intro s j
      have hunion := (images_id.union hf) s
      rw [Marks.reach]
      split_ifs with hs
      · refine ⟨fun hj => ⟨j, hj, 0, Nat.zero_le _, rfl⟩, ?_⟩
        rintro ⟨i, hi, m, -, h⟩
        have hclosed : ∀ i j : Fin (n + 1), s.get i = true → r i j → s.get j = true := by
          intro i j hi hij
          rw [← hs]
          exact (hunion j).mpr ⟨i, hi, .inr hij⟩
        exact times_of_closed hclosed hi h
      · rw [hf.reach k]
        constructor
        · rintro ⟨i, hi, m, hm, h⟩
          obtain ⟨a, ha, hfirst⟩ := (hunion i).mp hi
          rcases hfirst with rfl | hstep
          · exact ⟨a, ha, m, by omega, h⟩
          · exact ⟨a, ha, m + 1, by omega, i, hstep, h⟩
        · rintro ⟨i, hi, m, hm, h⟩
          cases m with
          | zero => exact ⟨i, (hunion i).mpr ⟨i, hi, .inl rfl⟩, 0, Nat.zero_le _, h⟩
          | succ m =>
              obtain ⟨next, hstep, hrest⟩ := h
              exact ⟨next, (hunion next).mpr ⟨i, hi, .inr hstep⟩, m, by omega, hrest⟩

theorem Images.repetition (hf : Images f r) (hr : Forward r) (count : Count) :
    Images (Marks.repetition f count) (Repeats r count) := by
  refine ((hf.iterate count.least).comp (hf.reach _)).congr fun i j => ?_
  constructor
  · rintro ⟨next, hleast, m, hm, hrest⟩
    refine ⟨count.least + m, ⟨Nat.le_add_right _ _, fun most hmost => ?_⟩, ?_⟩
    · have hordered := count.ordered most hmost
      obtain hmost : count.most = some most := hmost
      simp only [hmost] at hm
      omega
    · rw [times_add]
      exact ⟨next, hleast, hrest⟩
  · rintro ⟨k, ⟨hleast, hmost⟩, h⟩
    obtain ⟨m, rfl⟩ := Nat.exists_eq_add_of_le hleast
    rw [times_add] at h
    obtain ⟨next, hfirst, hrest⟩ := h
    cases hcount : count.most with
    | none =>
        -- As many steps as there are characters are enough.
        obtain ⟨m', hm', htimes⟩ := hr.exists_times hrest
        exact ⟨next, hfirst, m', by dsimp only; omega, htimes⟩
    | some most =>
        have hle := hmost most hcount
        exact ⟨next, hfirst, m, by dsimp only; omega, hrest⟩

end Images

section Ends

variable {n : Nat} {t : Vector Char n}

mutual

theorem images_ends : ∀ p : Pattern, Images (p.ends t) (p.Matches t)
  | .empty => images_id
  | .start => (images_only _).congr (by simp [Matches, Stays])
  | .finish => (images_only _).congr (by simp [Matches, Stays])
  | .any => (images_advance _).congr (by simp [Matches, Reads, contains_anyRanges])
  | .character c => (images_advance _).congr (by simp [Matches, Reads])
  | .set s => (images_advance _).congr (by simp [Matches, Reads, CharSet.contains_ranges])
  | .group _ p => images_ends p
  | .sequence ps => images_endsOfParts ps
  | .either ps => images_endsOfOptions ps
  | .repeated p count _ => (images_ends p).repetition (forward_matches p) count

theorem images_endsOfParts : ∀ ps : List Pattern, Images (endsOfParts t ps) (InTurn t ps)
  | [] => images_id
  | p :: ps => (images_ends p).comp (images_endsOfParts ps)

theorem images_endsOfOptions : ∀ ps : List Pattern, Images (endsOfOptions t ps) (AnyOf t ps)
  | [] => (images_only _).congr (by simp [AnyOf, Stays])
  | p :: ps => (images_ends p).union (images_endsOfOptions ps)

end

end Ends

theorem occursIn_iff (p : Pattern) (t : Text) :
    p.occursIn t = true ↔ ∃ i j, p.Matches t.toArray.toVector i j := by
  have hends := images_ends (t := t.toArray.toVector) p (.all _)
  have hany : p.occursIn t = true ↔ ∃ j, (p.ends t.toArray.toVector (.all _)).get j = true := by
    simp [occursIn, Vector.any_eq_true, Fin.exists_iff, Vector.get_eq_getElem]
  rw [hany]
  constructor
  · rintro ⟨j, hj⟩
    obtain ⟨i, -, hi⟩ := (hends j).mp hj
    exact ⟨i, j, hi⟩
  · rintro ⟨i, j, h⟩
    exact ⟨j, (hends j).mpr ⟨i, by simp [Marks.all], h⟩⟩

theorem times_reads {n : Nat} {t : Vector Char n} {fits : Char → Bool} {k : Nat}
    {i j : Fin (n + 1)} : Times (Reads t fits) k i j ↔
      i.val + k = j.val ∧
        ∀ m : Fin n, i.val ≤ m.val → m.val < j.val → fits (t.get m) = true := by
  induction k generalizing i with
  | zero =>
      simp only [Times, Nat.add_zero, Fin.val_inj]
      refine ⟨?_, And.left⟩
      rintro rfl
      exact ⟨rfl, fun m hi hj => absurd hj (Nat.not_lt.mpr hi)⟩
  | succ k ih =>
      simp only [Times, Comp, ih]
      constructor
      · rintro ⟨_, ⟨a, rfl, rfl, ha⟩, hlength, hrest⟩
        simp only [Fin.val_succ, Fin.val_castSucc] at *
        refine ⟨by omega, fun m ham hmj => ?_⟩
        rcases ham.eq_or_lt with heq | hlt
        · obtain rfl := Fin.val_inj.mp heq
          exact ha
        · exact hrest m hlt hmj
      · rintro ⟨hlength, hall⟩
        have hi : i.val < n := by omega
        refine ⟨(⟨i, hi⟩ : Fin n).succ,
          ⟨⟨i, hi⟩, rfl, rfl, hall ⟨i, hi⟩ le_rfl (by dsimp only; omega)⟩, ?_, ?_⟩
        · simp only [Fin.val_succ]
          omega
        · intro m him hmj
          exact hall m (Nat.le_of_succ_le him) hmj

def nameSet : CharSet :=
  .bracketed false <| .union
    [.range '0' '9', .range 'A' 'Z', .range 'a' 'z', .range '_' '_', .range '.' '.',
      .range '-' '-']

def usual : Pattern :=
  .sequence [.start, .repeated (.set nameSet) (.atLeast 1) true, .finish]

theorem ofText?_usualPattern : ofText? NameRule.usualPattern = some usual := by
  have hread : read? NameRule.usualPattern = some usual := rfl
  have hsmall : usual.small = true := by decide +kernel
  simp [ofText?, hread, hsmall]

theorem char_between_iff (c d : Char) : (d ≤ c ∧ c ≤ d) ↔ c = d := by
  rw [Char.le_def, Char.le_def, Char.ext_iff, UInt32.le_iff_toNat_le, UInt32.le_iff_toNat_le,
    ← UInt32.toNat_inj]
  omega

theorem holds_nameSet (c : Char) : nameSet.holds c = NameRule.isNameCharacter c := by
  rw [Bool.eq_iff_iff]
  simp only [nameSet, CharSet.holds, CharSet.anyHolds, NameRule.isNameCharacter, Char.isAlphanum,
    Char.isAlpha, Char.isUpper, Char.isLower, Char.isDigit, Bool.bne_false, Bool.or_eq_true,
    Bool.and_eq_true, decide_eq_true_eq, beq_iff_eq, char_between_iff]
  grind [Char.le_def]

theorem matches_usual {n : Nat} {t : Vector Char n} :
    (∃ i j, usual.Matches t i j) ↔
      0 < n ∧ ∀ m : Fin n, NameRule.isNameCharacter (t.get m) = true := by
  simp only [usual, Matches, InTurn, Relation.comp_eq, ← holds_nameSet]
  constructor
  · rintro ⟨i, j, _, ⟨rfl, hi⟩, _, ⟨k, ⟨hk, -⟩, htimes⟩, rfl, hj⟩
    obtain ⟨hlength, hall⟩ := times_reads.mp htimes
    rw [hi, hj] at hall
    simp only [Count.atLeast] at hk
    exact ⟨by omega, fun m => hall m (Nat.zero_le _) m.isLt⟩
  · rintro ⟨hn, hall⟩
    refine ⟨0, Fin.last n, 0, ⟨rfl, rfl⟩, Fin.last n, ⟨n, ⟨hn, nofun⟩, ?_⟩, rfl, rfl⟩
    exact times_reads.mpr ⟨by simp, fun m _ _ => hall m⟩

theorem occursIn_usual (t : Text) : usual.occursIn t = NameRule.usual.accepts t := by
  rw [Bool.eq_iff_iff, occursIn_iff, matches_usual]
  simp only [NameRule.usual, Bool.and_eq_true, Bool.not_eq_true', List.isEmpty_eq_false_iff,
    List.size_toArray, List.length_pos_iff, List.all_eq_true]
  refine and_congr_right fun _ => ?_
  simp [Vector.get_eq_getElem, List.forall_mem_iff_forall_getElem, Fin.forall_iff]

theorem compile?_usualPattern : compile? NameRule.usualPattern = some NameRule.usual.accepts := by
  rw [compile?, ofText?_usualPattern, Option.map_some, funext occursIn_usual]

end RuleLang.Pattern
