import RuleLang.Pattern.Form
import RuleLang.Proofs.Pattern.Matching

namespace RuleLang.Pattern

open Relation (Comp)

namespace Form

section Matches

variable {n : Nat} (t : Vector Char n)

def ReadsText : Text → Span n
  | [] => Eq
  | c :: u => Comp (Reads t (· == c)) (ReadsText u)

mutual

def Matches : Form → Span n
  | .empty => Eq
  | .start => Stays (·.val = 0)
  | .finish => Stays (·.val = n)
  | .literal u => ReadsText t u
  | .set r => Reads t r.contains
  | .group f => Matches f
  | .sequence fs => InTurn fs
  | .either fs => AnyOf fs
  | .repeated f count _ => Repeats (Matches f) count

def InTurn : List Form → Span n
  | [] => Eq
  | f :: fs => Comp (Matches f) (InTurn fs)

def AnyOf : List Form → Span n
  | [] => fun _ _ => False
  | f :: fs => fun i j => Matches f i j ∨ AnyOf fs i j

end

end Matches

variable {n : Nat} {t : Vector Char n} {r : Span n} {f : Form} {fs gs : List Form}
  {i j : Fin (n + 1)}

theorem readsText_append (u v : Text) :
    ReadsText t (u ++ v) = Comp (ReadsText t u) (ReadsText t v) := by
  induction u with
  | nil => exact Relation.eq_comp.symm
  | cons c u ih => rw [List.cons_append, ReadsText, ih, ReadsText, Relation.comp_assoc]

theorem inTurn_append : InTurn t (fs ++ gs) = Comp (InTurn t fs) (InTurn t gs) := by
  induction fs with
  | nil => exact Relation.eq_comp.symm
  | cons f fs ih => rw [List.cons_append, InTurn, ih, InTurn, Relation.comp_assoc]

theorem inTurn_singleton : InTurn t [f] = f.Matches t :=
  Relation.comp_eq

theorem anyOf_cons : AnyOf t (f :: fs) i j ↔ f.Matches t i j ∨ AnyOf t fs i j :=
  Iff.rfl

theorem anyOf_iff : AnyOf t fs i j ↔ ∃ f ∈ fs, f.Matches t i j := by
  induction fs with
  | nil => simp [AnyOf]
  | cons f fs ih => simp [AnyOf, ih]

theorem anyOf_append : AnyOf t (fs ++ gs) i j ↔ AnyOf t fs i j ∨ AnyOf t gs i j := by
  simp only [anyOf_iff, List.mem_append, or_and_right, exists_or]

theorem inTurn_before (f : Form) (fs : List Form) :
    InTurn t (before f fs) = Comp (f.Matches t) (InTurn t fs) := by
  fun_cases before f fs with
  | case1 => exact Relation.eq_comp.symm
  | case2 u v fs =>
      rw [InTurn, InTurn, Matches, Matches, Matches, readsText_append, Relation.comp_assoc]
  | case3 gs u v fs hlast =>
      have hgs : gs.dropLast ++ [.literal u] = gs := List.dropLast_append_getLast? _ hlast
      calc InTurn t (gs.dropLast ++ .literal (u ++ v) :: fs)
          = Comp (InTurn t gs.dropLast)
              (Comp (Comp (ReadsText t u) (ReadsText t v)) (InTurn t fs)) := by
            rw [inTurn_append, InTurn, Matches, readsText_append]
        _ = Comp (InTurn t (gs.dropLast ++ [.literal u])) (Comp (ReadsText t v) (InTurn t fs)) := by
            rw [inTurn_append, inTurn_singleton, Matches, Relation.comp_assoc,
              Relation.comp_assoc]
        _ = Comp (InTurn t gs) (InTurn t (.literal v :: fs)) := by rw [hgs, InTurn, Matches]
  | case4 gs fs => rw [inTurn_append, Matches]
  | case5 => rfl

theorem matches_inTurn (fs : List Form) : (inTurn fs).Matches t = InTurn t fs := by
  have hfold : InTurn t (fs.foldr before []) = InTurn t fs := by
    induction fs with
    | nil => rfl
    | cons f fs ih => rw [List.foldr_cons, inTurn_before, ih, InTurn]
  rw [← hfold, inTurn]
  split
  · next h => rw [h]; rfl
  · next h => rw [h, inTurn_singleton]
  · rfl

theorem reads_congr {fits fits' : Char → Bool} (h : ∀ c, fits c = fits' c) :
    Reads t fits = Reads t fits' := by
  rw [funext h]

theorem reads_or {fits fits' : Char → Bool} :
    Reads t (fun c => fits c || fits' c) i j ↔ Reads t fits i j ∨ Reads t fits' i j := by
  simp only [Reads, Bool.or_eq_true]
  grind

theorem not_reads_none : ¬ Reads t (Ranges.ofList []).contains i j := by
  rintro ⟨k, -, -, h⟩
  cases h

theorem matches_literal (c : Char) : (literal [c]).Matches t = Reads t (· == c) :=
  Relation.comp_eq

theorem matches_ofRanges (r : Ranges) : (ofRanges r).Matches t = Reads t r.contains := by
  unfold ofRanges
  split
  · next a b hlist =>
      split_ifs with h
      · obtain ⟨rfl, hvalid⟩ := h
        rw [matches_literal]
        refine reads_congr fun c => ?_
        have hnat : (Char.ofNat a).toNat = a := by simp [Char.toNat_ofNat, hvalid]
        rw [Ranges.contains, hlist, Bool.eq_iff_iff, beq_iff_eq, ← Char.toNat_inj, hnat,
          within_cons]
        simp [within]
        omega
      · rfl
  · rfl

theorem anyOf_characters {r : Ranges} (h : characters? fs = some r) :
    AnyOf t fs i j ↔ Reads t r.contains i j := by
  fun_induction characters? fs generalizing r with
  | case1 =>
      obtain rfl := Option.some.inj h
      exact iff_of_false id not_reads_none
  | case2 c fs ih =>
      obtain ⟨s, hs, rfl⟩ := Option.map_eq_some_iff.mp h
      have hadd : (Ranges.add (c.toNat, c.toNat) s).contains = fun d => d == c || s.contains d := by
        funext d
        rw [Ranges.contains_add, Bool.eq_iff_iff]
        simp [← Char.toNat_inj]
        grind
      rw [anyOf_cons, ih hs, hadd, reads_or, matches_literal]
  | case3 => cases h

theorem anyOf_sets {r : Ranges} (h : sets? fs = some r) :
    AnyOf t fs i j ↔ Reads t r.contains i j := by
  fun_induction sets? fs generalizing r with
  | case1 =>
      obtain rfl := Option.some.inj h
      exact iff_of_false id not_reads_none
  | case2 r' fs ih =>
      obtain ⟨s, hs, rfl⟩ := Option.map_eq_some_iff.mp h
      have hunion : (r'.union s).contains = fun d => r'.contains d || s.contains d := by
        funext d
        exact Ranges.contains_union r' s
      rw [anyOf_cons, ih hs, hunion, reads_or, Matches]
  | case3 => cases h

theorem anyOf_options (f : Form) : AnyOf t f.options i j ↔ f.Matches t i j := by
  unfold options
  split
  · rfl
  · exact or_iff_left id

theorem anyOf_flatMap_options (fs : List Form) :
    AnyOf t (fs.flatMap options) i j ↔ AnyOf t fs i j := by
  induction fs with
  | nil => rfl
  | cons f fs ih => rw [List.flatMap_cons, anyOf_append, anyOf_options, ih, anyOf_cons]

theorem matches_anyApart (fs : List Form) : (anyApart fs).Matches t i j ↔ AnyOf t fs i j := by
  rw [← anyOf_flatMap_options, anyApart]
  split
  · next h => rw [h]; exact (or_iff_left id).symm
  · split
    · next r hr =>
        rw [matches_ofRanges]
        rcases Option.or_eq_some_iff.mp hr with h | ⟨-, h⟩
        · exact (anyOf_characters h).symm
        · exact (anyOf_sets h).symm
    · rfl

mutual

theorem eq_of_same : ∀ f g : Form, same f g = true → f = g
  | .repeated f m b, .repeated g n c, h => by
      simp only [same, Bool.and_eq_true, decide_eq_true_eq] at h
      obtain ⟨⟨hbody, rfl⟩, rfl⟩ := h
      rw [eq_of_same f g hbody]
  | .sequence fs, .sequence gs, h => congrArg sequence (eq_of_allSame fs gs h)
  | .either fs, .either gs, h => congrArg either (eq_of_allSame fs gs h)
  | .literal u, .literal v, h => congrArg literal (of_decide_eq_true h)
  | .set r, .set s, h => congrArg set (of_decide_eq_true h)
  | .empty, .empty, _ | .start, .start, _ | .finish, .finish, _ => rfl

theorem eq_of_allSame : ∀ fs gs : List Form, allSame fs gs = true → fs = gs
  | [], [], _ => rfl
  | f :: fs, g :: gs, h => by
      simp only [allSame, Bool.and_eq_true] at h
      rw [eq_of_same f g h.1, eq_of_allSame fs gs h.2]

end

theorem take_eq_of_le_common {k : Nat} (h : k ≤ common fs gs) : fs.take k = gs.take k := by
  fun_induction common fs gs generalizing k with
  | case1 f fs g gs hsame ih =>
      obtain rfl := eq_of_same f g hsame
      cases k with
      | zero => rfl
      | succ k => rw [List.take_succ_cons, List.take_succ_cons, ih (by omega)]
  | case2 | case3 =>
      obtain rfl := Nat.le_zero.mp h
      rfl

theorem foldl_min_le (size : List Form → Nat) (gss : List (List Form)) (k : Nat) :
    gss.foldl (fun k gs => min k (size gs)) k ≤ k ∧
      ∀ gs ∈ gss, gss.foldl (fun k gs => min k (size gs)) k ≤ size gs := by
  induction gss generalizing k with
  | nil => exact ⟨le_rfl, nofun⟩
  | cons gs gss ih =>
      obtain ⟨hk, hall⟩ := ih (min k (size gs))
      exact ⟨hk.trans (min_le_left _ _),
        List.forall_mem_cons.mpr ⟨hk.trans (min_le_right _ _), hall⟩⟩

theorem eq_map_of_mapM_parts? {gss : List (List Form)} (h : fs.mapM parts? = some gss) :
    fs = gss.map sequence := by
  induction fs generalizing gss with
  | nil =>
      obtain rfl : [] = gss := Option.some.inj h
      rfl
  | cons f fs ih =>
      rw [List.mapM_cons] at h
      obtain ⟨gs, hgs, h⟩ := Option.bind_eq_some_iff.mp h
      obtain ⟨rest, hrest, h⟩ := Option.bind_eq_some_iff.mp h
      obtain rfl := Option.some.inj h
      cases f with
      | sequence fs' =>
          obtain rfl := Option.some.inj hgs
          rw [List.map_cons, ← ih hrest]
      | _ => cases hgs

theorem matches_inTurn_front {front : List Form} {gss : List (List Form)} {k : Nat}
    (h : ∀ gs ∈ gss, gs.take k = front) :
    (inTurn (front ++ [anyApart (gss.map fun gs => inTurn (gs.drop k))])).Matches t i j ↔
      AnyOf t (gss.map sequence) i j := by
  have hsplit : ∀ gs ∈ gss, InTurn t gs = Comp (InTurn t front) (InTurn t (gs.drop k)) := by
    intro gs hgs
    rw [← h gs hgs, ← inTurn_append, List.take_append_drop]
  rw [matches_inTurn, inTurn_append, inTurn_singleton]
  simp only [Comp, matches_anyApart, anyOf_iff, List.mem_map, exists_exists_and_eq_and,
    matches_inTurn, Matches]
  constructor
  · rintro ⟨m, hfront, gs, hgs, hrest⟩
    exact ⟨gs, hgs, hsplit gs hgs ▸ ⟨m, hfront, hrest⟩⟩
  · rintro ⟨gs, hgs, hall⟩
    rw [hsplit gs hgs] at hall
    obtain ⟨m, hfront, hrest⟩ := hall
    exact ⟨m, hfront, gs, hgs, hrest⟩

theorem matches_anyOf (fs : List Form) : (anyOf fs).Matches t i j ↔ AnyOf t fs i j := by
  rw [← matches_anyApart, anyOf]
  split
  · next options hoptions =>
      rw [hoptions]
      split
      · next first others hparts =>
          dsimp only
          split_ifs with hk
          · rfl
          · obtain ⟨-, hall⟩ := foldl_min_le (common first) others first.length
            rw [eq_map_of_mapM_parts? hparts, Matches]
            refine matches_inTurn_front (List.forall_mem_cons.mpr ⟨rfl, fun gs hgs => ?_⟩)
            exact (take_eq_of_le_common (hall gs hgs)).symm
      · rfl
  · rfl

section Stays

variable (hr : ∀ i j, r i j → i = j)

include hr

theorem times_of_stays (k : Nat) : Times r k i j ↔ i = j ∧ (k = 0 ∨ r i j) := by
  induction k generalizing i with
  | zero => simp [Times]
  | succ k ih =>
      rw [Times]
      constructor
      · rintro ⟨m, hstep, hrest⟩
        obtain rfl := hr i m hstep
        obtain ⟨rfl, -⟩ := ih.mp hrest
        exact ⟨rfl, .inr hstep⟩
      · rintro ⟨rfl, h⟩
        have hstep : r i i := h.resolve_left (Nat.succ_ne_zero k)
        exact ⟨i, hstep, ih.mpr ⟨rfl, .inr hstep⟩⟩

/-- The fewest times it may happen are as good as any other. -/
theorem repeats_of_stays (count : Count) :
    Repeats r count i j ↔ i = j ∧ (count.least = 0 ∨ r i j) := by
  simp only [Repeats, times_of_stays hr]
  constructor
  · rintro ⟨k, ⟨hleast, -⟩, hij, h⟩
    exact ⟨hij, h.imp_left (by omega)⟩
  · rintro ⟨hij, h⟩
    exact ⟨count.least, ⟨le_rfl, count.ordered⟩, hij, h⟩

theorem repeats_once (count : Count) : Repeats r count.once i j ↔ Repeats r count i j := by
  have hleast : count.once.least = 0 ↔ count.least = 0 := by
    simp only [Count.once]
    omega
  rw [repeats_of_stays hr, repeats_of_stays hr, hleast]

end Stays

mutual

theorem eq_of_onlyEmpty : ∀ f : Form, f.onlyEmpty = true → ∀ i j, f.Matches t i j → i = j
  | .empty, _, _, _, h => h
  | .start, _, _, _, h | .finish, _, _, _, h => h.1
  | .group f, hf, i, j, h => eq_of_onlyEmpty f hf i j h
  | .sequence fs, hfs, i, j, h => eq_of_inTurn fs hfs i j h
  | .either fs, hfs, i, j, h => eq_of_anyOf fs hfs i j h
  | .repeated f _ _, hf, _, _, ⟨_, _, h⟩ => by
      rw [onlyEmpty, Bool.and_eq_true] at hf
      exact ((times_of_stays (eq_of_onlyEmpty f hf.1) _).mp h).1

theorem eq_of_inTurn :
    ∀ fs : List Form, allOnlyEmpty fs = true → ∀ i j, InTurn t fs i j → i = j
  | [], _, _, _, h => h
  | f :: fs, hfs, i, j, ⟨m, hstep, hrest⟩ => by
      rw [allOnlyEmpty, Bool.and_eq_true] at hfs
      exact (eq_of_onlyEmpty f hfs.1 i m hstep).trans (eq_of_inTurn fs hfs.2 m j hrest)

theorem eq_of_anyOf :
    ∀ fs : List Form, allOnlyEmpty fs = true → ∀ i j, AnyOf t fs i j → i = j
  | f :: fs, hfs, i, j, h => by
      rw [allOnlyEmpty, Bool.and_eq_true] at hfs
      rcases h with h | h
      · exact eq_of_onlyEmpty f hfs.1 i j h
      · exact eq_of_anyOf fs hfs.2 i j h

end

theorem matches_times (f : Form) (count : Count) (greedy : Bool) :
    (f.times count greedy).Matches t i j ↔ Repeats (f.Matches t) count i j := by
  have hcount : Repeats (f.Matches t) (if f.onlyEmpty then count.once else count) i j ↔
      Repeats (f.Matches t) count i j := by
    split_ifs with h
    · exact repeats_once (eq_of_onlyEmpty f h) count
    · rfl
  rw [← hcount, times]
  generalize (if f.onlyEmpty then count.once else count) = counted
  rw [Repeats]
  split
  · next hleast hmost =>
      have hallows (k : Nat) : counted.Allows k ↔ k = 0 := by
        simp [Count.Allows, hleast, hmost]
      simp [hallows, Times, Matches]
  · next hleast hmost =>
      have hallows (k : Nat) : counted.Allows k ↔ k = 1 := by
        simp only [Count.Allows, hleast, hmost, Option.mem_some_iff, forall_eq']
        omega
      simp [hallows, Times, Relation.comp_eq]
  · rfl

theorem add_length_of_readsText {u : Text} (h : ReadsText t u i j) :
    i.val + u.length = j.val := by
  induction u generalizing i with
  | nil => exact congrArg Fin.val h
  | cons c u ih =>
      obtain ⟨_, ⟨k, rfl, rfl, -⟩, hrest⟩ := h
      have hbehind := ih hrest
      simp only [Fin.val_succ, Fin.val_castSucc, List.length_cons] at hbehind ⊢
      omega

theorem add_mul_le_of_times {k m : Nat} (hr : ∀ i j, r i j → i.val + k ≤ j.val)
    (h : Times r m i j) : i.val + k * m ≤ j.val := by
  induction m generalizing i with
  | zero => exact (congrArg Fin.val h).le
  | succ m ih =>
      obtain ⟨next, hstep, hrest⟩ := h
      have hfirst := hr i next hstep
      have hbehind := ih hrest
      rw [Nat.mul_succ]
      omega

mutual

/-- No match is shorter than the least length of its form. -/
theorem le_of_leastLength? : ∀ f : Form, ∀ k ∈ f.leastLength?, ∀ i j, f.Matches t i j →
    i.val + k ≤ j.val
  | .empty, _, rfl, _, _, h => (congrArg Fin.val h).le
  | .start, _, rfl, _, _, h | .finish, _, rfl, _, _, h => (congrArg Fin.val h.1).le
  | .literal u, _, rfl, _, _, h => (add_length_of_readsText h).le
  | .set r, k, hk, _, _, ⟨m, rfl, rfl, _⟩ => by
      rw [leastLength?, Option.mem_def, Option.ite_none_left_eq_some] at hk
      obtain rfl := Option.some.inj hk.2
      exact le_rfl
  | .group f, k, hk, i, j, h => le_of_leastLength? f k hk i j h
  | .sequence fs, k, hk, i, j, h => le_of_leastLengthInTurn? fs k hk i j h
  | .either fs, k, hk, i, j, h => le_of_leastLengthOfAny? fs k hk i j h
  | .repeated f count _, _, hk, i, j, ⟨m, ⟨hleast, _⟩, h⟩ => by
      obtain ⟨k, hbody, rfl⟩ := Option.map_eq_some_iff.mp hk
      have htimes := add_mul_le_of_times (le_of_leastLength? f k hbody) h
      have hmul : k * count.least ≤ k * m := Nat.mul_le_mul_left k hleast
      omega

theorem le_of_leastLengthInTurn? : ∀ fs : List Form, ∀ k ∈ leastLengthInTurn? fs, ∀ i j,
    InTurn t fs i j → i.val + k ≤ j.val
  | [], _, rfl, _, _, h => (congrArg Fin.val h).le
  | f :: fs, k, hk, i, j, ⟨m, hstep, hrest⟩ => by
      obtain ⟨a, ha, hk⟩ := Option.bind_eq_some_iff.mp hk
      obtain ⟨b, hb, hk⟩ := Option.bind_eq_some_iff.mp hk
      obtain rfl : a + b = k := Option.some.inj hk
      have hfirst := le_of_leastLength? f a ha i m hstep
      have hbehind := le_of_leastLengthInTurn? fs b hb m j hrest
      omega

theorem le_of_leastLengthOfAny? : ∀ fs : List Form, ∀ k ∈ leastLengthOfAny? fs, ∀ i j,
    AnyOf t fs i j → i.val + k ≤ j.val
  | [f], k, hk, i, j, h => le_of_leastLength? f k hk i j (h.resolve_right id)
  | f :: g :: fs, k, hk, i, j, h => by
      obtain ⟨a, ha, hk⟩ := Option.bind_eq_some_iff.mp hk
      obtain ⟨b, hb, hk⟩ := Option.bind_eq_some_iff.mp hk
      obtain rfl : min a b = k := Option.some.inj hk
      rcases h with h | h
      · have := le_of_leastLength? f a ha i j h
        omega
      · have := le_of_leastLengthOfAny? (g :: fs) b hb i j h
        omega

end

theorem lt_of_neverEmpty (hf : f.neverEmpty = true) (h : f.Matches t i j) : i < j := by
  obtain ⟨k, hk, hpos⟩ := (Option.any_eq_true ..).mp hf
  have hle := le_of_leastLength? f k hk i j h
  have hpos : 0 < k := of_decide_eq_true hpos
  exact Fin.lt_def.mpr (by omega)

end Form

mutual

theorem matches_form {n : Nat} {t : Vector Char n} :
    ∀ (p : Pattern) (i j : Fin (n + 1)), p.form.Matches t i j ↔ p.Matches t i j
  | .empty, _, _ | .start, _, _ | .finish, _, _ => Iff.rfl
  | .any, i, j => by
      rw [form, Form.Matches, Matches, Form.reads_congr contains_anyRanges]
  | .character c, i, j => by rw [form, Form.matches_literal, Matches]
  | .set s, i, j => by
      rw [form, Form.matches_ofRanges, Matches, Form.reads_congr fun c => s.contains_ranges c]
  | .group numbered p, i, j => by
      cases numbered <;> exact matches_form p i j
  | .sequence ps, i, j => by
      rw [form, Form.matches_inTurn]
      exact inTurn_formsOfParts ps i j
  | .either ps, i, j => by
      rw [form, Form.matches_anyOf]
      exact anyOf_formsOfParts ps i j
  | .repeated p count greedy, i, j => by
      have hbody : p.form.Matches t = p.Matches t := by
        funext i j
        exact propext (matches_form p i j)
      rw [form, Form.matches_times, hbody, Matches]

theorem inTurn_formsOfParts {n : Nat} {t : Vector Char n} :
    ∀ (ps : List Pattern) (i j : Fin (n + 1)),
      Form.InTurn t (formsOfParts ps) i j ↔ InTurn t ps i j
  | [], _, _ => Iff.rfl
  | p :: ps, i, j => exists_congr fun m =>
      and_congr (matches_form p i m) (inTurn_formsOfParts ps m j)

theorem anyOf_formsOfParts {n : Nat} {t : Vector Char n} :
    ∀ (ps : List Pattern) (i j : Fin (n + 1)),
      Form.AnyOf t (formsOfParts ps) i j ↔ AnyOf t ps i j
  | [], _, _ => Iff.rfl
  | p :: ps, i, j => or_congr (matches_form p i j) (anyOf_formsOfParts ps i j)

end

end RuleLang.Pattern
