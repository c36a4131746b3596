import RuleLang.Proofs.Rendering.Places
import RuleLang.Proofs.Typing.Depth

namespace RuleLang

namespace Tree

variable {t v : Token} {n : Nat} {u f l r : Tree} {op : Operator} {xs ys : List Tree}

theorem of_forget_atom {a : Atom} (h : u.forget = (Tree.atom t n a).forget) :
    ∃ v, u = .atom v n a := by
  cases u <;> simp_all [forget]

theorem of_forget_unary (h : u.forget = (Tree.unary t n op r).forget) :
    ∃ v r', u = .unary v n op r' ∧ r'.forget = r.forget := by
  cases u <;> simp_all [forget]

theorem of_forget_binary (h : u.forget = (Tree.binary t n op l r).forget) :
    ∃ v l' r', u = .binary v n op l' r' ∧ l'.forget = l.forget ∧ r'.forget = r.forget := by
  cases u <;> simp_all [forget]

theorem of_forget_call (h : u.forget = (Tree.call t n f xs).forget) :
    ∃ v f' ys, u = .call v n f' ys ∧ f'.forget = f.forget ∧ listForget ys = listForget xs := by
  cases u <;> simp_all [forget]

theorem of_listForget_cons (h : listForget ys = listForget (u :: xs)) :
    ∃ w ws, ys = w :: ws ∧ w.forget = u.forget ∧ listForget ws = listForget xs := by
  cases ys <;> simp_all [listForget]

end Tree

section Types

variable {s : Scope}

mutual

theorem HasType.of_forget :
    ∀ (t u : Tree) {τ : DataType}, u.forget = t.forget → HasType s t τ → HasType s u τ
  | .atom _ _ _, u, τ, h, ht => by
      obtain ⟨v, rfl⟩ := Tree.of_forget_atom h
      cases ht <;> constructor <;> assumption
  | .unary _ _ _ r, u, τ, h, ht => by
      obtain ⟨v, r', rfl, hr⟩ := Tree.of_forget_unary h
      cases ht with
      | bang hr' => exact .bang (of_forget r r' hr hr')
      | minus hr' => exact .minus (of_forget r r' hr hr')
  | .binary _ _ _ l r, u, τ, h, ht => by
      obtain ⟨v, l', r', rfl, hl, hr⟩ := Tree.of_forget_binary h
      cases ht with
      | calculate hl' hr' ho => exact .calculate (of_forget l l' hl hl') (of_forget r r' hr hr') ho
      | compareNumbers hl' hr' ho =>
          exact .compareNumbers (of_forget l l' hl hl') (of_forget r r' hr hr') ho
      | join hl' hr' => exact .join (of_forget l l' hl hl') (of_forget r r' hr hr')
      | compareStrings hl' hr' ho =>
          exact .compareStrings (of_forget l l' hl hl') (of_forget r r' hr hr') ho
      | equate hl' hr' ho => exact .equate (of_forget l l' hl hl') (of_forget r r' hr hr') ho
  | .call _ _ _ xs, u, τ, h, ht => by
      obtain ⟨v, f', ys, rfl, hf, hys⟩ := Tree.of_forget_call h
      cases ht with
      | call hf' hx ha hr =>
          obtain ⟨w, rfl⟩ := Tree.of_forget_atom hf
          exact .call hf' (all_of_forget xs ys hys hx) ha hr

theorem HasType.all_of_forget :
    ∀ (xs ys : List Tree) {types : List DataType}, Tree.listForget ys = Tree.listForget xs →
      List.Forall₂ (HasType s) xs types → List.Forall₂ (HasType s) ys types
  | [], ys, _, h, .nil => by
      cases ys with
      | nil => exact .nil
      | cons => simp [Tree.listForget] at h
  | t :: xs, ys, _, h, .cons ht hx => by
      obtain ⟨w, ws, rfl, hw, hws⟩ := Tree.of_listForget_cons h
      exact .cons (of_forget t w hw ht) (all_of_forget xs ws hws hx)

end

theorem valid_iff {t : Tree} :
    (validate s t).valid = true ↔ t.height ≤ s.maxDepth ∧ HasType s t .numeric := by
  obtain ⟨r, hv, hr⟩ := Infer.value_ends s t 0
  by_cases hh : t.height ≤ s.maxDepth
  · rw [validate_of_value (Infer.value_eq_infer s t 0 (by omega)), ← infer_ok_iff]
    cases hi : s.infer t with
    | error e => exact iff_of_false (by rintro ⟨⟩) (by simp)
    | ok v =>
        change (Validation.of (Validator.requireNumeric v)).valid = true ↔ _
        by_cases hn : v.type = .numeric <;> simp [Validator.requireNumeric, Validation.of, hn, hh]
  · obtain ⟨e, rfl⟩ := hr (by omega)
    rw [validate_of_value hv]
    exact iff_of_false (by rintro ⟨⟩) fun h => hh h.1

theorem valid_of_forget {t u : Tree} (h : u.forget = t.forget)
    (ht : (validate s t).valid = true) : (validate s u).valid = true := by
  have hheight : u.height = t.height := by
    rw [← (Tree.size_forget u).1, h, (Tree.size_forget t).1]
  rw [valid_iff] at ht ⊢
  exact ⟨hheight.trans_le ht.1, .of_forget t u h ht.2⟩

theorem valid_eq_of_forget {t u : Tree} (h : u.forget = t.forget) :
    (validate s u).valid = (validate s t).valid :=
  Bool.eq_iff_iff.mpr ⟨valid_of_forget h.symm, valid_of_forget h⟩

theorem error_eq_none_iff_valid {t : Tree} :
    (validate s t).error = none ↔ (validate s t).valid = true := by
  unfold validate
  cases (Validator.validate { scope := s } t).1 <;> simp [Validation.of]

end Types

def Tree.PlacedAt (nodes : List Tree) (offset : Int) : Prop :=
  ∃ v ∈ nodes, offset = v.token.offset

theorem Tree.PlacedAt.mono {nodes more : List Tree} {offset : Int} (h : PlacedAt nodes offset)
    (hs : nodes ⊆ more) : PlacedAt more offset := by
  obtain ⟨v, hv, ho⟩ := h
  exact ⟨v, hs hv, ho⟩

namespace Value

variable {nodes : List Tree} {op : Operator} {offset : Int} {l r v : Value}

def PlacedAt (nodes : List Tree) : Except TypeFault Value → Prop
  | .ok v => Tree.PlacedAt nodes v.offset
  | .error e => Tree.PlacedAt nodes e.diagnostic.offset

theorem placedAt_atom (s : Scope) (a : Atom) (h : Tree.PlacedAt nodes offset) :
    PlacedAt nodes (s.atom offset a) := by
  cases a with
  | number | string | boolean => exact h
  | identifier name =>
      simp only [Scope.atom, Scope.identifier]
      split
      · exact h
      · split
        · rename_i w hw
          obtain ⟨k, -, hk⟩ := Option.bind_eq_some_iff.mp hw
          have he : k.type ≠ .error := fun he => by simp [Keyword.value?_of_error he] at hk
          obtain ⟨w', hw', -, ho⟩ := Keyword.exists_value he offset
          obtain rfl : w = w' := Option.some.inj (hk.symm.trans hw')
          change Tree.PlacedAt nodes w.offset
          rwa [ho]
        · exact h
  | function name =>
      simp only [Scope.atom, Scope.function]
      split <;> exact h

theorem placedAt_unary (h : Tree.PlacedAt nodes offset) (hr : Tree.PlacedAt nodes r.offset) :
    PlacedAt nodes (unary op offset r) := by
  cases op with
  | bang => exact hr
  | minus =>
      simp only [unary]
      split
      · exact h
      · exact hr
  | _ => exact h

theorem placedAt_binary (h : Tree.PlacedAt nodes offset) (hl : Tree.PlacedAt nodes l.offset) :
    PlacedAt nodes (binary op offset l r) := by
  unfold binary
  dsimp only
  split <;> split_ifs <;> first | exact hl | exact h

theorem placedAt_result (f : Signature) (h : Tree.PlacedAt nodes offset) :
    PlacedAt nodes (result f offset) := by
  unfold result
  split
  · rename_i w hw
    change Tree.PlacedAt nodes w.offset
    rwa [(type_of_placeholder? hw).2]
  · exact h

theorem placedAt_call (vs : List Value) (h : Tree.PlacedAt nodes v.offset) :
    PlacedAt nodes (call v vs) := by
  unfold call
  split
  · split_ifs
    · exact placedAt_result _ h
    · exact h
    · split
      · exact h
      · exact placedAt_result _ h
  · exact h

end Value

namespace Infer

variable {α β : Type} {nodes more : List Tree} {made : α → Prop} {made' : β → Prop}

def Points (nodes : List Tree) (made : α → Prop) (x : Infer α) : Prop :=
  ∀ depth, match x depth with
    | .ok a _ => made a
    | .error e _ => Tree.PlacedAt nodes e.diagnostic.offset

namespace Points

theorem bind {x : Infer α} {f : α → Infer β} (h : Points nodes made x)
    (hf : ∀ a, made a → Points nodes made' (f a)) : Points nodes made' (x >>= f) := by
  intro depth
  have hx := h depth
  change match EStateM.bind x f depth with
    | .ok b _ => made' b
    | .error e _ => Tree.PlacedAt nodes e.diagnostic.offset
  unfold EStateM.bind
  cases hr : x depth with
  | ok a depth' =>
      rw [hr] at hx
      exact hf a hx depth'
  | error e depth' =>
      rw [hr] at hx
      exact hx

theorem nested {step : Infer α} {limit : Nat} {offset : Int} (ho : Tree.PlacedAt nodes offset)
    (h : Points nodes made step) : Points nodes made (nested limit offset step) := by
  intro depth
  unfold Infer.nested
  split_ifs
  · exact ho
  · have hx := h (depth + 1)
    cases hr : step (depth + 1) <;> simpa [hr] using hx

theorem settle {r : Except TypeFault Value} (h : Value.PlacedAt nodes r) :
    Points nodes (fun v => Tree.PlacedAt nodes v.offset) (settle r) := by
  intro depth
  cases r <;> exact h

theorem mono {made' : α → Prop} {x : Infer α} (h : Points nodes made x) (hs : nodes ⊆ more)
    (hm : ∀ a, made a → made' a) : Points more made' x := by
  intro depth
  have hx := h depth
  cases hr : x depth with
  | ok a => exact hm a (by simpa [hr] using hx)
  | error e => exact Tree.PlacedAt.mono (by simpa [hr] using hx) hs

theorem weaken {x : Infer α} (h : Points nodes made x) (hs : nodes ⊆ more) :
    Points more (fun _ => True) x :=
  h.mono hs fun _ _ => trivial

theorem within {x : Infer Value} (h : Points nodes (fun v => Tree.PlacedAt nodes v.offset) x)
    (hs : nodes ⊆ more) : Points more (fun v => Tree.PlacedAt more v.offset) x :=
  h.mono hs fun _ hv => hv.mono hs

end Points

variable (s : Scope)

mutual

theorem value_points :
    ∀ t : Tree, Points t.postorder (fun v => Tree.PlacedAt t.postorder v.offset) (value s t)
  | .atom t n a => by
      have hroot : Tree.PlacedAt [.atom t n a] t.offset := ⟨_, List.mem_singleton_self _, rfl⟩
      rw [value, Tree.postorder]
      exact .nested hroot (.settle (Value.placedAt_atom s a hroot))
  | .unary t n op r => by
      have hroot : Tree.PlacedAt (Tree.unary t n op r).postorder t.offset :=
        ⟨_, Tree.mem_postorder _, rfl⟩
      have hr := (value_points r).within (List.subset_append_left _ [.unary t n op r])
      rw [value]
      exact .nested hroot (hr.bind fun right hright =>
        .settle (Value.placedAt_unary hroot hright))
  | .binary t n op l r => by
      have hroot : Tree.PlacedAt (Tree.binary t n op l r).postorder t.offset :=
        ⟨_, Tree.mem_postorder _, rfl⟩
      have hl := (value_points l).within (List.subset_append_left _
        (r.postorder ++ [.binary t n op l r]))
      have hr := (value_points r).within (List.subset_append_of_subset_right l.postorder
        (List.subset_append_left _ [.binary t n op l r]))
      rw [value]
      exact .nested hroot (hl.bind fun left hleft => hr.bind fun right _ =>
        .settle (Value.placedAt_binary hroot hleft))
  | .call t n f xs => by
      have hroot : Tree.PlacedAt (Tree.call t n f xs).postorder t.offset :=
        ⟨_, Tree.mem_postorder _, rfl⟩
      have hf := (value_points f).within (List.subset_append_left _
        (Tree.listPostorder xs ++ [.call t n f xs]))
      have hx := (values_points xs).weaken (List.subset_append_of_subset_right f.postorder
        (List.subset_append_left _ [.call t n f xs]))
      rw [value]
      exact .nested hroot (hf.bind fun callee hcallee => hx.bind fun vs _ =>
        .settle (Value.placedAt_call vs hcallee))

theorem values_points :
    ∀ ts : List Tree, Points (Tree.listPostorder ts) (fun _ => True) (values s ts)
  | [] => fun _ => trivial
  | t :: ts => by
      have ht := (value_points t).weaken (List.subset_append_left _ (Tree.listPostorder ts))
      have hts := (values_points ts).weaken (List.subset_append_right t.postorder _)
      rw [values]
      exact ht.bind fun v _ => hts.bind fun vs _ _ => trivial

end

end Infer

theorem validate_error_cases {s : Scope} {t : Tree} {e : TypeFault}
    (h : (validate s t).error = some e) :
    e = .notNumeric ∨ Tree.PlacedAt t.postorder e.diagnostic.offset := by
  have hv := Infer.value_points s t 0
  unfold validate Validator.validate at h
  dsimp only at h
  cases hr : Infer.value s t 0 with
  | error d depth =>
      rw [hr] at h hv
      obtain rfl : d = e := Option.some.inj h
      exact .inr hv
  | ok v depth =>
      rw [hr] at h
      simp only [Validator.requireNumeric] at h
      split at h
      · cases h
      · obtain rfl := Option.some.inj h
        exact .inl rfl

end RuleLang
