import RuleLang.Proofs.Typing.Decision
import RuleLang.Report

namespace RuleLang

structure Scope.Grows (s s' : Scope) : Prop where
  trustNames : s'.trustNames = s.trustNames
  keywords : ∃ more, s'.keywords = s.keywords ++ more
  functions : ∀ name f, s.functions.find? name = some f → s'.functions.find? name = some f
  maxDepth : s.maxDepth ≤ s'.maxDepth

namespace Scope

variable {s s' : Scope}

namespace Grows

theorem withKeywords (s : Scope) (more : List Keyword) :
    s.Grows { s with keywords := s.keywords ++ more } where
  trustNames := rfl
  keywords := ⟨more, rfl⟩
  functions _ _ hf := hf
  maxDepth := Nat.le_refl _

theorem withFunction {name : Text} (hn : s.functions.find? name = none) (f : Signature) :
    s.Grows { s with functions := s.functions.insert name f } where
  trustNames := rfl
  keywords := ⟨[], (List.append_nil _).symm⟩
  functions other g hg := by
    have hne : name ≠ other := by
      rintro rfl
      simp [hn] at hg
    rw [Functions.find?_insert, if_neg hne]
    exact hg
  maxDepth := Nat.le_refl _

theorem withLimit {limit : Nat} (h : s.maxDepth ≤ limit) :
    s.Grows { s with maxDepth := limit } where
  trustNames := rfl
  keywords := ⟨[], (List.append_nil _).symm⟩
  functions _ _ hf := hf
  maxDepth := h

theorem trans {s'' : Scope} (h : s.Grows s') (h' : s'.Grows s'') : s.Grows s'' where
  trustNames := h'.trustNames.trans h.trustNames
  keywords := by
    obtain ⟨more, hm⟩ := h.keywords
    obtain ⟨rest, hr⟩ := h'.keywords
    exact ⟨more ++ rest, by rw [hr, hm, List.append_assoc]⟩
  functions name f hf := h'.functions name f (h.functions name f hf)
  maxDepth := Nat.le_trans h.maxDepth h'.maxDepth

theorem keyword? {name : Text} {k : Keyword} (h : s.Grows s') (hk : s.keyword? name = some k) :
    s'.keyword? name = some k := by
  obtain ⟨more, hm⟩ := h.keywords
  unfold Scope.keyword? at hk ⊢
  rw [hm, List.find?_append, hk, Option.some_or]

theorem identifier {name : Text} {offset : Int} {v : Value} (h : s.Grows s')
    (hv : s.identifier name offset = .ok v) : s'.identifier name offset = .ok v := by
  unfold Scope.identifier at hv ⊢
  rw [h.trustNames]
  split at hv
  · rename_i ht
    rwa [if_pos ht]
  · rename_i ht
    rw [if_neg ht]
    cases hk : s.keyword? name with
    | none => simp [hk] at hv
    | some k => rwa [h.keyword? hk, ← hk]

theorem function {name : Text} {offset : Int} {v : Value} (h : s.Grows s')
    (hv : s.function name offset = .ok v) : s'.function name offset = .ok v := by
  unfold Scope.function at hv ⊢
  cases hf : s.functions.find? name with
  | none => simp [hf] at hv
  | some f =>
      rw [hf] at hv
      rwa [h.functions name f hf]

theorem atom {a : Atom} {offset : Int} {v : Value} (h : s.Grows s')
    (hv : s.atom offset a = .ok v) : s'.atom offset a = .ok v := by
  cases a with
  | identifier name => exact h.identifier hv
  | function name => exact h.function hv
  | number | string | boolean => exact hv

end Grows

end Scope

namespace Infer

variable {α β : Type} {x y : Infer α}

def Keeps (x y : Infer α) : Prop :=
  ∀ depth a depth', x depth = .ok a depth' → y depth = .ok a depth'

namespace Keeps

theorem refl (x : Infer α) : Keeps x x :=
  fun _ _ _ h => h

theorem settle {r r' : Except TypeFault α} (h : ∀ a, r = .ok a → r' = .ok a) :
    Keeps (settle r) (settle r') := by
  intro depth a depth' hx
  cases r with
  | error e => simp [Infer.settle] at hx
  | ok b => rwa [h b rfl]

theorem bind {f g : α → Infer β} (h : Keeps x y) (hf : ∀ a, Keeps (f a) (g a)) :
    Keeps (x >>= f) (y >>= g) := by
  intro depth b depth' hx
  change EStateM.bind x f depth = _ at hx
  change EStateM.bind y g depth = _
  unfold EStateM.bind at hx ⊢
  cases ha : x depth with
  | error e d => simp [ha] at hx
  | ok a d =>
      rw [ha] at hx
      rw [h depth a d ha]
      exact hf a d b depth' hx

theorem nested {limit limit' : Nat} {offset : Int} (hl : limit ≤ limit') (h : Keeps x y) :
    Keeps (nested limit offset x) (nested limit' offset y) := by
  intro depth a depth' hx
  unfold Infer.nested at hx ⊢
  split at hx
  · cases hx
  · rename_i hd
    rw [if_neg (by omega)]
    cases hs : x (depth + 1) with
    | error e d => simp [hs] at hx
    | ok b d =>
        rw [hs] at hx
        rwa [h (depth + 1) b d hs]

end Keeps

variable {s s' : Scope}

mutual

theorem value_keeps (h : s.Grows s') : ∀ t : Tree, Keeps (value s t) (value s' t)
  | .atom t n a => by
      rw [value, value]
      exact .nested h.maxDepth (.settle fun v hv => h.atom hv)
  | .unary t n op r => by
      rw [value, value]
      exact .nested h.maxDepth ((value_keeps h r).bind fun _ => .refl _)
  | .binary t n op l r => by
      rw [value, value]
      refine .nested h.maxDepth ((value_keeps h l).bind fun _ => ?_)
      exact (value_keeps h r).bind fun _ => .refl _
  | .call t n f xs => by
      rw [value, value]
      refine .nested h.maxDepth ((value_keeps h f).bind fun _ => ?_)
      exact (values_keeps h xs).bind fun _ => .refl _

theorem values_keeps (h : s.Grows s') : ∀ ts : List Tree, Keeps (values s ts) (values s' ts)
  | [] => by
      rw [values, values]
      exact .refl _
  | t :: ts => by
      rw [values, values]
      refine (value_keeps h t).bind fun _ => ?_
      exact (values_keeps h ts).bind fun _ => .refl _

end

end Infer

variable {s s' : Scope} {t : Tree}

theorem Validator.validate_of_keeps {v : Value}
    (h : Infer.Keeps (Infer.value s t) (Infer.value s' t)) (depth : Nat)
    (hv : (Validator.validate ⟨s, depth⟩ t).1 = .ok v) :
    (Validator.validate ⟨s', depth⟩ t).1 = .ok v := by
  unfold Validator.validate at hv ⊢
  dsimp only at hv ⊢
  cases hx : Infer.value s t depth with
  | error e d => simp [hx] at hv
  | ok w d =>
      rw [hx] at hv
      rwa [h depth w d hx]

theorem validate_eq_of_valid (h : Infer.Keeps (Infer.value s t) (Infer.value s' t))
    (hv : (validate s t).valid = true) : validate s' t = validate s t := by
  unfold validate at hv ⊢
  cases hr : (Validator.validate { scope := s } t).1 with
  | error e => simp [hr, Validation.of] at hv
  | ok v => rw [Validator.validate_of_keeps h 0 hr]

theorem check_eq_of_valid {l : LexOptions} {p : ParseOptions} {source : Text}
    (h : ∀ t, Infer.Keeps (Infer.value s t) (Infer.value s' t))
    (hv : (check l p s source).valid = true) : check l p s' source = check l p s source := by
  unfold check at hv ⊢
  dsimp only at hv ⊢
  split at hv
  · cases hv
  · cases hv
  · cases hv
  · rename_i t he hp ht
    simp only [ht, validate_eq_of_valid (h t) hv]

theorem value_of_grows (h : s.Grows s') (t : Tree) :
    (∀ depth v depth', Infer.value s t depth = .ok v depth' →
      Infer.value s' t depth = .ok v depth') ∧
    (∀ depth v, (Validator.validate ⟨s, depth⟩ t).1 = .ok v →
      (Validator.validate ⟨s', depth⟩ t).1 = .ok v) ∧
    ((validate s t).valid = true → validate s' t = validate s t) ∧
    ∀ (l : LexOptions) (p : ParseOptions) (source : Text),
      (check l p s source).valid = true → check l p s' source = check l p s source := by
  have hkeeps := Infer.value_keeps h
  exact ⟨hkeeps t, fun depth _ => Validator.validate_of_keeps (hkeeps t) depth,
    validate_eq_of_valid (hkeeps t), fun _ _ _ => check_eq_of_valid hkeeps⟩

def grownScope : Scope :=
  { lengthScope with
    keywords := lengthScope.keywords ++ [{ name := ['x'], type := .numeric }]
    functions := lengthScope.functions.insert ['g'] { name := ['g'], returnType := .json }
    maxDepth := 200 }

theorem value_of_grows_callAndOne :
    lengthScope.Grows grownScope ∧
      Infer.value lengthScope callAndOne 0 = .ok ⟨.numeric .one, 1⟩ 0 ∧
      Infer.value grownScope callAndOne 0 = .ok ⟨.numeric .one, 1⟩ 0 := by
  have hunknown : lengthScope.functions.find? ['g'] = none := by decide
  have hfunction := Scope.Grows.withFunction hunknown { name := ['g'], returnType := .json }
  have hkeywords := hfunction.trans (.withKeywords _ [{ name := ['x'], type := .numeric }])
  have hgrows : lengthScope.Grows grownScope := hkeywords.trans (.withLimit (by decide))
  have hvalue : Infer.value lengthScope callAndOne 0 = .ok ⟨.numeric .one, 1⟩ 0 := by
    rfl
  exact ⟨hgrows, hvalue, (value_of_grows hgrows callAndOne).1 _ _ _ hvalue⟩

end RuleLang
