import RuleLang.Proofs.Typing.Decision

namespace RuleLang

def Tree.Mentions (t : Tree) (name : Text) : Prop :=
  ∃ u n, Tree.atom u n (.identifier name) ∈ t.postorder

namespace Scope

def AgreesOn (s s' : Scope) (nodes : List Tree) : Prop :=
  ∀ u n a, Tree.atom u n a ∈ nodes → s.atom u.offset a = s'.atom u.offset a

variable {s s' : Scope} {xs ys : List Tree}

theorem AgreesOn.left (h : s.AgreesOn s' (xs ++ ys)) : s.AgreesOn s' xs := by
  intro u n a ha
  exact h u n a (List.mem_append_left ys ha)

theorem AgreesOn.right (h : s.AgreesOn s' (xs ++ ys)) : s.AgreesOn s' ys := by
  intro u n a ha
  exact h u n a (List.mem_append_right xs ha)

end Scope

namespace Infer

variable {s s' : Scope}

mutual

theorem value_congr (hm : s.maxDepth = s'.maxDepth) :
    ∀ t : Tree, s.AgreesOn s' t.postorder → value s t = value s' t
  | .atom u n a, h => by
      have ha : s.atom u.offset a = s'.atom u.offset a := h u n a (Tree.mem_postorder _)
      rw [value, value, hm, ha]
  | .unary u n op r, h => by
      have hr : value s r = value s' r := value_congr hm r h.left
      rw [value, value, hm, hr]
  | .binary u n op l r, h => by
      have hl : value s l = value s' l := value_congr hm l h.left
      have hr : value s r = value s' r := value_congr hm r h.right.left
      rw [value, value, hm, hl, hr]
  | .call u n f xs, h => by
      have hf : value s f = value s' f := value_congr hm f h.left
      have hx : values s xs = values s' xs := values_congr hm xs h.right.left
      rw [value, value, hm, hf, hx]

theorem values_congr (hm : s.maxDepth = s'.maxDepth) :
    ∀ ts : List Tree, s.AgreesOn s' (Tree.listPostorder ts) → values s ts = values s' ts
  | [], _ => by
      rw [values, values]
  | t :: ts, h => by
      have ht : value s t = value s' t := value_congr hm t h.left
      have hts : values s ts = values s' ts := values_congr hm ts h.right
      rw [values, values, ht, hts]

end

end Infer

theorem Scope.identifier_of_numeric {s : Scope} {name : Text} {k : Keyword}
    (ht : s.trustNames = false) (hk : s.First name k) (hn : k.type = .numeric) (offset : Int) :
    s.identifier name offset = .ok ⟨.numeric .one, offset⟩ := by
  have hvalue : k.value? offset = some ⟨.numeric .one, offset⟩ := by
    simp [Keyword.value?, hn, Value.placeholder?]
  simp [identifier, ht, keyword?_of_first hk, hvalue]

theorem Scope.agreesOn_of_trusted {s : Scope} {t : Tree} (keywords : List Keyword)
    (ht : s.trustNames = false)
    (h : ∀ name, t.Mentions name → ∃ k, s.First name k ∧ k.type = .numeric) :
    { s with trustNames := true, keywords }.AgreesOn s t.postorder := by
  intro u n a ha
  cases a with
  | identifier name =>
      obtain ⟨k, hk, hn⟩ := h name ⟨u, n, ha⟩
      exact (identifier_of_numeric ht hk hn u.offset).symm
  | number | string | boolean | function => rfl

theorem Validator.validate_congr {s s' : Scope} {t : Tree} (h : Infer.value s t = Infer.value s' t)
    (depth : Nat) : (validate ⟨s, depth⟩ t).1 = (validate ⟨s', depth⟩ t).1 := by
  simp only [validate, h]
  cases Infer.value s' t depth <;> rfl

theorem value_of_trusted_names {s : Scope} {t : Tree} (keywords : List Keyword)
    (ht : s.trustNames = false)
    (h : ∀ name, t.Mentions name → ∃ k, s.First name k ∧ k.type = .numeric) :
    (∀ depth, Infer.value { s with trustNames := true, keywords } t depth =
      Infer.value s t depth) ∧
    (∀ depth, (Validator.validate ⟨{ s with trustNames := true, keywords }, depth⟩ t).1 =
      (Validator.validate ⟨s, depth⟩ t).1) ∧
    validate { s with trustNames := true, keywords } t = validate s t := by
  have hvalue : Infer.value { s with trustNames := true, keywords } t = Infer.value s t :=
    Infer.value_congr (by rfl) t (Scope.agreesOn_of_trusted keywords ht h)
  have hvalidate := Validator.validate_congr hvalue
  exact ⟨congrFun hvalue, hvalidate, congrArg Validation.of (hvalidate 0)⟩

/-- The tree of `x < -y`. -/
def comparedNames : Tree :=
  .binary ⟨.lt, ['<'], 2, false⟩ 0 .lt
    (.atom ⟨.ident, ['x'], 1, false⟩ 0 (.identifier ['x']))
    (.unary ⟨.minus, ['-'], 5, false⟩ 0 .minus
      (.atom ⟨.ident, ['y'], 6, false⟩ 0 (.identifier ['y'])))

/-- The first keyword of each name is a number, the second one of `x` is not. -/
def numericScope : Scope where
  keywords := [{ name := ['x'], type := .numeric }, { name := ['y'], type := .numeric },
    { name := ['x'], type := .string }]

theorem numericScope_declares :
    ∀ name, comparedNames.Mentions name →
      ∃ k, numericScope.First name k ∧ k.type = .numeric := by
  rintro name ⟨u, n, hmem⟩
  simp only [comparedNames, Tree.postorder, List.cons_append, List.nil_append, List.mem_cons,
    List.not_mem_nil, Tree.atom.injEq, Atom.identifier.injEq, reduceCtorEq, or_false] at hmem
  rcases hmem with ⟨-, -, rfl⟩ | ⟨-, -, rfl⟩
  · exact ⟨_, ⟨rfl, [], _, rfl, List.forall_mem_nil _⟩, rfl⟩
  · exact ⟨_, ⟨rfl, [{ name := ['x'], type := .numeric }], _, rfl, by simp⟩, rfl⟩

theorem value_of_trusted_names_compared :
    (∀ name, comparedNames.Mentions name →
        ∃ k, numericScope.First name k ∧ k.type = .numeric) ∧
      Infer.value { numericScope with trustNames := true, keywords := [] } comparedNames 0 =
        .ok ⟨.boolean true, 1⟩ 0 ∧
      validate { numericScope with trustNames := true, keywords := [] } comparedNames =
        ⟨false, some .notNumeric⟩ := by
  obtain ⟨hvalue, -, hvalidate⟩ := value_of_trusted_names [] rfl numericScope_declares
  exact ⟨numericScope_declares, (hvalue 0).trans rfl, hvalidate.trans rfl⟩

end RuleLang
