import RuleLang.Proofs.Typing.Decision

namespace RuleLang

def DataType.nullified : List DataType :=
  [.byte, .object, .function]

theorem DataType.ofKeyword_eq_self {τ : DataType} (he : τ ≠ .error) (hn : τ ∉ nullified) :
    ofKeyword τ = τ := by
  cases τ <;> first | rfl | exact absurd rfl he | exact absurd (by decide) hn

theorem DataType.ofKeyword_of_mem_nullified {τ : DataType} (h : τ ∈ nullified) :
    ofKeyword τ = .null ∧ τ ≠ .null := by
  revert h
  cases τ <;> decide

namespace Scope

inductive Declares (s : Scope) (τ : DataType) : Tree → Prop
  | identifier {t : Token} {n : Nat} {name : Text} {k : Keyword} (hk : s.First name k)
      (hτ : k.type = τ) : Declares s τ (.atom t n (.identifier name))

variable {s : Scope} {τ : DataType} {x : Tree} {xs : List Tree} {ps : List Parameter}

theorem Declares.hasType (h : s.Declares τ x) (ht : s.trustNames = false) (he : τ ≠ .error) :
    HasType s x (.ofKeyword τ) := by
  cases h with
  | identifier hk hτ =>
      subst hτ
      exact .keyword ht hk he

theorem Declares.height_eq (h : s.Declares τ x) : x.height = 1 := by
  cases h
  rfl

theorem greatestHeight_of_declares (h : List.Forall₂ (fun p x => s.Declares p.type x) ps xs) :
    Tree.greatestHeight xs ≤ 1 := by
  induction h with
  | nil => simp [Tree.greatestHeight]
  | cons hx _ ih => simp [Tree.greatestHeight, hx.height_eq, ih]

theorem height_call_of_declares {t u : Token} {n m : Nat} {a : Atom}
    (h : List.Forall₂ (fun p x => s.Declares p.type x) ps xs) :
    (Tree.call t n (.atom u m a) xs).height ≤ 2 := by
  have hheight := greatestHeight_of_declares h
  simp only [Tree.height]
  omega

theorem hasType_of_declares (ht : s.trustNames = false)
    (h : List.Forall₂ (fun p x => s.Declares p.type x) ps xs)
    (he : ∀ p ∈ ps, p.type ≠ .error) :
    List.Forall₂ (HasType s) xs (ps.map fun p => .ofKeyword p.type) := by
  induction h with
  | nil => exact .nil
  | cons hx _ ih =>
      obtain ⟨hp, he⟩ := List.forall_mem_cons.mp he
      exact .cons (hx.hasType ht hp) (ih he)

theorem map_ofKeyword (he : ∀ p ∈ ps, p.type ≠ .error) (hn : ∀ p ∈ ps, p.type ∉ DataType.nullified) :
    ps.map (fun p => DataType.ofKeyword p.type) = ps.map (·.type) :=
  List.map_congr_left fun p hp => DataType.ofKeyword_eq_self (he p hp) (hn p hp)

end Scope

section Call

variable {s : Scope} {t u : Token} {n m depth : Nat} {name : Text} {f : Signature}
  {xs : List Tree}

theorem infer_call_of_kept {v : Value} (ht : s.trustNames = false)
    (hf : s.functions.find? name = some f)
    (hx : List.Forall₂ (fun p x => s.Declares p.type x) f.parameters xs)
    (he : ∀ p ∈ f.parameters, p.type ≠ .error)
    (hn : ∀ p ∈ f.parameters, p.type ∉ DataType.nullified)
    (hr : Value.placeholder? f.returnType u.offset = some v) :
    s.infer (.call t n (.atom u m (.function name)) xs) = .ok v := by
  have htypes := Scope.hasType_of_declares ht hx he
  rw [Scope.map_ofKeyword he hn] at htypes
  obtain ⟨vs, hvs, hvt, -⟩ := inferAll_of_hasType xs htypes
  have ha : f.Accepts (vs.map Value.type) := .inr hvt
  rw [Scope.infer_call hf hvs, Value.call_of_accepts ha, Value.result, hr]

theorem faulty_call_of_nullified {i : Nat} {p : Parameter} {x : Tree} (ht : s.trustNames = false)
    (hf : s.functions.find? name = some f) (hv : f.variadic = false)
    (he : ∀ q ∈ f.parameters, q.type ≠ .error)
    (hx : List.Forall₂ (fun p x => s.Declares p.type x) f.parameters xs)
    (hp : f.parameters[i]? = some p) (hi : xs[i]? = some x)
    (hn : ∀ q ∈ f.parameters.take i, q.type ∉ DataType.nullified)
    (hpn : p.type ∈ DataType.nullified) :
    Faulty s (.call t n (.atom u m (.function name)) xs)
      (.argumentType p.type .null x.anchor u.offset) := by
  obtain ⟨hpi, rfl⟩ := List.getElem?_eq_some_iff.mp hp
  obtain ⟨hxi, rfl⟩ := List.getElem?_eq_some_iff.mp hi
  have hps : f.parameters = f.parameters.take i ++ f.parameters[i] :: f.parameters.drop (i + 1) := by
    simp
  have hxs : xs = xs.take i ++ xs[i] :: xs.drop (i + 1) := by simp
  have hbefore := Scope.hasType_of_declares ht (List.forall₂_take i hx) fun q hq =>
    he q (List.mem_of_mem_take hq)
  rw [Scope.map_ofKeyword (fun q hq => he q (List.mem_of_mem_take hq)) hn] at hbefore
  have hat := List.forall₂_drop i hx
  rw [List.drop_eq_getElem_cons hpi, List.drop_eq_getElem_cons hxi] at hat
  cases hat with
  | cons hxp ha =>
      obtain ⟨hnull, hne⟩ := DataType.ofKeyword_of_mem_nullified hpn
      have hnone := hxp.hasType ht (he _ (List.getElem_mem hpi))
      rw [hnull] at hnone
      have hafter := Scope.hasType_of_declares ht ha fun q hq => he q (List.mem_of_mem_drop hq)
      have hfault := Faulty.argumentType (t := t) (u := u) (n := n) (m := m) hf hv hps hbefore hnone
        hne hafter ha.length_eq.symm
      rwa [← hxs] at hfault

theorem value_of_declared {v : Value} (ht : s.trustNames = false)
    (hf : s.functions.find? name = some f) (hv : f.variadic = false)
    (he : ∀ p ∈ f.parameters, p.type ≠ .error)
    (hx : List.Forall₂ (fun p x => s.Declares p.type x) f.parameters xs)
    (hr : Value.placeholder? f.returnType u.offset = some v) (hd : depth + 2 ≤ s.maxDepth) :
    ((∀ p ∈ f.parameters, p.type ∉ DataType.nullified) →
        Infer.value s (.call t n (.atom u m (.function name)) xs) depth = .ok v depth ∧
          v.type = f.returnType) ∧
      ∀ i p x, f.parameters[i]? = some p → xs[i]? = some x →
        (∀ q ∈ f.parameters.take i, q.type ∉ DataType.nullified) → p.type ∈ DataType.nullified →
          Infer.value s (.call t n (.atom u m (.function name)) xs) depth =
            .error (.argumentType p.type .null x.anchor u.offset) depth := by
  have hheight : (Tree.call t n (.atom u m (.function name)) xs).height ≤ 2 :=
    Scope.height_call_of_declares hx
  have hvalue := Infer.value_eq_infer s (.call t n (.atom u m (.function name)) xs) depth (by omega)
  constructor
  · intro hn
    rw [hvalue, infer_call_of_kept ht hf hx he hn hr]
    exact ⟨rfl, (Value.type_of_placeholder? hr).1⟩
  · intro i p x hp hi hn hpn
    have hfault := faulty_call_of_nullified (t := t) (u := u) (n := n) (m := m) ht hf hv he hx hp hi
      hn hpn
    rw [hvalue, infer_of_faulty hfault]
    rfl

end Call

def pairScope : Scope where
  keywords := [{ name := ['x'], type := .numeric }, { name := ['y'], type := .object },
    { name := ['x'], type := .string }]
  functions := [(['f'], { name := ['f'], returnType := .string
                          parameters := [{ index := 0, type := .numeric, name := ['a'] }] }),
    (['g'], { name := ['g'], returnType := .string
              parameters := [{ index := 0, type := .object, name := ['b'] }] })]

def callOnName (f x : Text) : Tree :=
  .call ⟨.openParen, ['('], 2, false⟩ 0 (.atom ⟨.ident, f, 1, false⟩ 0 (.function f))
    [.atom ⟨.ident, x, 3, false⟩ 0 (.identifier x)]

theorem declares_number :
    pairScope.Declares .numeric (.atom ⟨.ident, ['x'], 3, false⟩ 0 (.identifier ['x'])) :=
  .identifier ⟨rfl, [], _, rfl, List.forall_mem_nil _⟩ rfl

theorem declares_object :
    pairScope.Declares .object (.atom ⟨.ident, ['y'], 3, false⟩ 0 (.identifier ['y'])) :=
  .identifier ⟨rfl, [{ name := ['x'], type := .numeric }], _, rfl, by simp⟩ rfl

theorem value_of_declared_number :
    Infer.value pairScope (callOnName ['f'] ['x']) 0 = .ok ⟨.string [], 1⟩ 0 := by
  have hf : pairScope.functions.find? ['f'] =
      some { name := ['f'], returnType := .string
             parameters := [{ index := 0, type := .numeric, name := ['a'] }] } := rfl
  have hd : 0 + 2 ≤ pairScope.maxDepth := by decide
  have hcall := value_of_declared (t := ⟨.openParen, ['('], 2, false⟩)
    (u := ⟨.ident, ['f'], 1, false⟩) (n := 0) (m := 0) rfl hf rfl (by decide)
    (.cons declares_number .nil) rfl hd
  exact (hcall.1 (by decide)).1

theorem not_value_of_declared_object :
    ¬ ∀ (f : Signature) (xs : List Tree), pairScope.functions.find? ['g'] = some f →
        (∀ p ∈ f.parameters, p.type ≠ .error) →
        List.Forall₂ (fun p x => pairScope.Declares p.type x) f.parameters xs →
        ∃ v, Infer.value pairScope (.call ⟨.openParen, ['('], 2, false⟩ 0
          (.atom ⟨.ident, ['g'], 1, false⟩ 0 (.function ['g'])) xs) 0 = .ok v 0 := by
  intro h
  obtain ⟨v, hv⟩ := h _ _ rfl (by decide) (.cons declares_object .nil)
  have herror : Infer.value pairScope (callOnName ['g'] ['y']) 0 =
      .error (.argumentType .object .null 3 1) 0 := rfl
  cases herror.symm.trans hv

end RuleLang
