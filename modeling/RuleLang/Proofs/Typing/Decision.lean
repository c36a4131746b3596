import RuleLang.Proofs.Typing.Inference
import RuleLang.Proofs.Typing.System

namespace RuleLang

variable {s : Scope}

theorem Scope.keyword?_of_first {name : Text} {k : Keyword} (h : s.First name k) :
    s.keyword? name = some k := by
  obtain ⟨hn, before, after, hs, hb⟩ := h
  rw [Scope.keyword?, hs, List.find?_eq_some_iff_append]
  exact ⟨by simpa using hn, before, after, rfl, by simpa using hb⟩

theorem Scope.first_of_keyword? {name : Text} {k : Keyword} (h : s.keyword? name = some k) :
    s.First name k := by
  obtain ⟨hn, before, after, hs, hb⟩ := List.find?_eq_some_iff_append.mp h
  exact ⟨by simpa using hn, before, after, hs, by simpa using hb⟩

theorem Keyword.exists_value {k : Keyword} (h : k.type ≠ .error) (offset : Int) :
    ∃ v, k.value? offset = some v ∧ v.type = .ofKeyword k.type ∧ v.offset = offset := by
  unfold Keyword.value?
  cases hk : k.type <;> first | exact absurd hk h | exact ⟨_, rfl, rfl, rfl⟩

theorem Keyword.value?_of_error {k : Keyword} (h : k.type = .error) (offset : Int) :
    k.value? offset = none := by
  simp [Keyword.value?, h]

theorem Scope.identifier_of_first {name : Text} {k : Keyword} (ht : s.trustNames = false)
    (hk : s.First name k) (he : k.type ≠ .error) (offset : Int) :
    ∃ v, s.identifier name offset = .ok v ∧ v.type = .ofKeyword k.type ∧ v.offset = offset := by
  obtain ⟨v, hv, hvt⟩ := Keyword.exists_value he offset
  exact ⟨v, by simp [Scope.identifier, ht, Scope.keyword?_of_first hk, hv], hvt⟩

theorem Scope.identifier_of_unknown {name : Text} (ht : s.trustNames = false)
    (hk : s.Unknown name) (offset : Int) :
    s.identifier name offset = .error (.unknownName name offset) := by
  simp only [Scope.identifier, ht, Bool.false_eq_true, if_false]
  cases hf : s.keyword? name with
  | none => rfl
  | some k => simp [Keyword.value?_of_error (hk k (Scope.first_of_keyword? hf)) offset]

namespace Value

variable {op : Operator} {offset : Int} {l r : Value}

theorem placeholder?_of_mem {t : DataType} (h : t ∈ DataType.inhabited) (offset : Int) :
    ∃ v, placeholder? t offset = some v ∧ v.type = t ∧ v.offset = offset := by
  cases t <;> first | exact ⟨_, rfl, rfl, rfl⟩ | simp [DataType.inhabited] at h

theorem placeholder?_of_notMem {t : DataType} (h : t ∉ DataType.inhabited) (offset : Int) :
    placeholder? t offset = none := by
  cases t <;> first | rfl | simp [DataType.inhabited] at h

theorem result_of_mem {f : Signature} (h : f.returnType ∈ DataType.inhabited) (offset : Int) :
    ∃ v, result f offset = .ok v ∧ v.type = f.returnType ∧ v.offset = offset := by
  obtain ⟨v, hv, hvt⟩ := placeholder?_of_mem h offset
  exact ⟨v, by simp [result, hv], hvt⟩

theorem result_of_notMem {f : Signature} (h : f.returnType ∉ DataType.inhabited) (offset : Int) :
    result f offset = .error (.unsupportedResult f.returnType offset) := by
  simp [result, placeholder?_of_notMem h offset]

theorem isArithmetic_iff : op.isArithmetic = true ↔ op ∈ Operator.arithmetic := by
  cases op <;> decide

theorem isComparison_iff : op.isComparison = true ↔ op ∈ Operator.comparisons := by
  cases op <;> decide

theorem eq_or_ne_iff : op = .eq ∨ op = .ne ↔ op ∈ Operator.equalities := by
  cases op <;> decide

theorem binary_numbers (hl : l.type = .numeric) (hr : r.type = .numeric) :
    binary op offset l r =
      if op ∈ Operator.arithmetic then .ok ⟨.numeric .one, l.offset⟩
      else if op ∈ Operator.comparisons then .ok ⟨.boolean true, l.offset⟩
      else .error (.notBinary .numeric op .numeric l.offset) := by
  simp only [binary, hl, hr, isArithmetic_iff, isComparison_iff]

theorem binary_strings (hl : l.type = .string) (hr : r.type = .string) :
    binary op offset l r =
      if op = .plus then .ok ⟨.string [], l.offset⟩
      else if op ∈ Operator.comparisons then .ok ⟨.boolean true, l.offset⟩
      else .error (.notBinary .string op .string l.offset) := by
  simp only [binary, hl, hr, isComparison_iff]

theorem binary_other (hn : ¬ (l.type = .numeric ∧ r.type = .numeric))
    (hs : ¬ (l.type = .string ∧ r.type = .string)) :
    binary op offset l r =
      if op ∈ Operator.equalities then .ok ⟨.boolean true, l.offset⟩
      else if l.type ≠ r.type then .error (.mismatch l.type op r.type offset)
      else .error (.notBinary l.type op r.type offset) := by
  unfold binary
  dsimp only
  split
  · exact absurd ⟨‹_›, ‹_›⟩ hn
  · exact absurd ⟨‹_›, ‹_›⟩ hs
  · simp only [eq_or_ne_iff]

theorem binary_equalities (ho : op ∈ Operator.equalities) :
    binary op offset l r = .ok ⟨.boolean true, l.offset⟩ := by
  have hc : op ∈ Operator.comparisons ∧ op ∉ Operator.arithmetic ∧ op ≠ .plus := by
    revert ho
    cases op <;> decide
  by_cases hn : l.type = .numeric ∧ r.type = .numeric
  · rw [binary_numbers hn.1 hn.2, if_neg hc.2.1, if_pos hc.1]
  · by_cases hs : l.type = .string ∧ r.type = .string
    · rw [binary_strings hs.1 hs.2, if_neg hc.2.2, if_pos hc.1]
    · rw [binary_other hn hs, if_pos ho]

theorem misfit?_of_types {ps : List Parameter} {vs : List Value}
    (h : vs.map type = ps.map (·.type)) : misfit? ps vs = none := by
  induction ps generalizing vs with
  | nil => rfl
  | cons p ps ih =>
      cases vs with
      | nil => rfl
      | cons v vs =>
          simp only [List.map_cons, List.cons.injEq] at h
          have hps := ih h.2
          simpa [misfit?, h.1] using hps

theorem misfit?_first {accepted rest : List Parameter} {p : Parameter} {before after : List Value}
    {v : Value} (hb : before.map type = accepted.map (·.type)) (hne : p.type ≠ v.type) :
    misfit? (accepted ++ p :: rest) (before ++ v :: after) = some (p, v) := by
  induction accepted generalizing before with
  | nil =>
      obtain rfl : before = [] := by simpa using hb
      simp [misfit?, hne]
  | cons q accepted ih =>
      cases before with
      | nil => simp at hb
      | cons w before =>
          simp only [List.map_cons, List.cons.injEq] at hb
          simpa [misfit?, hb.1] using ih hb.2

variable {f : Signature} {vs : List Value}

theorem call_of_accepts (ha : f.Accepts (vs.map type)) :
    call ⟨.function f, offset⟩ vs = result f offset := by
  rcases ha with hv | ht
  · simp [call, hv]
  · have hl : vs.length = f.parameters.length := by simpa using congrArg List.length ht
    simp [call, hl, misfit?_of_types ht]

theorem call_of_length (hv : f.variadic = false) (hl : vs.length ≠ f.parameters.length) :
    call ⟨.function f, offset⟩ vs =
      .error (.argumentCount f.parameters.length vs.length offset) := by
  simp [call, hv, hl]

theorem call_of_misfit {p : Parameter} {v : Value} (hv : f.variadic = false)
    (hl : vs.length = f.parameters.length) (hm : misfit? f.parameters vs = some (p, v)) :
    call ⟨.function f, offset⟩ vs = .error (.argumentType p.type v.type v.offset offset) := by
  simp [call, hv, hl, hm]

theorem call_of_type (h : l.type ≠ .function) :
    call l vs = .error (.notAFunction l.type l.offset) := by
  unfold call
  split
  · next f hf => exact absurd (by simp [type, hf, Content.type]) h
  · rfl

end Value

def Suits (t : Tree) (τ : DataType) (v : Value) : Prop :=
  v.type = τ ∧ v.offset = t.anchor

theorem Scope.infer_function {u : Token} {m : Nat} {name : Text} {f : Signature}
    (hf : s.functions.find? name = some f) :
    s.infer (.atom u m (.function name)) = .ok ⟨.function f, u.offset⟩ := by
  simp [infer, Scope.atom, Scope.function, hf]

theorem Scope.infer_call {t u : Token} {n m : Nat} {name : Text} {f : Signature} {xs : List Tree}
    {vs : List Value} (hf : s.functions.find? name = some f) (hx : s.inferAll xs = .ok vs) :
    s.infer (.call t n (.atom u m (.function name)) xs) =
      Value.call ⟨.function f, u.offset⟩ vs := by
  rw [infer, infer_function hf, hx]
  rfl

theorem Scope.infer_unary {t : Token} {n : Nat} {op : Operator} {r : Tree} {right : Value}
    (hr : s.infer r = .ok right) :
    s.infer (.unary t n op r) = Value.unary op t.offset right := by
  rw [infer, hr]
  rfl

theorem Scope.infer_binary {t : Token} {n : Nat} {op : Operator} {l r : Tree}
    {left right : Value} (hl : s.infer l = .ok left) (hr : s.infer r = .ok right) :
    s.infer (.binary t n op l r) = Value.binary op t.offset left right := by
  rw [infer, hl, hr]
  rfl

mutual

theorem infer_of_hasType :
    ∀ (t : Tree) {τ : DataType}, HasType s t τ → ∃ v, s.infer t = .ok v ∧ Suits t τ v
  | .atom t n a, τ, h => by
      cases h with
      | number => exact ⟨_, rfl, rfl, rfl⟩
      | string => exact ⟨_, rfl, rfl, rfl⟩
      | boolean => exact ⟨_, rfl, rfl, rfl⟩
      | trusted ht =>
          exact ⟨⟨.numeric .one, t.offset⟩,
            by simp [Scope.infer, Scope.atom, Scope.identifier, ht], rfl, rfl⟩
      | keyword ht hk he => exact Scope.identifier_of_first ht hk he _
      | function hf => exact ⟨_, Scope.infer_function hf, rfl, rfl⟩
  | .unary t n op r, τ, h => by
      cases h with
      | bang hr =>
          obtain ⟨v, hv, -, ho⟩ := infer_of_hasType r hr
          exact ⟨_, Scope.infer_unary hv, rfl, ho⟩
      | minus hr =>
          obtain ⟨v, hv, ht, -⟩ := infer_of_hasType r hr
          exact ⟨⟨.numeric .one, t.offset⟩, by simp [Scope.infer_unary hv, Value.unary, ht], rfl, rfl⟩
  | .binary t n op l r, τ, h => by
      cases h with
      | calculate hl hr ho =>
          obtain ⟨a, ha, hat, hao⟩ := infer_of_hasType l hl
          obtain ⟨b, hb, hbt, -⟩ := infer_of_hasType r hr
          rw [Scope.infer_binary ha hb, Value.binary_numbers hat hbt, if_pos ho]
          exact ⟨_, rfl, rfl, hao⟩
      | compareNumbers hl hr ho =>
          obtain ⟨a, ha, hat, hao⟩ := infer_of_hasType l hl
          obtain ⟨b, hb, hbt, -⟩ := infer_of_hasType r hr
          have hn : op ∉ Operator.arithmetic := by
            revert ho
            cases op <;> decide
          rw [Scope.infer_binary ha hb, Value.binary_numbers hat hbt, if_neg hn, if_pos ho]
          exact ⟨_, rfl, rfl, hao⟩
      | join hl hr =>
          obtain ⟨a, ha, hat, hao⟩ := infer_of_hasType l hl
          obtain ⟨b, hb, hbt, -⟩ := infer_of_hasType r hr
          rw [Scope.infer_binary ha hb, Value.binary_strings hat hbt, if_pos rfl]
          exact ⟨_, rfl, rfl, hao⟩
      | compareStrings hl hr ho =>
          obtain ⟨a, ha, hat, hao⟩ := infer_of_hasType l hl
          obtain ⟨b, hb, hbt, -⟩ := infer_of_hasType r hr
          have hn : op ≠ .plus := by
            revert ho
            cases op <;> decide
          rw [Scope.infer_binary ha hb, Value.binary_strings hat hbt, if_neg hn, if_pos ho]
          exact ⟨_, rfl, rfl, hao⟩
      | equate hl hr ho =>
          obtain ⟨a, ha, -, hao⟩ := infer_of_hasType l hl
          obtain ⟨b, hb, -, -⟩ := infer_of_hasType r hr
          rw [Scope.infer_binary ha hb, Value.binary_equalities ho]
          exact ⟨_, rfl, rfl, hao⟩
  | .call t n f xs, τ, h => by
      cases h with
      | call hf hx ha hr =>
          obtain ⟨vs, hvs, ht, -⟩ := inferAll_of_hasType xs hx
          rw [Scope.infer_call hf hvs, Value.call_of_accepts (ht.symm ▸ ha)]
          exact Value.result_of_mem hr _

theorem inferAll_of_hasType :
    ∀ (ts : List Tree) {types : List DataType}, List.Forall₂ (HasType s) ts types →
      ∃ vs, s.inferAll ts = .ok vs ∧ vs.map Value.type = types ∧
        vs.map Value.offset = ts.map Tree.anchor
  | [], types, h => by
      cases h
      exact ⟨[], rfl, rfl, rfl⟩
  | t :: ts, types, h => by
      cases h with
      | cons ht hts =>
          obtain ⟨v, hv, hvt, hvo⟩ := infer_of_hasType t ht
          obtain ⟨vs, hvs, htypes, hoffsets⟩ := inferAll_of_hasType ts hts
          refine ⟨v :: vs, ?_, by simp [hvt, htypes], by simp [hvo, hoffsets]⟩
          rw [Scope.inferAll, hv, hvs]
          rfl

end

theorem exists_values_around {before after : List Tree} {x : Tree} {σ : DataType}
    {front back : List DataType} (hb : List.Forall₂ (HasType s) before front) (hx : HasType s x σ)
    (ha : List.Forall₂ (HasType s) after back) :
    ∃ vs v ws, s.inferAll (before ++ x :: after) = .ok (vs ++ v :: ws) ∧
      vs.map Value.type = front ∧ Suits x σ v ∧ ws.length = after.length := by
  obtain ⟨all, hall, ht, ho⟩ := inferAll_of_hasType _ (List.rel_append hb (.cons hx ha))
  obtain ⟨vs, rest, rfl, hvs, hrest⟩ := List.map_eq_append_iff.mp ht
  obtain ⟨v, ws, rfl, hv, hws⟩ := List.map_eq_cons_iff.mp hrest
  have hfront : vs.length = before.length := by
    rw [hb.length_eq, ← hvs, List.length_map]
  have hback : ws.length = after.length := by
    rw [ha.length_eq, ← hws, List.length_map]
  simp only [List.map_append, List.map_cons] at ho
  have hoffset := (List.cons.inj (List.append_inj ho (by simpa using hfront)).2).1
  exact ⟨vs, v, ws, hall, hvs, ⟨hv, hoffset⟩, hback⟩

theorem infer_of_faulty {t : Tree} {e : TypeFault} (h : Faulty s t e) : s.infer t = .error e := by
  cases h with
  | unknownName ht hk => exact Scope.identifier_of_unknown ht hk _
  | unknownFunction hf => simp [Scope.infer, Scope.atom, Scope.function, hf]
  | notNegatable hr hτ =>
      obtain ⟨v, hv, rfl, hvo⟩ := infer_of_hasType _ hr
      simp [Scope.infer_unary hv, Value.unary, hτ, hvo]
  | notUnary hr hb hm =>
      obtain ⟨v, hv, rfl, -⟩ := infer_of_hasType _ hr
      rw [Scope.infer_unary hv]
      unfold Value.unary
      split <;> first | rfl | contradiction
  | notForNumbers hl hr ha hc =>
      obtain ⟨a, hia, hat, hao⟩ := infer_of_hasType _ hl
      obtain ⟨b, hib, hbt, -⟩ := infer_of_hasType _ hr
      rw [Scope.infer_binary hia hib, Value.binary_numbers hat hbt, if_neg ha, if_neg hc, hao]
  | notForStrings hl hr hp hc =>
      obtain ⟨a, hia, hat, hao⟩ := infer_of_hasType _ hl
      obtain ⟨b, hib, hbt, -⟩ := infer_of_hasType _ hr
      rw [Scope.infer_binary hia hib, Value.binary_strings hat hbt, if_neg hp, if_neg hc, hao]
  | notBinary hl hr hn hs ho =>
      obtain ⟨a, hia, rfl, -⟩ := infer_of_hasType _ hl
      obtain ⟨b, hib, hbt, -⟩ := infer_of_hasType _ hr
      rw [Scope.infer_binary hia hib, Value.binary_other (by simp [hn]) (by simp [hs]), if_neg ho,
        hbt, if_neg (by simp)]
  | mismatch hl hr hne ho =>
      obtain ⟨a, hia, rfl, -⟩ := infer_of_hasType _ hl
      obtain ⟨b, hib, rfl, -⟩ := infer_of_hasType _ hr
      have hboth (τ : DataType) : ¬ (a.type = τ ∧ b.type = τ) :=
        fun ⟨ha, hb⟩ => hne (ha.trans hb.symm)
      rw [Scope.infer_binary hia hib, Value.binary_other (hboth _) (hboth _), if_neg ho,
        if_pos hne]
  | notAFunction hf hτ hx =>
      obtain ⟨v, hv, rfl, hvo⟩ := infer_of_hasType _ hf
      obtain ⟨vs, hvs, -, -⟩ := inferAll_of_hasType _ hx
      rw [Scope.infer, hv, hvs, ← hvo]
      exact Value.call_of_type hτ
  | argumentCount hf hx hv hl =>
      obtain ⟨vs, hvs, -, ho⟩ := inferAll_of_hasType _ hx
      have hlen := congrArg List.length ho
      simp only [List.length_map] at hlen
      rw [Scope.infer_call hf hvs, Value.call_of_length hv (hlen ▸ hl), hlen]
  | @argumentType t u n m name f x before after p accepted rest τ types hf hv hp hb hx hne ha hl =>
      obtain ⟨vs, v, ws, hall, hvs, ⟨rfl, ho⟩, hws⟩ := exists_values_around hb hx ha
      have hlen : (vs ++ v :: ws).length = f.parameters.length := by
        have haccepted := congrArg List.length hvs
        simp only [List.length_map] at haccepted
        simp only [hp, List.length_append, List.length_cons]
        omega
      have hm : Value.misfit? f.parameters (vs ++ v :: ws) = some (p, v) := by
        rw [hp]
        exact Value.misfit?_first hvs hne
      rw [Scope.infer_call hf hall, Value.call_of_misfit hv hlen hm, ho]
  | unsupportedResult hf hx ha hr =>
      obtain ⟨vs, hvs, ht, -⟩ := inferAll_of_hasType _ hx
      rw [Scope.infer_call hf hvs, Value.call_of_accepts (ht.symm ▸ ha),
        Value.result_of_notMem hr]

theorem not_blames_nil {e : TypeFault} : ¬ Blames s [] e := by
  intro h
  cases h

theorem blames_append {xs ys : List Tree} {e : TypeFault} :
    Blames s (xs ++ ys) e ↔ Blames s xs e ∨ (∀ w ∈ xs, Typable s w) ∧ Blames s ys e := by
  induction xs with
  | nil => simp [not_blames_nil]
  | cons x xs ih =>
      constructor
      · rintro (hx | ⟨hx, h⟩)
        · exact .inl (.here hx)
        · rcases ih.mp h with h | ⟨hall, h⟩
          · exact .inl (.later hx h)
          · exact .inr ⟨List.forall_mem_cons.mpr ⟨hx, hall⟩, h⟩
      · rintro (h | ⟨hall, h⟩)
        · cases h with
          | here hx => exact .here hx
          | later hx h => exact .later hx (ih.mpr (.inl h))
        · obtain ⟨hx, hall⟩ := List.forall_mem_cons.mp hall
          exact .later hx (ih.mpr (.inr ⟨hall, h⟩))

theorem blames_singleton {t : Tree} {e : TypeFault} : Blames s [t] e ↔ Faulty s t e := by
  constructor
  · rintro (h | ⟨-, h⟩)
    · exact h
    · exact absurd h not_blames_nil
  · exact .here

theorem Tree.subset_listPostorder (ts : List Tree) : ts ⊆ Tree.listPostorder ts := by
  induction ts with
  | nil => simp
  | cons t ts ih =>
      intro u hu
      rw [Tree.listPostorder, List.mem_append]
      rcases List.mem_cons.mp hu with rfl | hu
      · exact .inl u.mem_postorder
      · exact .inr (ih hu)

theorem exists_types {ts : List Tree} (h : ∀ t ∈ ts, Typable s t) :
    ∃ types, List.Forall₂ (HasType s) ts types := by
  induction ts with
  | nil => exact ⟨[], .nil⟩
  | cons t ts ih =>
      obtain ⟨⟨τ, ht⟩, hts⟩ := List.forall_mem_cons.mp h
      obtain ⟨types, htypes⟩ := ih hts
      exact ⟨τ :: types, .cons ht htypes⟩

mutual

theorem infer_of_blames :
    ∀ (t : Tree) {e : TypeFault}, Blames s t.postorder e → s.infer t = .error e
  | .atom t n a, e, h => infer_of_faulty (blames_singleton.mp h)
  | .unary t n op r, e, h => by
      rw [Tree.postorder, blames_append, blames_singleton] at h
      rcases h with h | ⟨-, h⟩
      · rw [Scope.infer, infer_of_blames r h]
        rfl
      · exact infer_of_faulty h
  | .binary t n op l r, e, h => by
      rw [Tree.postorder, blames_append, blames_append, blames_singleton] at h
      rcases h with h | ⟨hall, h | ⟨-, h⟩⟩
      · rw [Scope.infer, infer_of_blames l h]
        rfl
      · obtain ⟨τ, hl⟩ := hall l l.mem_postorder
        obtain ⟨v, hv, -⟩ := infer_of_hasType l hl
        rw [Scope.infer, hv, infer_of_blames r h]
        rfl
      · exact infer_of_faulty h
  | .call t n f xs, e, h => by
      rw [Tree.postorder, blames_append, blames_append, blames_singleton] at h
      rcases h with h | ⟨hall, h | ⟨-, h⟩⟩
      · rw [Scope.infer, infer_of_blames f h]
        rfl
      · obtain ⟨τ, hf⟩ := hall f f.mem_postorder
        obtain ⟨v, hv, -⟩ := infer_of_hasType f hf
        rw [Scope.infer, hv, inferAll_of_blames xs h]
        rfl
      · exact infer_of_faulty h

theorem inferAll_of_blames :
    ∀ (ts : List Tree) {e : TypeFault}, Blames s (Tree.listPostorder ts) e →
      s.inferAll ts = .error e
  | [], e, h => absurd h not_blames_nil
  | t :: ts, e, h => by
      rw [Tree.listPostorder, blames_append] at h
      rcases h with h | ⟨hall, h⟩
      · rw [Scope.inferAll, infer_of_blames t h]
        rfl
      · obtain ⟨τ, ht⟩ := hall t t.mem_postorder
        obtain ⟨v, hv, -⟩ := infer_of_hasType t ht
        rw [Scope.inferAll, hv, inferAll_of_blames ts h]
        rfl

end

section Progress

variable {t : Token} {n : Nat}

theorem atom_typable_or_faulty (a : Atom) :
    Typable s (.atom t n a) ∨ ∃ e, Faulty s (.atom t n a) e := by
  cases a with
  | number => exact .inl ⟨_, .number⟩
  | string => exact .inl ⟨_, .string⟩
  | boolean => exact .inl ⟨_, .boolean⟩
  | function name =>
      cases hf : s.functions.find? name with
      | none => exact .inr ⟨_, .unknownFunction hf⟩
      | some f => exact .inl ⟨_, .function hf⟩
  | identifier name =>
      cases ht : s.trustNames with
      | true => exact .inl ⟨_, .trusted ht⟩
      | false =>
          by_cases hk : ∃ k, s.First name k ∧ k.type ≠ .error
          · obtain ⟨k, hk, he⟩ := hk
            exact .inl ⟨_, .keyword ht hk he⟩
          · refine .inr ⟨_, .unknownName ht fun k hf => ?_⟩
            by_contra he
            exact hk ⟨k, hf, he⟩

theorem unary_typable_or_faulty (op : Operator) {r : Tree} (hr : Typable s r) :
    Typable s (.unary t n op r) ∨ ∃ e, Faulty s (.unary t n op r) e := by
  obtain ⟨τ, hr⟩ := hr
  by_cases hb : op = .bang
  · subst hb
    exact .inl ⟨_, .bang hr⟩
  by_cases hm : op = .minus
  · subst hm
    by_cases hτ : τ = .numeric
    · subst hτ
      exact .inl ⟨_, .minus hr⟩
    · exact .inr ⟨_, .notNegatable hr hτ⟩
  · exact .inr ⟨_, .notUnary hr hb hm⟩

theorem binary_typable_or_faulty (op : Operator) {l r : Tree} (hl : Typable s l)
    (hr : Typable s r) :
    Typable s (.binary t n op l r) ∨ ∃ e, Faulty s (.binary t n op l r) e := by
  obtain ⟨σ, hl⟩ := hl
  obtain ⟨τ, hr⟩ := hr
  by_cases ho : op ∈ Operator.equalities
  · exact .inl ⟨_, .equate hl hr ho⟩
  by_cases hne : σ = τ
  swap
  · exact .inr ⟨_, .mismatch hl hr hne ho⟩
  subst hne
  by_cases hn : σ = .numeric
  · subst hn
    by_cases ha : op ∈ Operator.arithmetic
    · exact .inl ⟨_, .calculate hl hr ha⟩
    by_cases hc : op ∈ Operator.comparisons
    · exact .inl ⟨_, .compareNumbers hl hr hc⟩
    · exact .inr ⟨_, .notForNumbers hl hr ha hc⟩
  by_cases hs : σ = .string
  · subst hs
    by_cases hp : op = .plus
    · subst hp
      exact .inl ⟨_, .join hl hr⟩
    by_cases hc : op ∈ Operator.comparisons
    · exact .inl ⟨_, .compareStrings hl hr hc⟩
    · exact .inr ⟨_, .notForStrings hl hr hp hc⟩
  · exact .inr ⟨_, .notBinary hl hr hn hs ho⟩

theorem function_of_hasType {f : Tree} (h : HasType s f .function) :
    ∃ u m name g, f = .atom u m (.function name) ∧ s.functions.find? name = some g := by
  generalize hτ : DataType.function = τ at h
  cases h with
  | function hf => exact ⟨_, _, _, _, rfl, hf⟩
  | @keyword _ _ _ k =>
      unfold DataType.ofKeyword at hτ
      split_ifs at hτ with hk
      simp [← hτ, DataType.inhabited] at hk
  | call _ _ _ hr => simp [← hτ, DataType.inhabited] at hr
  | _ => cases hτ

theorem types_eq_or_misfit {ps : List Parameter} {types : List DataType}
    (hl : types.length = ps.length) :
    types = ps.map (·.type) ∨ ∃ accepted p rest before τ after, ps = accepted ++ p :: rest ∧
      types = before ++ τ :: after ∧ before = accepted.map (·.type) ∧ p.type ≠ τ := by
  induction ps generalizing types with
  | nil => exact .inl (List.length_eq_zero_iff.mp hl)
  | cons p ps ih =>
      cases types with
      | nil => simp at hl
      | cons τ types =>
          by_cases hτ : p.type = τ
          · subst hτ
            rcases ih (by simpa using hl) with h | ⟨accepted, q, rest, before, τ, after, h⟩
            · exact .inl (by simp [h])
            · obtain ⟨rfl, rfl, rfl, hne⟩ := h
              exact .inr ⟨p :: accepted, q, rest, _, τ, after, rfl, rfl, rfl, hne⟩
          · exact .inr ⟨[], p, ps, [], τ, types, rfl, rfl, rfl, hτ⟩

theorem exists_typed_around {xs : List Tree} {front back : List DataType} {σ : DataType}
    (h : List.Forall₂ (HasType s) xs (front ++ σ :: back)) :
    ∃ before x after, xs = before ++ x :: after ∧ List.Forall₂ (HasType s) before front ∧
      HasType s x σ ∧ List.Forall₂ (HasType s) after back := by
  induction front generalizing xs with
  | nil =>
      cases h with
      | cons hx ha => exact ⟨[], _, _, rfl, .nil, hx, ha⟩
  | cons τ front ih =>
      cases h with
      | cons ht h =>
          obtain ⟨before, x, after, rfl, hb, hx, ha⟩ := ih h
          exact ⟨_ :: before, x, after, rfl, .cons ht hb, hx, ha⟩

theorem call_typable_or_faulty {f : Tree} {xs : List Tree} (hf : Typable s f)
    (hx : ∀ x ∈ xs, Typable s x) :
    Typable s (.call t n f xs) ∨ ∃ e, Faulty s (.call t n f xs) e := by
  obtain ⟨τ, hf⟩ := hf
  obtain ⟨types, hx⟩ := exists_types hx
  by_cases hτ : τ = .function
  swap
  · exact .inr ⟨_, .notAFunction hf hτ hx⟩
  subst hτ
  obtain ⟨u, m, name, g, rfl, hg⟩ := function_of_hasType hf
  have accepted (ha : g.Accepts types) :
      Typable s (.call t n (.atom u m (.function name)) xs) ∨
        ∃ e, Faulty s (.call t n (.atom u m (.function name)) xs) e := by
    by_cases hr : g.returnType ∈ DataType.inhabited
    · exact .inl ⟨_, .call hg hx ha hr⟩
    · exact .inr ⟨_, .unsupportedResult hg hx ha hr⟩
  cases hv : g.variadic with
  | true => exact accepted (.inl hv)
  | false =>
      by_cases hl : xs.length = g.parameters.length
      swap
      · exact .inr ⟨_, .argumentCount hg hx hv hl⟩
      rcases types_eq_or_misfit (hx.length_eq.symm.trans hl) with ht | h
      · exact accepted (.inr ht)
      · obtain ⟨good, p, rest, before, σ, after, hp, rfl, rfl, hne⟩ := h
        obtain ⟨front, x, back, rfl, hb, hσ, ha⟩ := exists_typed_around hx
        have hfront : front.length = good.length := by simpa using hb.length_eq
        simp only [hp, List.length_append, List.length_cons] at hl
        exact .inr ⟨_, .argumentType hg hv hp hb hσ hne ha (by omega)⟩

end Progress

theorem typable_or_blames_append {xs ys : List Tree}
    (hx : (∀ w ∈ xs, Typable s w) ∨ ∃ e, Blames s xs e)
    (hy : (∀ w ∈ xs, Typable s w) → (∀ w ∈ ys, Typable s w) ∨ ∃ e, Blames s ys e) :
    (∀ w ∈ xs ++ ys, Typable s w) ∨ ∃ e, Blames s (xs ++ ys) e := by
  rcases hx with hall | ⟨e, h⟩
  · rcases hy hall with hall' | ⟨e, h⟩
    · exact .inl fun w hw => (List.mem_append.mp hw).elim (hall w) (hall' w)
    · exact .inr ⟨e, blames_append.mpr (.inr ⟨hall, h⟩)⟩
  · exact .inr ⟨e, blames_append.mpr (.inl h)⟩

theorem typable_or_blames_singleton {t : Tree} (h : Typable s t ∨ ∃ e, Faulty s t e) :
    (∀ w ∈ [t], Typable s w) ∨ ∃ e, Blames s [t] e := by
  rcases h with h | ⟨e, h⟩
  · exact .inl (by simpa using h)
  · exact .inr ⟨e, .here h⟩

mutual

theorem typable_or_blames :
    ∀ t : Tree, (∀ w ∈ t.postorder, Typable s w) ∨ ∃ e, Blames s t.postorder e
  | .atom _ _ a => typable_or_blames_singleton (atom_typable_or_faulty a)
  | .unary _ _ op r =>
      typable_or_blames_append (typable_or_blames r) fun hr =>
        typable_or_blames_singleton (unary_typable_or_faulty op (hr r r.mem_postorder))
  | .binary _ _ op l r =>
      typable_or_blames_append (typable_or_blames l) fun hl =>
        typable_or_blames_append (typable_or_blames r) fun hr =>
          typable_or_blames_singleton
            (binary_typable_or_faulty op (hl l l.mem_postorder) (hr r r.mem_postorder))
  | .call _ _ f xs =>
      typable_or_blames_append (typable_or_blames f) fun hf =>
        typable_or_blames_append (all_typable_or_blames xs) fun hx =>
          typable_or_blames_singleton (call_typable_or_faulty (hf f f.mem_postorder)
            fun x hxs => hx x (Tree.subset_listPostorder xs hxs))

theorem all_typable_or_blames :
    ∀ ts : List Tree,
      (∀ w ∈ Tree.listPostorder ts, Typable s w) ∨ ∃ e, Blames s (Tree.listPostorder ts) e
  | [] => .inl (List.forall_mem_nil _)
  | t :: ts => typable_or_blames_append (typable_or_blames t) fun _ => all_typable_or_blames ts

end

theorem infer_ok_iff {t : Tree} {τ : DataType} :
    (∃ v, s.infer t = .ok v ∧ v.type = τ) ↔ HasType s t τ := by
  constructor
  · rintro ⟨v, hv, rfl⟩
    rcases typable_or_blames (s := s) t with hall | ⟨e, he⟩
    · obtain ⟨σ, ht⟩ := hall t t.mem_postorder
      obtain ⟨w, hw, rfl, -⟩ := infer_of_hasType t ht
      obtain rfl : v = w := by simpa using hv.symm.trans hw
      exact ht
    · simp [infer_of_blames t he] at hv
  · intro h
    obtain ⟨v, hv, ht, -⟩ := infer_of_hasType t h
    exact ⟨v, hv, ht⟩

theorem infer_error_iff {t : Tree} {e : TypeFault} :
    s.infer t = .error e ↔ Blames s t.postorder e := by
  constructor
  · intro h
    rcases typable_or_blames (s := s) t with hall | ⟨d, hd⟩
    · obtain ⟨σ, ht⟩ := hall t t.mem_postorder
      obtain ⟨v, hv, -⟩ := infer_of_hasType t ht
      simp [h] at hv
    · obtain rfl : e = d := by simpa using h.symm.trans (infer_of_blames t hd)
      exact hd
  · exact infer_of_blames t

theorem value_decides_hasType (s : Scope) (t : Tree) (h : t.height ≤ s.maxDepth) :
    ∃ result, Infer.value s t 0 = Infer.settle result 0 ∧
      (∀ τ, (∃ v, result = .ok v ∧ v.type = τ) ↔ HasType s t τ) ∧
      (∀ e, result = .error e ↔ Blames s t.postorder e) ∧
      ((validate s t).valid = true ↔ HasType s t .numeric) := by
  have hv : Infer.value s t 0 = Infer.settle (s.infer t) 0 :=
    Infer.value_eq_infer s t 0 (by omega)
  refine ⟨s.infer t, hv, fun τ => infer_ok_iff, fun e => infer_error_iff, ?_⟩
  rw [← infer_ok_iff]
  cases hi : s.infer t with
  | error e => simp [validate, Validator.validate, hv, hi, Infer.settle, Validation.of]
  | ok v =>
      by_cases hτ : v.type = .numeric <;>
        simp [validate, Validator.validate, hv, hi, Infer.settle, Validation.of,
          Validator.requireNumeric, hτ]

def callAndOne : Tree :=
  .binary ⟨.plus, ['+'], 6, false⟩ 0 .plus
    (.call ⟨.openParen, ['('], 2, false⟩ 0 (.atom ⟨.ident, ['f'], 1, false⟩ 0 (.function ['f']))
      [.atom ⟨.ident, ['x'], 3, false⟩ 0 (.identifier ['x'])])
    (.atom ⟨.numeric, ['1'], 8, false⟩ 0 (.number (some .one)))

def lengthScope : Scope where
  keywords := [{ name := ['x'], type := .string }]
  functions := [(['f'], { name := ['f'], returnType := .numeric
                          parameters := [{ index := 0, type := .string, name := ['s'] }] })]

theorem hasType_callAndOne :
    callAndOne.height ≤ lengthScope.maxDepth ∧ HasType lengthScope callAndOne .numeric := by
  have hh : callAndOne.height ≤ lengthScope.maxDepth := by decide
  obtain ⟨-, -, -, -, hvalid⟩ := value_decides_hasType lengthScope callAndOne hh
  exact ⟨hh, hvalid.mp (by decide +kernel)⟩

end RuleLang
