import RuleLang.Proofs.Parsing.Sizes
import RuleLang.Proofs.Typing.Decision
import RuleLang.Report

namespace RuleLang

def TypeFault.IsDepth (e : TypeFault) : Prop :=
  ∃ limit offset, e = .tooDeep limit offset

namespace Infer

variable {α β : Type} {depth limit : Nat} {offset : Int} {fails fails' : Prop}

def Ends (x : Infer α) (depth : Nat) (fails : Prop) : Prop :=
  ∃ r : Except TypeFault α, x depth = settle r depth ∧ (fails → ∃ e, r = .error e)

namespace Ends

theorem mono {x : Infer α} (h : Ends x depth fails) (hf : fails' → fails) :
    Ends x depth fails' := by
  obtain ⟨r, hx, hr⟩ := h
  exact ⟨r, hx, hr ∘ hf⟩

theorem of_settle (r : Except TypeFault α) : Ends (settle r) depth False :=
  ⟨r, rfl, False.elim⟩

theorem bind {x : Infer α} {f : α → Infer β} (h : Ends x depth fails)
    (hf : ∀ a, Ends (f a) depth fails') : Ends (x >>= f) depth (fails ∨ fails') := by
  obtain ⟨r, hx, hr⟩ := h
  choose g hg hgr using hf
  refine ⟨r >>= g, bind_settle hx hg, ?_⟩
  cases r with
  | error e => exact fun _ => ⟨e, rfl⟩
  | ok a =>
      rintro (h | h)
      · exact absurd (hr h) (by simp)
      · exact hgr a h

theorem nested {step : Infer α} (h : depth + 1 ≤ limit → Ends step (depth + 1) fails) :
    Ends (nested limit offset step) depth (limit < depth + 1 ∨ fails) := by
  by_cases hd : depth + 1 ≤ limit
  · obtain ⟨r, hx, hr⟩ := h hd
    exact ⟨r, nested_settle hd hx, fun hf => hr (hf.resolve_left (by omega))⟩
  · refine ⟨.error (.tooDeep limit offset), ?_, fun _ => ⟨_, rfl⟩⟩
    rw [Infer.nested, if_pos (by omega)]
    rfl

end Ends

variable (s : Scope)

mutual

theorem value_ends :
    ∀ (t : Tree) (depth : Nat), Ends (value s t) depth (s.maxDepth < depth + t.height)
  | .atom t n a, depth => by
      rw [value]
      exact (Ends.nested fun _ => .of_settle _).mono .inl
  | .unary t n op r, depth => by
      rw [value]
      refine (Ends.nested fun _ =>
        (value_ends r (depth + 1)).bind fun _ => .of_settle _).mono fun h => ?_
      simp only [Tree.height] at h
      omega
  | .binary t n op l r, depth => by
      rw [value]
      refine (Ends.nested fun _ => (value_ends l (depth + 1)).bind fun _ =>
        (value_ends r (depth + 1)).bind fun _ => .of_settle _).mono fun h => ?_
      simp only [Tree.height] at h
      omega
  | .call t n f xs, depth => by
      rw [value]
      refine (Ends.nested fun hd => (value_ends f (depth + 1)).bind fun _ =>
        (values_ends xs (depth + 1) hd).bind fun _ => .of_settle _).mono fun h => ?_
      simp only [Tree.height] at h
      omega

theorem values_ends :
    ∀ (ts : List Tree) (depth : Nat), depth ≤ s.maxDepth →
      Ends (values s ts) depth (s.maxDepth < depth + Tree.greatestHeight ts)
  | [], depth, hd => by
      -- Nothing is looked at, so the depth itself has to be within the limit.
      rw [values]
      refine (Ends.of_settle (.ok [])).mono fun h => ?_
      simp only [Tree.greatestHeight] at h
      omega
  | t :: ts, depth, hd => by
      rw [values]
      refine ((value_ends t depth).bind fun _ =>
        (values_ends ts depth hd).bind fun _ => .of_settle (.ok _)).mono fun h => ?_
      simp only [Tree.greatestHeight] at h
      omega

end

end Infer

theorem Faulty.not_isDepth {s : Scope} {t : Tree} {e : TypeFault} (h : Faulty s t e) :
    ¬ e.IsDepth := by
  rintro ⟨limit, offset, rfl⟩
  cases h

theorem Blames.not_isDepth {s : Scope} {ts : List Tree} {e : TypeFault} (h : Blames s ts e) :
    ¬ e.IsDepth := by
  induction h with
  | here hu => exact hu.not_isDepth
  | later _ _ ih => exact ih

namespace Scope

theorem atom_withLimit (s : Scope) (limit : Nat) (offset : Int) (a : Atom) :
    { s with maxDepth := limit }.atom offset a = s.atom offset a := by
  cases a <;> rfl

mutual

theorem infer_withLimit (s : Scope) (limit : Nat) :
    ∀ t : Tree, { s with maxDepth := limit }.infer t = s.infer t
  | .atom t n a => by rw [infer, infer, atom_withLimit]
  | .unary t n op r => by rw [infer, infer, infer_withLimit s limit r]
  | .binary t n op l r => by
      rw [infer, infer, infer_withLimit s limit l, infer_withLimit s limit r]
  | .call t n f xs => by
      rw [infer, infer, infer_withLimit s limit f, inferAll_withLimit s limit xs]

theorem inferAll_withLimit (s : Scope) (limit : Nat) :
    ∀ ts : List Tree, { s with maxDepth := limit }.inferAll ts = s.inferAll ts
  | [] => rfl
  | t :: ts => by
      rw [inferAll, inferAll, infer_withLimit s limit t, inferAll_withLimit s limit ts]

end

end Scope

namespace TypeFault

theorem message_tooDeep (limit : Nat) (offset : Int) :
    (tooDeep limit offset).diagnostic.message =
      "Maximum nesting depth exceeded" ++ (" (" ++ (toString limit ++ (")" ++
        (", please check position(" ++ (toString offset ++ ")"))))) := by
  simp only [← String.append_assoc]
  rfl

def opensOtherwise (m : String) : Bool :=
  m.toList.head?.any (· ≠ 'M')

theorem opensOtherwise_append {a b : String} (h : opensOtherwise a = true) :
    opensOtherwise (a ++ b) = true := by
  unfold opensOtherwise at h ⊢
  rw [String.toList_append]
  cases ha : a.toList <;> simp_all

theorem opensOtherwise_checkPosition {what : String} {offset : Int}
    (h : opensOtherwise what = true) :
    opensOtherwise (Diagnostic.checkPosition what offset).message = true :=
  opensOtherwise_append (opensOtherwise_append (opensOtherwise_append h))

theorem opensOtherwise_toString (n : Nat) : opensOtherwise (toString n) = true := by
  have hdigits : (toString n).toList = Nat.toDigits 10 n := Nat.toList_repr
  unfold opensOtherwise
  rw [hdigits]
  cases hd : Nat.toDigits 10 n with
  | nil => exact absurd hd Nat.toDigits_ne_nil
  | cons c cs =>
      have hc : c.isDigit = true :=
        Nat.isDigit_of_mem_toDigits (by decide) (by decide) (hd ▸ List.mem_cons_self)
      have hne : c ≠ 'M' := by
        rintro rfl
        exact absurd hc (by decide)
      simpa using hne

theorem opensOtherwise_name (t : DataType) : opensOtherwise t.name = true := by
  cases t <;> decide

theorem opensOtherwise_message {e : TypeFault} (h : ¬ e.IsDepth) :
    opensOtherwise e.diagnostic.message = true := by
  cases e with
  | unknownName | unknownFunction | unsupportedResult | notBinary | mismatch =>
      exact opensOtherwise_checkPosition (opensOtherwise_append (by decide))
  | notUnary =>
      exact opensOtherwise_checkPosition
        (opensOtherwise_append (opensOtherwise_append (by decide)))
  | notNegatable | notAFunction => exact opensOtherwise_append (by decide)
  | notNumeric => decide
  | argumentCount needed =>
      exact opensOtherwise_checkPosition (opensOtherwise_append
        (opensOtherwise_append (opensOtherwise_append (opensOtherwise_toString needed))))
  | argumentType needed =>
      exact opensOtherwise_checkPosition (opensOtherwise_append
        (opensOtherwise_append (opensOtherwise_append (opensOtherwise_name needed))))
  | tooDeep limit offset => exact absurd ⟨limit, offset, rfl⟩ h

theorem prefix_message_iff (e : TypeFault) :
    "Maximum nesting depth exceeded".toList <+: e.diagnostic.message.toList ↔ e.IsDepth := by
  constructor
  · rintro ⟨rest, hm⟩
    by_contra h
    have ho := opensOtherwise_message h
    rw [opensOtherwise, ← hm] at ho
    simp at ho
  · rintro ⟨limit, offset, rfl⟩
    rw [message_tooDeep, String.toList_append]
    exact List.prefix_append ..

end TypeFault

variable {s : Scope} {t : Tree}

theorem infer_not_isDepth {e : TypeFault} (h : s.infer t = .error e) : ¬ e.IsDepth :=
  (infer_error_iff.mp h).not_isDepth

theorem validate_of_value {r : Except TypeFault Value}
    (h : Infer.value s t 0 = Infer.settle r 0) :
    validate s t = .of (r >>= Validator.requireNumeric) := by
  cases r <;> simp only [validate, Validator.validate, h, Infer.settle] <;> rfl

theorem validate_not_isDepth (h : t.height ≤ s.maxDepth) :
    ∀ e ∈ (validate s t).error, ¬ e.IsDepth := by
  rw [validate_of_value (Infer.value_eq_infer s t 0 (by omega))]
  cases hi : s.infer t with
  | error e =>
      rintro _ ⟨⟩
      exact infer_not_isDepth hi
  | ok v =>
      change ∀ e ∈ (Validation.of (Validator.requireNumeric v)).error, _
      unfold Validator.requireNumeric
      split
      · rintro _ ⟨⟩
      · rintro _ ⟨⟩ ⟨_, _, ⟨⟩⟩

theorem exists_fault_of_check {l : LexOptions} {p : ParseOptions} {source : Text} {e : StageError}
    (h : (check l p s source).error = some e) (hs : e.stage = .validation) :
    ∃ t fault, (parseTokens p (lex l source).tokens).tree = some t ∧
      (validate s t).error = some fault ∧ e = fault.staged := by
  unfold check at h
  dsimp only at h
  split at h
  · cases h
    cases hs
  · cases h
    cases hs
  · cases h
  · rename_i t _ _ ht
    obtain ⟨fault, hf, rfl⟩ := Option.map_eq_some_iff.mp h
    exact ⟨t, fault, ht, hf, rfl⟩

theorem value_limit (s : Scope) (t : Tree) :
    (t.height ≤ s.maxDepth → Infer.value s t 0 = Infer.settle (s.infer t) 0 ∧
      (∀ limit, t.height ≤ limit →
        Infer.value { s with maxDepth := limit } t 0 = Infer.value s t 0) ∧
      ∀ limit offset depth, Infer.value s t 0 ≠ .error (.tooDeep limit offset) depth) ∧
    (s.maxDepth < t.height →
      ∃ e, Infer.value s t 0 = .error e 0 ∧ validate s t = ⟨false, some e⟩) ∧
    ∀ (l : LexOptions) (p : ParseOptions) (source : Text), p.maxDepth ≤ s.maxDepth →
      ∀ e, (check l p s source).error = some e → e.stage = .validation →
        ¬ "Maximum nesting depth exceeded".toList <+: e.diagnostic.message.toList := by
  refine ⟨fun h => ?_, fun h => ?_, fun l p source hp e he hs hm => ?_⟩
  · have hv : Infer.value s t 0 = Infer.settle (s.infer t) 0 :=
      Infer.value_eq_infer s t 0 (by omega)
    refine ⟨hv, fun limit hl => ?_, fun limit offset depth => ?_⟩
    · rw [hv, Infer.value_eq_infer _ t 0 ((Nat.zero_add _).trans_le hl), Scope.infer_withLimit]
    · rw [hv]
      cases hi : s.infer t with
      | ok v => simp [Infer.settle]
      | error e =>
          rintro ⟨⟩
          exact infer_not_isDepth hi ⟨limit, offset, rfl⟩
  · obtain ⟨r, hv, hr⟩ := Infer.value_ends s t 0
    obtain ⟨e, rfl⟩ := hr (by omega)
    exact ⟨e, hv, validate_of_value hv⟩
  · obtain ⟨u, fault, hu, hf, rfl⟩ := exists_fault_of_check he hs
    have hh := height_parseTokens_le hu
    exact validate_not_isDepth (hh.trans hp) fault hf (fault.prefix_message_iff.mp hm)

theorem limit_callAndOne :
    Infer.value { lengthScope with maxDepth := 3 } callAndOne 0 =
        Infer.value lengthScope callAndOne 0 ∧
      (∃ e, validate { lengthScope with maxDepth := 2 } callAndOne = ⟨false, some e⟩) ∧
      (check {} {} lengthScope ['y']).error = some (TypeFault.unknownName ['y'] 1).staged ∧
      ¬ "Maximum nesting depth exceeded".toList <+:
        (TypeFault.unknownName ['y'] 1).diagnostic.message.toList := by
  obtain ⟨hwithin, -, hcheck⟩ := value_limit lengthScope callAndOne
  obtain ⟨-, habove, -⟩ := value_limit { lengthScope with maxDepth := 2 } callAndOne
  obtain ⟨-, hsame, -⟩ := hwithin (by decide)
  obtain ⟨e, -, he⟩ := habove (by decide)
  have hy : (check {} {} lengthScope ['y']).error =
      some (TypeFault.unknownName ['y'] 1).staged := by decide +kernel
  exact ⟨hsame 3 (by decide), ⟨e, he⟩, hy, hcheck {} {} ['y'] (by decide) _ hy rfl⟩

namespace Validator

def validateAll (v : Validator) : List Tree → List (Except TypeFault Value) × Validator
  | [] => ([], v)
  | t :: ts =>
      let (result, next) := v.validate t
      let (results, last) := next.validateAll ts
      (result :: results, last)

theorem validate_keeps (v : Validator) (t : Tree) : (v.validate t).2 = v := by
  obtain ⟨r, hr, -⟩ := Infer.value_ends v.scope t v.depth
  cases r with
  | ok value => simp only [validate, hr, Infer.settle]
  | error e => simp only [validate, hr, Infer.settle]

theorem validateAll_eq_map (v : Validator) (ts : List Tree) :
    v.validateAll ts = (ts.map fun t => (v.validate t).1, v) := by
  induction ts with
  | nil => rfl
  | cons t ts ih =>
      have hnext : (v.validate t).2 = v := v.validate_keeps t
      simp only [validateAll, hnext, ih, List.map_cons]

end Validator

theorem validator_reusable (s : Scope) :
    (∀ t depth, ∃ r, Infer.value s t depth = Infer.settle r depth) ∧
    (∀ t depth, (Validator.validate ⟨s, depth⟩ t).2 = ⟨s, depth⟩) ∧
    ∀ ts, Validator.validateAll { scope := s } ts =
        (ts.map fun t => (Validator.validate { scope := s } t).1, { scope := s }) ∧
      (Validator.validateAll { scope := s } ts).1.map Validation.of = ts.map (validate s) := by
  refine ⟨?_, ?_, ?_⟩
  · intro t depth
    obtain ⟨r, hr, -⟩ := Infer.value_ends s t depth
    exact ⟨r, hr⟩
  · intro t depth
    exact Validator.validate_keeps ⟨s, depth⟩ t
  · intro ts
    have hall := Validator.validateAll_eq_map { scope := s } ts
    refine ⟨hall, ?_⟩
    rw [hall, List.map_map]
    rfl

end RuleLang
