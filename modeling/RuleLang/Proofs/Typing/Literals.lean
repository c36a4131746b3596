import RuleLang.Proofs.Typing.Decision

namespace RuleLang

inductive Atom.Resembles : Atom → Atom → Prop
  | number (v w : Option Binary64) : Resembles (.number v) (.number w)
  | string (v w : Text) : Resembles (.string v) (.string w)
  | boolean (v w : Bool) : Resembles (.boolean v) (.boolean w)
  | identifier (name : Text) : Resembles (.identifier name) (.identifier name)
  | function (name : Text) : Resembles (.function name) (.function name)

/-- The same nodes at the same places, but for what the literals say. Tokens count by their place
alone, as a literal that says something else is also spelled in another way. -/
inductive Tree.Resembles : Tree → Tree → Prop
  | atom {t u : Token} {n m : Nat} {a b : Atom} (ho : t.offset = u.offset) (ha : a.Resembles b) :
      Resembles (.atom t n a) (.atom u m b)
  | unary {t u : Token} {n m : Nat} {op : Operator} {r r' : Tree} (ho : t.offset = u.offset)
      (hr : Resembles r r') : Resembles (.unary t n op r) (.unary u m op r')
  | binary {t u : Token} {n m : Nat} {op : Operator} {l l' r r' : Tree}
      (ho : t.offset = u.offset) (hl : Resembles l l') (hr : Resembles r r') :
      Resembles (.binary t n op l r) (.binary u m op l' r')
  | call {t u : Token} {n m : Nat} {f f' : Tree} {xs ys : List Tree} (ho : t.offset = u.offset)
      (hf : Resembles f f') (hx : List.Forall₂ Resembles xs ys) :
      Resembles (.call t n f xs) (.call u m f' ys)

inductive Content.Resembles : Content → Content → Prop
  | numeric (v w : Binary64) : Resembles (.numeric v) (.numeric w)
  | string (v w : Text) : Resembles (.string v) (.string w)
  | boolean (v w : Bool) : Resembles (.boolean v) (.boolean w)
  | same (c : Content) : Resembles c c

structure Value.Resembles (v w : Value) : Prop where
  content : v.content.Resembles w.content
  offset : v.offset = w.offset

namespace Value

variable {v w l l' r r' : Value} {vs ws : List Value} {op : Operator} {offset : Int}

inductive Matches : Except TypeFault Value → Except TypeFault Value → Prop
  | ok {v w : Value} (h : v.Resembles w) : Matches (.ok v) (.ok w)
  | error (e : TypeFault) : Matches (.error e) (.error e)

theorem Matches.refl (r : Except TypeFault Value) : Matches r r := by
  cases r with
  | ok v => exact .ok ⟨.same _, rfl⟩
  | error e => exact .error e

theorem Resembles.type_eq (h : v.Resembles w) : v.type = w.type := by
  obtain ⟨c, i⟩ := v
  obtain ⟨d, j⟩ := w
  obtain ⟨hc, -⟩ := h
  cases hc <;> rfl

theorem matches_unary (h : r.Resembles r') : Matches (unary op offset r) (unary op offset r') := by
  cases op with
  | bang => exact .ok ⟨.boolean _ _, h.offset⟩
  | _ =>
      simp only [unary, h.type_eq, h.offset]
      exact .refl _

theorem matches_binary (hl : l.Resembles l') (hr : r.Resembles r') :
    Matches (binary op offset l r) (binary op offset l' r') := by
  simp only [binary, hl.type_eq, hl.offset, hr.type_eq]
  exact .refl _

theorem misfit?_resembles (h : List.Forall₂ Resembles vs ws) (parameters : List Parameter) :
    (misfit? parameters vs).map (fun m => (m.1.type, m.2.type, m.2.offset)) =
      (misfit? parameters ws).map fun m => (m.1.type, m.2.type, m.2.offset) := by
  induction h generalizing parameters with
  | nil => rfl
  | @cons v w vs ws hv _ ih =>
      cases parameters with
      | nil => rfl
      | cons p parameters =>
          have hrest := ih parameters
          by_cases hp : p.type = w.type <;>
            simp_all [misfit?, List.zip_cons_cons, hv.type_eq, hv.offset]

theorem matches_call (h : v.Resembles w) (hx : List.Forall₂ Resembles vs ws) :
    Matches (call v vs) (call w ws) := by
  suffices hcall : call v vs = call w ws by
    rw [hcall]
    exact .refl _
  obtain ⟨c, i⟩ := v
  obtain ⟨d, j⟩ := w
  obtain ⟨hc, rfl : i = j⟩ := h
  cases hc with
  | numeric | string | boolean => rfl
  | same c =>
      cases c with
      | function f =>
          have hmisfit := misfit?_resembles hx f.parameters
          simp only [call, hx.length_eq]
          cases hv : misfit? f.parameters vs <;> cases hw : misfit? f.parameters ws <;>
            simp_all
      | _ => rfl

end Value

namespace Infer

variable {α β : Type} {R : α → α → Prop} {S : β → β → Prop}

def Matches (R : α → α → Prop) (x y : Infer α) : Prop :=
  ∀ depth,
    (∃ a b depth', x depth = .ok a depth' ∧ y depth = .ok b depth' ∧ R a b) ∨
      ∃ e depth', x depth = .error e depth' ∧ y depth = .error e depth'

namespace Matches

theorem pure {a b : α} (h : R a b) : Matches R (Pure.pure a) (Pure.pure b) :=
  fun depth => .inl ⟨a, b, depth, rfl, rfl, h⟩

theorem settle {r r' : Except TypeFault Value} (h : Value.Matches r r') :
    Matches Value.Resembles (settle r) (settle r') := by
  intro depth
  cases h with
  | ok h => exact .inl ⟨_, _, depth, rfl, rfl, h⟩
  | error e => exact .inr ⟨e, depth, rfl, rfl⟩

theorem bind {x y : Infer α} {f g : α → Infer β} (h : Matches R x y)
    (hf : ∀ a b, R a b → Matches S (f a) (g b)) : Matches S (x >>= f) (y >>= g) := by
  intro depth
  change (∃ a b depth', EStateM.bind x f depth = _ ∧ EStateM.bind y g depth = _ ∧ _) ∨
    ∃ e depth', EStateM.bind x f depth = _ ∧ EStateM.bind y g depth = _
  unfold EStateM.bind
  obtain ⟨a, b, depth', hx, hy, hab⟩ | ⟨e, depth', hx, hy⟩ := h depth
  · rw [hx, hy]
    exact hf a b hab depth'
  · rw [hx, hy]
    exact .inr ⟨e, depth', rfl, rfl⟩

theorem nested {x y : Infer α} {limit : Nat} {offset : Int} (h : Matches R x y) :
    Matches R (nested limit offset x) (nested limit offset y) := by
  intro depth
  unfold Infer.nested
  split
  · exact .inr ⟨_, depth, rfl, rfl⟩
  · obtain ⟨a, b, depth', hx, hy, hab⟩ | ⟨e, depth', hx, hy⟩ := h (depth + 1)
    · exact .inl ⟨a, b, depth' - 1, by rw [hx], by rw [hy], hab⟩
    · exact .inr ⟨e, depth' - 1, by rw [hx], by rw [hy]⟩

end Matches

end Infer

theorem Scope.matches_atom (s : Scope) (offset : Int) {a b : Atom} (h : a.Resembles b) :
    Value.Matches (s.atom offset a) (s.atom offset b) := by
  cases h with
  | number v w => exact .ok ⟨.numeric _ _, rfl⟩
  | string v w => exact .ok ⟨.string _ _, rfl⟩
  | boolean v w => exact .ok ⟨.boolean _ _, rfl⟩
  | identifier | function => exact .refl _

namespace Infer

variable (s : Scope)

mutual

theorem value_resembles :
    ∀ (t u : Tree), t.Resembles u → Matches Value.Resembles (value s t) (value s u)
  | .atom t n a, _, .atom ho ha => by
      rw [value, value, ho]
      exact .nested (.settle (s.matches_atom _ ha))
  | .unary t n op r, _, .unary ho hr => by
      rw [value, value, ho]
      exact .nested ((value_resembles r _ hr).bind fun _ _ h => .settle (Value.matches_unary h))
  | .binary t n op l r, _, .binary ho hl hr => by
      rw [value, value, ho]
      refine .nested ((value_resembles l _ hl).bind fun _ _ h => ?_)
      exact (value_resembles r _ hr).bind fun _ _ h' => .settle (Value.matches_binary h h')
  | .call t n f xs, _, .call ho hf hx => by
      rw [value, value, ho]
      refine .nested ((value_resembles f _ hf).bind fun _ _ h => ?_)
      exact (values_resemble xs _ hx).bind fun _ _ h' => .settle (Value.matches_call h h')

theorem values_resemble :
    ∀ (ts us : List Tree), List.Forall₂ Tree.Resembles ts us →
      Matches (List.Forall₂ Value.Resembles) (values s ts) (values s us)
  | [], _, .nil => by
      rw [values]
      exact .pure .nil
  | t :: ts, _, .cons ht hts => by
      rw [values, values]
      refine (value_resembles t _ ht).bind fun _ _ h => ?_
      exact (values_resemble ts _ hts).bind fun _ _ h' => .pure (.cons h h')

end

end Infer

variable {s : Scope} {t u : Tree}

theorem Validator.matches_requireNumeric {v w : Value} (h : v.Resembles w) :
    Value.Matches (requireNumeric v) (requireNumeric w) := by
  unfold requireNumeric
  rw [h.type_eq]
  split
  · exact .ok h
  · exact .error _

theorem Validator.validate_resembles (h : t.Resembles u) (v : Validator) :
    Value.Matches (v.validate t).1 (v.validate u).1 ∧ (v.validate t).2 = (v.validate u).2 := by
  unfold validate
  obtain ⟨a, b, depth, ht, hu, hab⟩ | ⟨e, depth, ht, hu⟩ :=
    Infer.value_resembles v.scope t u h v.depth
  · rw [ht, hu]
    exact ⟨matches_requireNumeric hab, rfl⟩
  · rw [ht, hu]
    exact ⟨.error e, rfl⟩

theorem Value.Matches.validation_eq {r r' : Except TypeFault Value} (h : Matches r r') :
    Validation.of r = Validation.of r' := by
  cases h <;> rfl

theorem value_of_resembles (s : Scope) {t u : Tree} (h : t.Resembles u) :
    (∀ depth,
      (∃ v w depth', Infer.value s t depth = .ok v depth' ∧ Infer.value s u depth = .ok w depth' ∧
        v.type = w.type ∧ v.offset = w.offset) ∨
      ∃ e depth', Infer.value s t depth = .error e depth' ∧
        Infer.value s u depth = .error e depth') ∧
    (∀ depth, (Validator.validate ⟨s, depth⟩ t).2 = (Validator.validate ⟨s, depth⟩ u).2 ∧
      Validation.of (Validator.validate ⟨s, depth⟩ t).1 =
        Validation.of (Validator.validate ⟨s, depth⟩ u).1) ∧
    validate s t = validate s u := by
  refine ⟨fun depth => ?_, fun depth => ?_, ?_⟩
  · refine (Infer.value_resembles s t u h depth).imp_left ?_
    rintro ⟨v, w, depth', ht, hu, hvw⟩
    exact ⟨v, w, depth', ht, hu, hvw.type_eq, hvw.offset⟩
  · obtain ⟨hresult, hnext⟩ := Validator.validate_resembles h ⟨s, depth⟩
    exact ⟨hnext, hresult.validation_eq⟩
  · exact (Validator.validate_resembles h ⟨s, 0⟩).1.validation_eq

/-- The tree of `!true = 'ab'`, with other values in the place of those two. -/
def mixedEquation (value : Bool) (text : Text) : Tree :=
  .binary ⟨.assign, ['='], 6, false⟩ 0 .assign
    (.unary ⟨.bang, ['!'], 0, false⟩ 0 .bang
      (.atom ⟨.trueWord, ['t', 'r', 'u', 'e'], 5, false⟩ 0 (.boolean value)))
    (.atom ⟨.string, ['\'', 'a', 'b', '\''], 12, false⟩ 0 (.string text))

theorem value_of_resembles_mixedEquation :
    (mixedEquation true ['a', 'b']).Resembles (mixedEquation false ['c']) ∧
      validate {} (mixedEquation true ['a', 'b']) =
        ⟨false, some (.mismatch .boolean .assign .string 6)⟩ ∧
      validate {} (mixedEquation false ['c']) =
        ⟨false, some (.mismatch .boolean .assign .string 6)⟩ := by
  have hresembles : (mixedEquation true ['a', 'b']).Resembles (mixedEquation false ['c']) :=
    .binary rfl (.unary rfl (.atom rfl (.boolean _ _))) (.atom rfl (.string _ _))
  obtain ⟨-, -, hvalidate⟩ := value_of_resembles {} hresembles
  have hfault : validate {} (mixedEquation true ['a', 'b']) =
      ⟨false, some (.mismatch .boolean .assign .string 6)⟩ := by rfl
  exact ⟨hresembles, hfault, hvalidate ▸ hfault⟩

end RuleLang
