import RuleLang.Proofs.Parsing.Acceptance
import RuleLang.Tree.Basic

namespace RuleLang

namespace Token

def forget (t : Token) : Token :=
  { t with offset := 0 }

variable {t u : Token}

theorem forget_eq_iff : t.forget = u.forget ↔ t.shape = u.shape := by
  cases t
  cases u
  simp [forget, shape]

theorem kind_of_shape (h : t.shape = u.shape) : t.kind = u.kind :=
  congrArg Prod.fst h

theorem literal_of_shape (h : t.shape = u.shape) : t.literal = u.literal :=
  congrArg (fun s => s.2.1) h

theorem delimited_of_shape (h : t.shape = u.shape) : t.delimited = u.delimited :=
  congrArg (fun s => s.2.2) h

end Token

namespace Tree

mutual

def forget : Tree → Tree
  | .atom t n a => .atom t.forget n a
  | .unary t n op r => .unary t.forget n op r.forget
  | .binary t n op l r => .binary t.forget n op l.forget r.forget
  | .call t n f xs => .call t.forget n f.forget (listForget xs)

def listForget : List Tree → List Tree
  | [] => []
  | t :: ts => t.forget :: listForget ts

end

@[simp]
theorem brackets_forget (t : Tree) : t.forget.brackets = t.brackets := by
  cases t <;> rfl

@[simp]
theorem forget_withBrackets (n : Nat) (t : Tree) :
    (t.withBrackets n).forget = t.forget.withBrackets n := by
  cases t <;> rfl

@[simp]
theorem exposed?_forget (t : Tree) : t.forget.exposed? = t.exposed? := by
  rcases t with ⟨t, _ | n, a⟩ | ⟨t, _ | n, op, r⟩ | ⟨t, _ | n, op, l, r⟩ | ⟨t, _ | n, f, xs⟩ <;> rfl

mutual

theorem ranked_forget : ∀ t : Tree, t.forget.Ranked ↔ t.Ranked
  | .atom .. => Iff.rfl
  | .unary _ _ _ r => by simp [forget, Ranked, ranked_forget r]
  | .binary _ _ _ l r => by simp [forget, Ranked, ranked_forget l, ranked_forget r]
  | .call _ _ _ xs => listRanked_forget xs

theorem listRanked_forget : ∀ ts : List Tree, ListRanked (listForget ts) ↔ ListRanked ts
  | [] => Iff.rfl
  | t :: ts => and_congr (ranked_forget t) (listRanked_forget ts)

end

mutual

theorem size_forget : ∀ t : Tree, t.forget.height = t.height ∧ t.forget.nesting = t.nesting
  | .atom .. => ⟨rfl, rfl⟩
  | .unary _ _ _ r => by simp [forget, height, nesting, size_forget r]
  | .binary _ _ _ l r => by simp [forget, height, nesting, size_forget l, size_forget r]
  | .call _ _ f xs => by simp [forget, height, nesting, size_forget f, listSize_forget xs]

theorem listSize_forget : ∀ ts : List Tree, greatestHeight (listForget ts) = greatestHeight ts ∧
    greatestNesting (listForget ts) = greatestNesting ts
  | [] => ⟨rfl, rfl⟩
  | t :: ts => by
      simp [listForget, greatestHeight, greatestNesting, size_forget t, listSize_forget ts]

end

mutual

theorem spelling_forget : ∀ t : Tree, t.forget.spelling = t.spelling
  | .atom t _ a => by cases a <;> rfl
  | .unary _ _ _ r => by simp [forget, spelling, spelling_forget r]
  | .binary _ _ _ l r => by simp [forget, spelling, spelling_forget l, spelling_forget r]
  | .call _ _ f xs => by simp [forget, spelling, spelling_forget f, (listSpelling_forget xs).1]

theorem listSpelling_forget : ∀ ts : List Tree, listSpelling (listForget ts) = listSpelling ts ∧
    tailSpelling (listForget ts) = tailSpelling ts
  | [] => ⟨rfl, rfl⟩
  | t :: ts => by
      simp [listForget, listSpelling, tailSpelling, spelling_forget t, listSpelling_forget ts]

end

end Tree

variable {p : ParseOptions} {ts us : List Token} {t u : Tree}

theorem Leaf.of_shape {v w : Token} {a : Atom} (h : Leaf p v a) (hs : w.shape = v.shape) :
    Leaf p w a := by
  have hk := Token.kind_of_shape hs
  have hl := Token.literal_of_shape hs
  have hd := Token.delimited_of_shape hs
  cases h with
  | identifier h => exact hl ▸ .identifier (hk.trans h)
  | string h => exact hl ▸ .string (hk.trans h)
  | trueWord h => exact .trueWord (hk.trans h)
  | falseWord h => exact .falseWord (hk.trans h)
  | delimited h hv => exact .delimited (hk.trans h) (by rwa [hl, hd])
  | number h hv hn => exact .number (hk.trans h) (by rwa [hl, hd]) (by rwa [hl])

mutual

theorem Spells.exists_of_shapes {ts us : List Token} {t : Tree} :
    Spells p ts t → us.map Token.shape = ts.map Token.shape →
      ∃ u, Spells p us u ∧ u.forget = t.forget
  | .leaf h, hs => by
      obtain ⟨v, rfl, hv⟩ := List.map_eq_singleton_iff.mp hs
      exact ⟨_, .leaf (h.of_shape hv), by simp [Tree.forget, Token.forget_eq_iff.mpr hv]⟩
  | .group ho hc h, hs => by
      obtain ⟨v, vs, rfl, hv, hs⟩ := List.map_eq_cons_iff.mp hs
      rw [List.map_append] at hs
      obtain ⟨ws, zs, rfl, hw, hz⟩ := List.map_eq_append_iff.mp hs
      obtain ⟨z, rfl, hzc⟩ := List.map_eq_singleton_iff.mp hz
      obtain ⟨u, hu, hf⟩ := h.exists_of_shapes hw
      have hb := congrArg Tree.brackets hf
      rw [Tree.brackets_forget, Tree.brackets_forget] at hb
      refine ⟨_, .group ((Token.kind_of_shape hv).trans ho) ((Token.kind_of_shape hzc).trans hc) hu,
        ?_⟩
      rw [Tree.forget_withBrackets, Tree.forget_withBrackets, hf, hb]
  | .unary ho hk h, hs => by
      obtain ⟨v, vs, rfl, hv, hs⟩ := List.map_eq_cons_iff.mp hs
      obtain ⟨u, hu, hf⟩ := h.exists_of_shapes hs
      refine ⟨_, .unary ho ((Token.kind_of_shape hv).trans hk) hu, ?_⟩
      simp [Tree.forget, Token.forget_eq_iff.mpr hv, hf]
  | .binary ho hk hl hr, hs => by
      rw [List.map_append] at hs
      obtain ⟨ws, zs, rfl, hw, hz⟩ := List.map_eq_append_iff.mp hs
      obtain ⟨v, vs, rfl, hv, hz⟩ := List.map_eq_cons_iff.mp hz
      obtain ⟨l, hl, hfl⟩ := hl.exists_of_shapes hw
      obtain ⟨r, hr, hfr⟩ := hr.exists_of_shapes hz
      refine ⟨_, .binary ho ((Token.kind_of_shape hv).trans hk) hl hr, ?_⟩
      simp [Tree.forget, Token.forget_eq_iff.mpr hv, hfl, hfr]
  | .call hf ho hc h, hs => by
      obtain ⟨f, fs, rfl, hvf, hs⟩ := List.map_eq_cons_iff.mp hs
      obtain ⟨v, vs, rfl, hv, hs⟩ := List.map_eq_cons_iff.mp hs
      rw [List.map_append] at hs
      obtain ⟨ws, zs, rfl, hw, hz⟩ := List.map_eq_append_iff.mp hs
      obtain ⟨z, rfl, hzc⟩ := List.map_eq_singleton_iff.mp hz
      obtain ⟨ys, hy, hfy⟩ := h.exists_of_shapes hw
      refine ⟨_, .call ((Token.kind_of_shape hvf).symm ▸ hf) ((Token.kind_of_shape hv).trans ho)
        ((Token.kind_of_shape hzc).trans hc) hy, ?_⟩
      simp [Tree.forget, Token.forget_eq_iff.mpr hv, Token.forget_eq_iff.mpr hvf, hfy,
        Token.literal_of_shape hvf]

theorem SpellsAll.exists_of_shapes {ts us : List Token} {xs : List Tree} :
    SpellsAll p ts xs → us.map Token.shape = ts.map Token.shape →
      ∃ ys, SpellsAll p us ys ∧ Tree.listForget ys = Tree.listForget xs
  | .none, hs => by
      obtain rfl := List.map_eq_nil_iff.mp hs
      exact ⟨[], .none, rfl⟩
  | .one h, hs => by
      obtain ⟨u, hu, hf⟩ := h.exists_of_shapes hs
      exact ⟨[u], .one hu, by simp [Tree.listForget, hf]⟩
  | .more h hc hs', hs => by
      rw [List.map_append] at hs
      obtain ⟨ws, zs, rfl, hw, hz⟩ := List.map_eq_append_iff.mp hs
      obtain ⟨v, vs, rfl, hv, hz⟩ := List.map_eq_cons_iff.mp hz
      obtain ⟨u, hu, hf⟩ := h.exists_of_shapes hw
      obtain ⟨ys, hy, hfy⟩ := hs'.exists_of_shapes hz
      cases ys with
      | nil => simp [Tree.listForget] at hfy
      | cons y ys =>
          refine ⟨u :: y :: ys, .more hu ((Token.kind_of_shape hv).trans hc) hy, ?_⟩
          rw [Tree.listForget, hf, hfy]
          rfl

end

theorem Token.map_shape_body (ts : List Token) :
    (Token.body ts).map Token.shape =
      (ts.map Token.shape).takeWhile fun s => s.1 ≠ .finish := by
  rw [List.takeWhile_map]
  rfl

theorem Token.body_of_shapes (h : us.map Token.shape = ts.map Token.shape) :
    (Token.body us).map Token.shape = (Token.body ts).map Token.shape := by
  rw [Token.map_shape_body, Token.map_shape_body, h]

theorem Token.isChain_of_shapes {R : Kind → Kind → Prop}
    (ha : ts.IsChain fun t u => R t.kind u.kind)
    (h : us.map Token.shape = ts.map Token.shape) : us.IsChain fun t u => R t.kind u.kind := by
  have hs (vs : List Token) : (vs.map Token.shape).IsChain (fun a b => R a.1 b.1) ↔
      vs.IsChain fun t u => R t.kind u.kind :=
    List.isChain_map Token.shape
  rw [← hs, h, hs]
  exact ha

theorem Token.Uncurried.of_shapes (hu : Token.Uncurried ts)
    (h : us.map Token.shape = ts.map Token.shape) : Token.Uncurried us :=
  Token.isChain_of_shapes (R := fun k l => ¬ (k = .closeParen ∧ l = .openParen)) hu h

theorem Token.Adjacent.of_shapes (ha : Token.Adjacent ts)
    (h : us.map Token.shape = ts.map Token.shape) : Token.Adjacent us :=
  Token.isChain_of_shapes (R := fun k l => k.mayPrecede l = true) ha h

theorem Grammatical.exists_of_shapes (hg : Grammatical p ts t)
    (h : us.map Token.shape = ts.map Token.shape) :
    ∃ u, Grammatical p us u ∧ u.forget = t.forget := by
  have hb := Token.body_of_shapes h
  obtain ⟨u, hu, hf⟩ := hg.spells.exists_of_shapes hb
  have hr : u.Ranked := by
    rw [← Tree.ranked_forget, hf, Tree.ranked_forget]
    exact hg.ranked
  exact ⟨u, ⟨hu, hr, hg.adjacent.of_shapes (by simp [hb])⟩, hf⟩

end RuleLang
