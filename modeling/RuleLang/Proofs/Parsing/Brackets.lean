import RuleLang.Proofs.Lexing.Cover
import RuleLang.Proofs.Parsing.Survival

/-!
The pairs of brackets around a node. The parser remembers one token and a number, and compares the
token of the next expression with it. No token comes twice, and the remembered one is never ahead,
so it is found again only in the expression that was grouped just before.
-/

namespace RuleLang

namespace Cursor

theorem ahead_subset_rest (c : Cursor) : c.ahead ⊆ c.rest :=
  List.subset_cons_self _ _

theorem rest_bump_suffix (c : Cursor) : c.bump.rest <:+ c.rest := by
  by_cases hn : c.ahead = []
  · simp only [bump_of_nil hn, List.suffix_rfl]
  · rw [rest_bump hn]
    exact List.suffix_cons _ _

theorem ahead_subset_of_suffix {c d : Cursor} (h : d.rest <:+ c.rest) : d.ahead ⊆ c.ahead := by
  intro v hv
  rcases List.suffix_cons_iff.mp h with heq | hsuffix
  · exact (List.cons.inj heq).2 ▸ hv
  · exact hsuffix.subset (ahead_subset_rest _ hv)

end Cursor

namespace Parser

def groupCounting (count : Tree → Nat → Parse Nat) (inner : Parse (Tree × Nat)) :
    Parse (Tree × Nat) := do
  checkAdjacent
  refuseEmptyGroup
  bump
  let t ← inner
  let n ← count t.1 t.2
  expect .closeParen
  return (t.1.withBrackets n, t.2 + 1)

def operandCounting (count : Tree → Nat → Parse Nat) (o : ParseOptions)
    (sub : Precedence → Parse (Tree × Nat)) : Parse (Tree × Nat) := do
  if (← current).kind = .openParen then groupCounting count (sub .lowest)
  else
    let t ← operand o fun min => Prod.fst <$> sub min
    return (t, 0)

def chainCounting (o : ParseOptions) (sub : Precedence → Parse (Tree × Nat)) (min : Precedence) :
    Nat → Tree × Nat → Parse (Tree × Nat)
  | 0, left => return left
  | n + 1, left => do
      match ← following min with
      | none => return left
      | some c =>
          bump
          refuseFinish
          let t ← extend (fun min => Prod.fst <$> sub min) left.1 c
          checkHeight o t
          chainCounting o sub min n (t, 0)

def levelCounting (count : Tree → Nat → Parse Nat) (o : ParseOptions)
    (sub : Precedence → Parse (Tree × Nat)) (min : Precedence) : Parse (Tree × Nat) := do
  checkAdjacent
  let first ← operandCounting count o sub
  checkHeight o first.1
  chainCounting o sub min (← remaining) first

def expressionCounting (count : Tree → Nat → Parse Nat) (o : ParseOptions) :
    Nat → Precedence → Parse (Tree × Nat)
  | 0, _ => do
      enter
      tooDeep o
  | room + 1, min => do
      enter
      let t ← levelCounting count o (expressionCounting count o room) min
      leave
      return t

def parseCounting (count : Tree → Nat → Parse Nat) (o : ParseOptions) : Parse (Tree × Nat) := do
  let t ← expressionCounting count o (o.maxDepth - (← get).depth) .lowest
  refuseRest
  return t

/-- The parser remembers the tree that was just made if one of the `k` groups directly around it has
closed, then with as many brackets as the tree has, and otherwise not. -/
structure Exact (p : Parser) (t : Tree) (k : Nat) : Prop where
  brackets : t.brackets = k
  held : (∃ n, p.lastGroup = some (t.token, n)) ↔ 0 < k
  count : ∀ n, p.lastGroup = some (t.token, n) → n = t.brackets

/-- The rule gives one bracket more than the tree has, and remembers them with its token. It may do
anything when what is remembered is not exact. -/
def AddsOne (count : Tree → Nat → Parse Nat) : Prop :=
  ∀ t k p, Exact p t k → count t k p =
    .ok (t.brackets + 1) { p with lastGroup := some (t.token, t.brackets + 1) }

structure Settled (p : Parser) : Prop where
  nodup : p.cursor.rest.Nodup
  behind : ∀ g ∈ p.lastGroup, g.1 ∉ p.cursor.ahead

def Clear (p : Parser) : Prop :=
  ∀ g ∈ p.lastGroup, g.1 ∉ p.cursor.rest

structure Passes (p q : Parser) : Prop where
  rest : q.cursor.rest <:+ p.cursor.rest
  settled : q.Settled
  lastGroup : ∀ g ∈ q.lastGroup, g ∈ p.lastGroup ∨ g.1 ∈ p.cursor.rest

structure Made (p : Parser) (t : Tree) (q : Parser) : Prop where
  mem : t.token ∈ p.cursor.rest
  passed : t.token ∉ q.cursor.ahead
  exact : p.Clear → q.Exact t t.brackets

variable {α β γ δ : Type}

inductive Tallies (f : α → β) (made : α → Parser → Prop) (p : Parser) :
    EStateM.Result ParseError Parser α → EStateM.Result ParseError Parser β → Prop
  | ok {a : α} {q : Parser} (hq : p.Passes q) (ha : made a q) :
      Tallies f made p (.ok a q) (.ok (f a) q)
  | error {e : ParseError} {q : Parser} (hq : p.Passes q) :
      Tallies f made p (.error e q) (.error e q)

def Tallied (f : Tree → β) (x : Parse Tree) (y : Parse β) : Prop :=
  ∀ p : Parser, p.Settled → Tallies f p.Made p (x p) (y p)

def withTally (t : Tree) : Tree × Nat :=
  (t, t.brackets)

variable {p q r : Parser} {t u : Tree} {k n : Nat}

theorem Exact.groupsAround (h : p.Exact t k) : p.groupsAround t.token = t.brackets := by
  unfold Parser.groupsAround
  cases hg : p.lastGroup with
  | none =>
      have hk : ¬ 0 < k := by simp [← h.held, hg]
      have hb := h.brackets
      dsimp only
      omega
  | some g =>
      obtain ⟨v, m⟩ := g
      dsimp only
      split
      · rename_i hv
        subst hv
        exact h.count m hg
      · rename_i hv
        have hk : ¬ 0 < k := by simp [← h.held, hg, hv]
        have hb := h.brackets
        omega

theorem countGroup_of_exact (h : p.Exact t k) :
    countGroup t.token p =
      .ok (t.brackets + 1) { p with lastGroup := some (t.token, t.brackets + 1) } := by
  rw [countGroup_eq_ok, grouped, h.groupsAround]
  exact ⟨rfl, rfl⟩

theorem exact_of_ne (hb : t.brackets = 0) (hg : ∀ g ∈ p.lastGroup, g.1 ≠ t.token) :
    p.Exact t t.brackets where
  brackets := rfl
  held := by
    rw [hb]
    refine iff_of_false ?_ (Nat.lt_irrefl 0)
    rintro ⟨m, hm⟩
    exact hg _ hm rfl
  count m hm := absurd rfl (hg _ hm)

theorem exact_grouped (hg : p.lastGroup = some (t.token, t.brackets)) (hb : 0 < t.brackets) :
    p.Exact t t.brackets where
  brackets := rfl
  held := iff_of_true ⟨_, hg⟩ hb
  count m hm := by
    rw [hg] at hm
    cases hm
    rfl

namespace Settled

theorem here_notMem (h : p.Settled) : p.cursor.here ∉ p.cursor.ahead :=
  (List.nodup_cons.mp h.nodup).1

theorem clear_onward (h : p.Settled) (hn : p.cursor.ahead ≠ []) : p.onward.Clear := by
  intro g hg
  rw [cursor_onward, Cursor.rest_bump hn]
  exact h.behind g hg

theorem onward (h : p.Settled) : p.onward.Settled where
  nodup := h.nodup.sublist p.cursor.rest_bump_suffix.sublist
  behind := by
    intro g hg hm
    exact h.behind g hg (Cursor.ahead_subset_of_suffix p.cursor.rest_bump_suffix hm)

end Settled

namespace Passes

theorem refl (h : p.Settled) : p.Passes p where
  rest := List.suffix_rfl
  settled := h
  lastGroup _ hg := .inl hg

theorem trans (h : p.Passes q) (h' : q.Passes r) : p.Passes r where
  rest := h'.rest.trans h.rest
  settled := h'.settled
  lastGroup g hg := by
    rcases h'.lastGroup g hg with hg | hg
    · exact h.lastGroup g hg
    · exact .inr (h.rest.subset hg)

theorem onward (h : p.Passes q) : p.Passes q.onward where
  rest := q.cursor.rest_bump_suffix.trans h.rest
  settled := h.settled.onward
  lastGroup := h.lastGroup

theorem of_eq (h : p.Passes q) (hc : r.cursor = q.cursor) (hg : r.lastGroup = q.lastGroup) :
    p.Passes r where
  rest := hc ▸ h.rest
  settled := ⟨hc ▸ h.settled.nodup, by
    rw [hc, hg]
    exact h.settled.behind⟩
  lastGroup := hg ▸ h.lastGroup

theorem grouped {u : Token} (h : p.Passes q) (hm : u ∈ p.cursor.rest) (hp : u ∉ q.cursor.ahead) :
    p.Passes (q.grouped u) where
  rest := h.rest
  settled := by
    refine ⟨h.settled.nodup, ?_⟩
    rintro g ⟨⟩
    exact hp
  lastGroup := by
    rintro g ⟨⟩
    exact .inr hm

end Passes

theorem Made.of_passes (h : p.Passes q) (hc : p.Clear → q.Clear) (hm : q.Made t r) :
    p.Made t r where
  mem := h.rest.subset hm.mem
  passed := hm.passed
  exact hp := hm.exact (hc hp)

theorem made_of_here (h : p.Settled) (ht : t.token = p.cursor.here) (hb : t.brackets = 0)
    (ha : q.cursor.ahead ⊆ p.cursor.ahead)
    (hg : ∀ g ∈ q.lastGroup, g ∈ p.lastGroup ∨ g.1 ∈ p.cursor.ahead) : p.Made t q where
  mem := by
    rw [ht]
    exact List.mem_cons_self
  passed := by
    rw [ht]
    exact fun hm => h.here_notMem (ha hm)
  exact := by
    -- What is remembered was so before, or is a token behind this one.
    intro hp
    refine exact_of_ne hb fun g hgq he => ?_
    rw [ht] at he
    rcases hg g hgq with hgp | hm
    · exact hp g hgp (he ▸ List.mem_cons_self)
    · exact h.here_notMem (he ▸ hm)

theorem made_of_onward (h : p.Settled) (hn : p.cursor.ahead ≠ []) (hq : p.onward.Passes q)
    (ht : t.token = p.cursor.here) (hb : t.brackets = 0) : p.Made t q := by
  have hrest : p.onward.cursor.rest = p.cursor.ahead := Cursor.rest_bump hn
  apply made_of_here h ht hb
  · intro v hv
    rw [← hrest]
    exact hq.rest.subset (Cursor.ahead_subset_rest _ hv)
  · rw [← hrest]
    exact hq.lastGroup

namespace Tallies

variable {f : α → β} {g : γ → δ} {made : α → Parser → Prop} {made' : γ → Parser → Prop}
  {x : Parse α} {y : Parse β} {x' : α → Parse γ} {y' : β → Parse δ}

theorem of_passes {a : EStateM.Result ParseError Parser α}
    {b : EStateM.Result ParseError Parser β} {made' : α → Parser → Prop} (h : p.Passes q)
    (hx : Tallies f made q a b) (hm : ∀ a r, q.Passes r → made a r → made' a r) :
    Tallies f made' p a b := by
  cases hx with
  | ok hr ha => exact .ok (h.trans hr) (hm _ _ hr ha)
  | error hr => exact .error (h.trans hr)

theorem bind (h : Tallies f made p (x q) (y q))
    (hf : ∀ a r, p.Passes r → made a r → Tallies g made' p (x' a r) (y' (f a) r)) :
    Tallies g made' p ((x >>= x') q) ((y >>= y') q) := by
  generalize hx : x q = v at h
  generalize hy : y q = w at h
  cases h with
  | ok hr ha =>
      rw [bind_of_ok hx, bind_of_ok hy]
      exact hf _ _ hr ha
  | error hr =>
      rw [bind_of_error hx, bind_of_error hy]
      exact .error hr

theorem map {l : α → γ} {l' : β → δ} (h : Tallies f made p (x q) (y q))
    (hl : ∀ a r, p.Passes r → made a r → l' (f a) = g (l a) ∧ made' (l a) r) :
    Tallies g made' p ((x >>= fun a => pure (l a)) q) ((y >>= fun b => pure (l' b)) q) := by
  refine h.bind fun a r hr ha => ?_
  obtain ⟨he, hm⟩ := hl a r hr ha
  rw [he]
  exact .ok hr hm

end Tallies

def Stands (p : Parser) : EStateM.Result ParseError Parser α → Prop
  | .ok _ q | .error _ q => q.cursor = p.cursor ∧ q.lastGroup = p.lastGroup

section Steps

variable {o : ParseOptions} {kind : Kind}

theorem stands_checkAdjacent (p : Parser) : p.Stands (checkAdjacent p) := by
  unfold checkAdjacent
  split
  · exact ⟨rfl, rfl⟩
  · split <;> exact ⟨rfl, rfl⟩

theorem stands_refuseEmptyGroup (p : Parser) : p.Stands (refuseEmptyGroup p) := by
  unfold refuseEmptyGroup
  split <;> exact ⟨rfl, rfl⟩

theorem stands_refuseFinish (p : Parser) : p.Stands (refuseFinish p) := by
  unfold refuseFinish
  split <;> exact ⟨rfl, rfl⟩

theorem stands_refuseRest (p : Parser) : p.Stands (refuseRest p) := by
  unfold refuseRest
  split <;> exact ⟨rfl, rfl⟩

theorem stands_checkHeight (t : Tree) (p : Parser) : p.Stands (checkHeight o t p) := by
  unfold checkHeight
  split <;> exact ⟨rfl, rfl⟩

namespace Tallies

variable {g : γ → δ} {made : γ → Parser → Prop} {x : Parse α} {x' : α → Parse γ}
  {y' : α → Parse δ}

theorem stand_bind (hx : ∀ p : Parser, p.Stands (x p)) (hq : p.Passes q)
    (hf : ∀ a r, x q = .ok a r → p.Passes r → Tallies g made p (x' a r) (y' a r)) :
    Tallies g made p ((x >>= x') q) ((x >>= y') q) := by
  have hstands := hx q
  cases h : x q with
  | ok a r =>
      rw [h] at hstands
      rw [bind_of_ok h, bind_of_ok h]
      exact hf a r h (hq.of_eq hstands.1 hstands.2)
  | error e r =>
      rw [h] at hstands
      rw [bind_of_error h, bind_of_error h]
      exact .error (hq.of_eq hstands.1 hstands.2)

theorem checkAdjacent_bind {x' : Unit → Parse γ} {y' : Unit → Parse δ} (hq : p.Passes q)
    (hf : q.Admits → Tallies g made p (x' () q) (y' () q)) :
    Tallies g made p ((checkAdjacent >>= x') q) ((checkAdjacent >>= y') q) := by
  refine stand_bind stands_checkAdjacent hq fun _ r hr _ => ?_
  obtain ⟨ha, rfl⟩ := checkAdjacent_eq_ok.mp hr
  exact hf ha

end Tallies

theorem tallies_expect (hq : p.Passes q) :
    Tallies id (fun _ r => r = q.onward) p (expect kind q) (expect kind q) := by
  unfold expect
  split
  · exact .ok hq.onward rfl
  · exact .error hq

def Bare (p : Parser) (t : Tree) (q : Parser) : Prop :=
  t.brackets = 0 ∧ p.Made t q

theorem bare_atom (hp : p.Settled) {a : Atom} (hc : q.cursor = p.cursor)
    (hg : q.lastGroup = p.lastGroup) : p.Bare (.atom p.cursor.here 0 a) q := by
  refine ⟨rfl, made_of_here hp rfl rfl ?_ ?_⟩
  · rw [hc]
    exact List.Subset.refl _
  · rw [hg]
    exact fun g hm => .inl hm

theorem tallies_number (hp : p.Settled) :
    Tallies id p.Bare p (number o p) (number o p) := by
  have hrefl : p.Passes p := .refl hp
  unfold number
  dsimp only
  split
  · exact .ok hrefl (bare_atom hp rfl rfl)
  split
  · exact .ok hrefl (bare_atom hp rfl rfl)
  split
  · exact .ok (hrefl.of_eq rfl rfl) (bare_atom hp rfl rfl)
  · exact .error hrefl

end Steps

section Rules

variable {count : Tree → Nat → Parse Nat} {o : ParseOptions} {x y : Parse Tree}
  {sub sub' : Precedence → Parse Tree} {counting : Precedence → Parse (Tree × Nat)}
  {min : Precedence} {op : Operator}

theorem made_withBrackets (hm : t.token ∈ p.cursor.rest)
    (ha : t.token ∉ q.cursor.ahead) (hg : q.lastGroup = some (t.token, n + 1)) :
    p.Made (t.withBrackets (n + 1)) q where
  mem := by rwa [Tree.token_withBrackets]
  passed := by rwa [Tree.token_withBrackets]
  exact _ := by
    apply exact_grouped
    · rw [Tree.token_withBrackets, Tree.brackets_withBrackets, hg]
    · rw [Tree.brackets_withBrackets]
      exact Nat.succ_pos n

theorem tallies_group {y : Parse (Tree × Nat)}
    (hcount : AddsOne count)
    (hx : Tallied withTally x y) (hp : p.Settled) (hk : p.cursor.here.kind = .openParen) :
    Tallies withTally p.Made p (group x p) (groupCounting count y p) := by
  have hrefl : p.Passes p := .refl hp
  refine .checkAdjacent_bind hrefl fun ha => ?_
  refine .stand_bind stands_refuseEmptyGroup hrefl fun _ _ hr _ => ?_
  have hn := ahead_ne_nil_of_admits ha (by simp [hk])
  rw [(refuseEmptyGroup_eq_ok.mp hr).2, bump_bind, bump_bind]
  have hinner := (hx _ hp.onward).of_passes hrefl.onward fun _ _ _ h => h
  refine hinner.bind fun t r hr ht => ?_
  -- Behind the opening bracket nothing is remembered that could be found again.
  have hexact : r.Exact t t.brackets := ht.exact (hp.clear_onward hn)
  have hmem : t.token ∈ p.cursor.rest := hrefl.onward.rest.subset ht.mem
  have hgrouped := hr.grouped hmem ht.passed
  rw [grouped, hexact.groupsAround] at hgrouped
  rw [bind_of_ok (countGroup_of_exact hexact), withTally, bind_of_ok (hcount _ _ _ hexact)]
  refine (tallies_expect hgrouped).map fun _ s hs hr => ?_
  subst hr
  refine ⟨by rw [withTally, Tree.brackets_withBrackets], ?_⟩
  apply made_withBrackets hmem
  · exact fun hm => ht.passed (Cursor.ahead_subset_of_suffix r.cursor.rest_bump_suffix hm)
  · rfl

theorem tallies_unary (hx : Tallied id x y) (hp : p.Settled) (ha : p.Admits)
    (hk : p.cursor.here.kind ∈ [Kind.minus, .bang]) :
    Tallies id p.Bare p (unary op x p) (unary op y p) := by
  have hn := ahead_ne_nil_of_admits ha (List.mem_cons_of_mem _ hk)
  have honward := (Passes.refl hp).onward
  rw [unary, unary, current_bind, current_bind, bump_bind, bump_bind]
  refine .checkAdjacent_bind honward fun _ => ?_
  have hright := (hx _ hp.onward).of_passes honward fun _ _ hr _ => hr
  exact hright.map fun _ _ _ hr => ⟨rfl, rfl, made_of_onward hp hn hr rfl rfl⟩

theorem tallies_binary (hsub : ∀ min, Tallied id (sub min) (sub' min)) (hp : p.Settled)
    (hn : p.cursor.ahead ≠ []) :
    Tallies id p.Bare p (binary op sub t p) (binary op sub' t p) := by
  have hrefl : p.Passes p := .refl hp
  refine .checkAdjacent_bind hrefl fun _ => ?_
  rw [current_bind, current_bind, bump_bind, bump_bind]
  have hright := (hsub p.cursor.here.kind.precedence _ hp.onward).of_passes hrefl.onward
    fun _ _ hr _ => hr
  exact hright.map fun _ _ _ hr => ⟨rfl, rfl, made_of_onward hp hn hr rfl rfl⟩

theorem tallies_moreArguments (hx : Tallied id x y) (hq : p.Passes q) :
    Tallies id (fun _ _ => True) p (moreArguments x n q) (moreArguments y n q) := by
  induction n generalizing q with
  | zero => exact .ok hq trivial
  | succ n ih =>
      rw [moreArguments, moreArguments, peek_bind, peek_bind]
      split
      · -- The second step may stay on the comma, which is passed all the same.
        rw [bump_bind, bump_bind, bump_bind, bump_bind]
        have hnext := hq.onward.onward
        refine ((hx _ hnext.settled).of_passes hnext fun _ _ hr _ => hr).bind fun _ _ hr _ => ?_
        exact (ih hr).map fun _ _ _ _ => ⟨rfl, trivial⟩
      · exact .ok hq trivial

theorem tallies_arguments (hx : Tallied id x y) (hp : p.Settled) :
    Tallies id (fun _ _ => True) p.onward (arguments x p) (arguments y p) := by
  have hrefl : p.onward.Passes p.onward := .refl hp.onward
  rw [arguments, arguments, peek_bind, peek_bind]
  split
  · rw [bump_bind]
    exact .checkAdjacent_bind hrefl fun _ => .ok hrefl trivial
  · rw [bump_bind, bump_bind]
    refine (hx _ hp.onward).bind fun _ _ hr _ => ?_
    rw [remaining_bind, remaining_bind]
    refine (tallies_moreArguments hx hr).bind fun _ _ hr _ => ?_
    refine (tallies_expect hr).bind fun _ _ hr _ => ?_
    exact .checkAdjacent_bind hr fun _ => .ok hr trivial

theorem tallies_call (hx : Tallied id x y) (hp : p.Settled) (hn : p.cursor.ahead ≠ []) :
    Tallies id p.Bare p (call x t p) (call y t p) := by
  have hrefl : p.Passes p := .refl hp
  refine .checkAdjacent_bind hrefl fun _ => ?_
  rw [current_bind, current_bind]
  have harguments := (tallies_arguments hx hp).of_passes hrefl.onward fun _ _ hr _ => hr
  exact harguments.map fun _ _ _ hr => ⟨rfl, rfl, made_of_onward hp hn hr rfl rfl⟩

theorem tallies_extend (hsub : ∀ min, Tallied id (sub min) (sub' min)) (hp : p.Settled)
    (hn : p.cursor.ahead ≠ []) (c : Continuation) :
    Tallies id p.Bare p (extend sub t c p) (extend sub' t c p) := by
  cases c with
  | operator op => exact tallies_binary hsub hp hn
  | call => exact tallies_call (hsub _) hp hn

theorem tallies_operand (hsub : ∀ min, Tallied id (sub min) (sub' min)) (hp : p.Settled)
    (ha : p.Admits) (hk : p.cursor.here.kind ≠ .openParen) :
    Tallies id p.Bare p (operand o sub p) (operand o sub' p) := by
  rw [operand, operand, current_bind, current_bind]
  cases hkind : p.cursor.here.kind <;> dsimp only
  case ident | string | trueWord | falseWord => exact .ok (.refl hp) (bare_atom hp rfl rfl)
  case numeric => exact tallies_number hp
  case openParen => exact absurd hkind hk
  case bang => exact tallies_unary (hsub _) hp ha (by simp [hkind])
  case minus => exact tallies_unary (hsub _) hp ha (by simp [hkind])
  all_goals exact .error (.refl hp)

theorem withTally_of_bare (h : p.Bare t q) : withTally t = (t, 0) := by
  rw [withTally, h.1]

theorem Tallied.fst {y : Parse (Tree × Nat)} (hx : Tallied withTally x y) :
    Tallied id x (Prod.fst <$> y) := by
  intro p hp
  have hmap : Tallies id p.Made p ((x >>= fun t => pure t) p) ((y >>= fun u => pure u.1) p) :=
    (hx p hp).map fun _ _ _ ht => ⟨rfl, ht⟩
  rwa [bind_pure, bind_pure_comp] at hmap

theorem tallies_operandCounting
    (hcount : AddsOne count)
    (hsub : ∀ min, Tallied withTally (sub min) (counting min)) (hp : p.Settled) (ha : p.Admits) :
    Tallies withTally p.Made p (operand o sub p) (operandCounting count o counting p) := by
  rw [operandCounting, current_bind]
  split
  · rename_i hk
    rw [operand_of_openParen hk]
    exact tallies_group hcount (hsub _) hp hk
  · rename_i hk
    rw [← bind_pure (operand o sub)]
    refine (tallies_operand (fun min => (hsub min).fst) hp ha hk).map fun _ _ _ ht => ?_
    exact ⟨(withTally_of_bare ht).symm, ht.2⟩

theorem tallies_chainCounting (hsub : ∀ min, Tallied withTally (sub min) (counting min))
    (hq : p.Passes q) (ht : p.Made t q) :
    Tallies withTally p.Made p (chain o sub min n t q)
      (chainCounting o counting min n (withTally t) q) := by
  induction n generalizing q t with
  | zero => exact .ok hq ht
  | succ n ih =>
      rw [chain, chainCounting, following_bind, following_bind]
      cases hf : q.following? min with
      | none => exact .ok hq ht
      | some c =>
          have hn := List.ne_nil_of_length_pos (length_ahead_pos_of_following? hf)
          dsimp only
          rw [bump_bind, bump_bind]
          refine .stand_bind stands_refuseFinish hq.onward fun _ _ hr _ => ?_
          obtain ⟨hk, hr⟩ := refuseFinish_eq_ok.mp hr
          rw [hr]
          have hnext := Cursor.ahead_ne_nil_of_peek hk
          have hextend := tallies_extend (t := t) (fun min => (hsub min).fst) hq.onward.settled
            hnext c
          -- The operator, or the bracket of a call, is behind all that is remembered.
          have hclear := hq.settled.clear_onward hn
          refine (hextend.of_passes hq.onward fun _ _ _ h => h).bind fun u r hr hu => ?_
          have hmade : p.Made u r := hu.2.of_passes hq.onward fun _ => hclear
          rw [id, ← withTally_of_bare hu]
          refine .stand_bind (stands_checkHeight u) hr fun _ s hs _ => ?_
          rw [(checkHeight_eq_ok.mp hs).2]
          exact ih hr hmade

theorem tallies_levelCounting
    (hcount : AddsOne count)
    (hsub : ∀ min, Tallied withTally (sub min) (counting min)) (hp : p.Settled) :
    Tallies withTally p.Made p (level o sub min p) (levelCounting count o counting min p) := by
  refine .checkAdjacent_bind (.refl hp) fun ha => ?_
  refine (tallies_operandCounting hcount hsub hp ha).bind fun t q hq ht => ?_
  refine .stand_bind (stands_checkHeight t) hq fun _ r hr _ => ?_
  rw [(checkHeight_eq_ok.mp hr).2, remaining_bind, remaining_bind]
  exact tallies_chainCounting hsub hq ht

theorem tallied_expressionCounting
    (hcount : AddsOne count)
    (o : ParseOptions) (room : Nat) (min : Precedence) :
    Tallied withTally (expression o room min) (expressionCounting count o room min) := by
  induction room generalizing min with
  | zero =>
      intro p hp
      exact .error ((Passes.refl hp).of_eq rfl rfl)
  | succ room ih =>
      intro p hp
      have hwithin : p.Passes p.within := (Passes.refl hp).of_eq rfl rfl
      have hlevel : Tallies withTally p.within.Made p (level o (expression o room) min p.within)
          (levelCounting count o (expressionCounting count o room) min p.within) :=
        (tallies_levelCounting hcount ih hwithin.settled).of_passes hwithin fun _ _ _ h => h
      rw [expression_succ, expressionCounting]
      refine Tallies.bind (q := p.within) hlevel fun t q hq ht => ?_
      have hexact (hc : p.Clear) : q.Exact t t.brackets := ht.exact hc
      exact .ok (hq.of_eq rfl rfl)
        ⟨ht.mem, ht.passed, fun hc => ⟨rfl, (hexact hc).held, (hexact hc).count⟩⟩

theorem tallied_parseCounting
    (hcount : AddsOne count)
    (o : ParseOptions) : Tallied withTally (parse o) (parseCounting count o) := by
  intro p hp
  have hx := tallied_expressionCounting hcount o (o.maxDepth - p.depth) .lowest p hp
  refine Tallies.bind (x := expression o (o.maxDepth - p.depth) .lowest)
    (y := expressionCounting count o (o.maxDepth - p.depth) .lowest) hx fun t q hq ht => ?_
  refine .stand_bind stands_refuseRest hq fun _ r hr _ => ?_
  rw [(refuseRest_eq_ok.mp hr).2]
  exact .ok hq ht

theorem Tallies.map_eq {f : Tree → β} {made : Tree → Parser → Prop} {z : Parse Tree}
    {w : Parse β} (h : Tallies f made p (z p) (w p)) : w p = (f <$> z) p := by
  change _ = EStateM.map f z p
  unfold EStateM.map
  generalize z p = a at h
  generalize w p = b at h
  cases h <;> rfl

end Rules

end Parser

namespace ParseSession

variable {o : ParseOptions} {tokens : List Token} {s : ParseSession} {p : Parser}

theorem settled_left (o : ParseOptions) (hp : p.Settled) : (left o p).Settled := by
  have hadds : Parser.AddsOne fun t _ => Parser.countGroup t.token :=
    fun _ _ _ => Parser.countGroup_of_exact
  have hx := Parser.tallied_parseCounting hadds o p hp
  unfold left
  generalize Parser.parse o p = a at hx
  generalize Parser.parseCounting _ o p = b at hx
  cases hx with
  | ok hq => exact hq.settled
  | error hq => exact hq.settled

def Settled (s : ParseSession) : Prop :=
  ∀ p ∈ s.parser?, p.Settled

theorem settled_ofTokens (hn : tokens.Nodup) : (ofTokens tokens).Settled := by
  intro p hp
  cases tokens with
  | nil => simp [ofTokens] at hp
  | cons t ts =>
      obtain rfl := Option.some.inj hp
      refine ⟨hn, ?_⟩
      intro g hg
      cases hg

theorem Settled.next (h : s.Settled) (call : Call) : (s.next o call).Settled := by
  cases hs : s.parser? with
  | none =>
      have hsame : s.next o call = s := by
        cases call <;> simp [ParseSession.next, parse, takeDeferred, hs]
      rwa [hsame]
  | some p =>
      have hp : p.Settled := h p hs
      cases call with
      | parse =>
          intro q hq
          obtain rfl : left o p = q := Option.some.inj ((parser?_parse hs).symm.trans hq)
          exact settled_left o hp
      | takeDeferred =>
          intro q hq
          obtain rfl : { p with deferred := none } = q := by
            simpa [ParseSession.next, takeDeferred, hs] using hq
          exact ⟨hp.nodup, hp.behind⟩

theorem Settled.after (h : s.Settled) (calls : List Call) : (s.after o calls).Settled := by
  induction calls generalizing s with
  | nil => exact h
  | cons call calls ih => exact ih (h.next call)

/-- No group closes unless what is remembered is exact: whatever a rule for the brackets does in
other states, the parse is the same, and the brackets of its tree are the groups around it. -/
theorem brackets_counted (o : ParseOptions) (calls : List Call) (hn : tokens.Nodup)
    (hp : ((ofTokens tokens).after o calls).parser? = some p) :
    (∀ count, Parser.AddsOne count →
      Parser.parseCounting count o p = (Parser.withTally <$> Parser.parse o) p) ∧
    (Parser.AddsOne fun t _ => Parser.countGroup t.token) ∧
    ∀ l source, (lex l source).tokens.Nodup := by
  have hsettled : p.Settled := (settled_ofTokens hn).after calls p hp
  refine ⟨?_, fun _ _ _ => Parser.countGroup_of_exact, lex_nodup⟩
  intro count hcount
  exact (Parser.tallied_parseCounting hcount o p hsettled).map_eq

def groupInGroup : List Token :=
  [⟨.openParen, ['('], 1, false⟩, ⟨.openParen, ['('], 2, false⟩, ⟨.numeric, ['1'], 3, false⟩,
    ⟨.closeParen, [')'], 4, false⟩, ⟨.closeParen, [')'], 5, false⟩, .finish 5]

theorem brackets_counted_groupInGroup :
    ∃ p, ((ofTokens groupInGroup).after {} []).parser? = some p ∧
      Parser.parseCounting (fun t _ p =>
          .ok (t.brackets + 1) { p with lastGroup := some (t.token, t.brackets + 1) }) {} p =
        (Parser.withTally <$> Parser.parse {}) p ∧
      ((ofTokens groupInGroup).parse {}).1.toOption.map Tree.brackets = some 2 := by
  refine ⟨_, rfl, ?_, by decide +kernel⟩
  have hn : groupInGroup.Nodup := by decide
  exact (brackets_counted {} [] hn rfl).1 _ fun _ _ _ _ => rfl

end ParseSession

end RuleLang
