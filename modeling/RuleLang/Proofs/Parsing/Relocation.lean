import RuleLang.Proofs.Parsing.Course
import RuleLang.Proofs.Parsing.Limit
import RuleLang.Proofs.Rendering.Places

namespace RuleLang

structure Token.Relocates (σ : Token → Token) (ts : List Token) : Prop where
  shape : ∀ t, (σ t).shape = t.shape
  apart : ∀ t ∈ ts, ∀ u ∈ ts, σ t = σ u → t = u

theorem Token.exists_map_eq {ts us : List Token} (ht : ts.Nodup)
    (h : us.map shape = ts.map shape) :
    ∃ σ : Token → Token, (∀ t, (σ t).shape = t.shape) ∧ ts.map σ = us := by
  induction ts generalizing us with
  | nil => exact ⟨id, fun _ => rfl, (List.map_eq_nil_iff.mp h).symm⟩
  | cons t ts ih =>
      obtain ⟨u, us, rfl, hs, hrest⟩ := List.map_eq_cons_iff.mp h
      obtain ⟨hnew, ht⟩ := List.nodup_cons.mp ht
      obtain ⟨σ, hshape, hmap⟩ := ih ht hrest
      have hsame : ts.map (fun v => if v = t then u else σ v) = ts.map σ := by
        apply List.map_congr_left
        intro v hv
        exact if_neg (ne_of_mem_of_not_mem hv hnew)
      refine ⟨fun v => if v = t then u else σ v, fun v => ?_, ?_⟩
      · dsimp only
        split
        · rename_i hv
          exact hv ▸ hs
        · exact hshape v
      · rw [List.map_cons, if_pos rfl, hsame, hmap]

theorem Token.exists_relocates {ts us : List Token} (ht : ts.Nodup) (hu : us.Nodup)
    (h : us.map shape = ts.map shape) : ∃ σ, Relocates σ ts ∧ ts.map σ = us := by
  obtain ⟨σ, hshape, rfl⟩ := exists_map_eq ht h
  exact ⟨σ, ⟨hshape, fun t ht u hm => List.inj_on_of_nodup_map hu ht hm⟩, rfl⟩

def Cursor.relocate (σ : Token → Token) (c : Cursor) : Cursor where
  behind := c.behind.map σ
  here := σ c.here
  ahead := c.ahead.map σ

def ParseError.relocate (σ : Token → Token) : ParseError → ParseError
  | .noTokens => .noTokens
  | .unexpected t => .unexpected (σ t)
  | .emptyGroup t => .emptyGroup (σ t)
  | .expected k t => .expected k (σ t)
  | .noOperand t => .noOperand (σ t)
  | .notANumber t => .notANumber (σ t)
  | .tooDeep limit t => .tooDeep limit (σ t)

def ParseError.forget (e : ParseError) : ParseError :=
  e.relocate Token.forget

namespace Tree

mutual

def relocate (σ : Token → Token) : Tree → Tree
  | .atom t n a => .atom (σ t) n a
  | .unary t n op r => .unary (σ t) n op (r.relocate σ)
  | .binary t n op l r => .binary (σ t) n op (l.relocate σ) (r.relocate σ)
  | .call t n f xs => .call (σ t) n (f.relocate σ) (listRelocate σ xs)

def listRelocate (σ : Token → Token) : List Tree → List Tree
  | [] => []
  | t :: ts => t.relocate σ :: listRelocate σ ts

end

variable {σ : Token → Token}

@[simp]
theorem token_relocate (t : Tree) : (t.relocate σ).token = σ t.token := by
  cases t <;> rfl

theorem relocate_withBrackets (n : Nat) (t : Tree) :
    (t.withBrackets n).relocate σ = (t.relocate σ).withBrackets n := by
  cases t <;> rfl

mutual

@[simp]
theorem height_relocate : ∀ t : Tree, (t.relocate σ).height = t.height
  | .atom .. => rfl
  | .unary _ _ _ r => by simp [relocate, height, height_relocate r]
  | .binary _ _ _ l r => by simp [relocate, height, height_relocate l, height_relocate r]
  | .call _ _ f xs => by simp [relocate, height, height_relocate f, greatestHeight_relocate xs]

theorem greatestHeight_relocate : ∀ ts : List Tree,
    greatestHeight (listRelocate σ ts) = greatestHeight ts
  | [] => rfl
  | t :: ts => by
      simp [listRelocate, greatestHeight, height_relocate t, greatestHeight_relocate ts]

end

mutual

theorem forget_relocate (h : ∀ t, (σ t).shape = t.shape) :
    ∀ t : Tree, (t.relocate σ).forget = t.forget
  | .atom t _ _ => by simp [relocate, forget, Token.forget_eq_iff.mpr (h t)]
  | .unary t _ _ r => by
      simp [relocate, forget, Token.forget_eq_iff.mpr (h t), forget_relocate h r]
  | .binary t _ _ l r => by
      simp [relocate, forget, Token.forget_eq_iff.mpr (h t), forget_relocate h l,
        forget_relocate h r]
  | .call t _ f xs => by
      simp [relocate, forget, Token.forget_eq_iff.mpr (h t), forget_relocate h f,
        listForget_relocate h xs]

theorem listForget_relocate (h : ∀ t, (σ t).shape = t.shape) :
    ∀ ts : List Tree, listForget (listRelocate σ ts) = listForget ts
  | [] => rfl
  | t :: ts => by
      simp [listRelocate, listForget, forget_relocate h t, listForget_relocate h ts]

end

end Tree

namespace Parser

def relocate (σ : Token → Token) (p : Parser) : Parser :=
  { p with
    cursor := p.cursor.relocate σ
    lastGroup := p.lastGroup.map fun g => (σ g.1, g.2)
    deferred := p.deferred.map (ParseError.relocate σ) }

structure Inside (ts : List Token) (p : Parser) : Prop where
  cursor : p.cursor.tokens ⊆ ts
  group : ∀ g ∈ p.lastGroup, g.1 ∈ ts

/-- The second run ends as the first, with all tokens relocated. Errors may also be about the finish
behind the last token, which is not one of the tokens. -/
def Parallel {α β : Type} (σ : Token → Token) (ts : List Token) (f : α → β) :
    EStateM.Result ParseError Parser α → EStateM.Result ParseError Parser β → Prop
  | .ok a q, .ok b q' => b = f a ∧ q' = q.relocate σ ∧ q.Inside ts
  | .error e _, .error e' _ => e'.forget = e.forget
  | _, _ => False

variable {α β γ δ : Type} {σ : Token → Token} {ts : List Token} {p q : Parser} {t u : Token}
  {min : Precedence}

section Relocate

theorem Inside.here_mem (hp : p.Inside ts) : p.cursor.here ∈ ts :=
  hp.cursor p.cursor.here_mem

theorem Inside.onward (hp : p.Inside ts) : p.onward.Inside ts where
  cursor := by
    rw [cursor_onward, Cursor.tokens_bump]
    exact hp.cursor
  group := hp.group

theorem Inside.grouped (hp : p.Inside ts) (ht : t ∈ ts) : (p.grouped t).Inside ts where
  cursor := hp.cursor
  group g hg := by
    obtain rfl := Option.some.inj hg
    exact ht

theorem relocate_onward (σ : Token → Token) (p : Parser) :
    (p.relocate σ).onward = p.onward.relocate σ := by
  obtain ⟨⟨behind, here, ahead⟩, depth, lastGroup, deferred, begun⟩ := p
  cases ahead <;> rfl

theorem relocate_within (σ : Token → Token) (p : Parser) :
    (p.relocate σ).within = p.within.relocate σ := by
  simp [within, relocate, Cursor.relocate, Cursor.position]

theorem length_ahead_relocate (σ : Token → Token) (p : Parser) :
    (p.relocate σ).cursor.ahead.length = p.cursor.ahead.length := by
  simp [relocate, Cursor.relocate]

theorem groupsAround_relocate (hσ : Token.Relocates σ ts) (hp : p.Inside ts) (ht : t ∈ ts) :
    (p.relocate σ).groupsAround (σ t) = p.groupsAround t := by
  unfold groupsAround relocate
  cases hg : p.lastGroup with
  | none => rfl
  | some g =>
      have hiff : σ g.1 = σ t ↔ g.1 = t :=
        ⟨hσ.apart _ (hp.group g hg) _ ht, congrArg σ⟩
      simp only [Option.map_some, hiff]

theorem relocate_grouped (hσ : Token.Relocates σ ts) (hp : p.Inside ts) (ht : t ∈ ts) :
    (p.relocate σ).grouped (σ t) = (p.grouped t).relocate σ := by
  simp only [grouped, groupsAround_relocate hσ hp ht]
  rfl

theorem shape_peek_relocate (h : ∀ t, (σ t).shape = t.shape) (p : Parser) :
    (p.relocate σ).cursor.peek.shape = p.cursor.peek.shape := by
  obtain ⟨⟨behind, here, ahead⟩, depth, lastGroup, deferred, begun⟩ := p
  cases ahead with
  | nil => rfl
  | cons t ts => exact h t

theorem kind_peek_relocate (h : ∀ t, (σ t).shape = t.shape) (p : Parser) :
    (p.relocate σ).cursor.peek.kind = p.cursor.peek.kind :=
  Token.kind_of_shape (shape_peek_relocate h p)

theorem following?_relocate (h : ∀ t, (σ t).shape = t.shape) (p : Parser) (min : Precedence) :
    (p.relocate σ).following? min = p.following? min := by
  unfold following?
  rw [kind_peek_relocate h]
  simp [relocate]

theorem calleeName_relocate (h : ∀ t, (σ t).shape = t.shape) (t : Tree) :
    calleeName (t.relocate σ) = calleeName t := by
  rcases t with ⟨t, n, a⟩ | _ | _ | _
  · cases a with
    | identifier => rfl
    | _ => exact Token.literal_of_shape (h t)
  all_goals exact Token.literal_of_shape (h _)

end Relocate

theorem forget_relocate_error (h : ∀ t, (σ t).shape = t.shape) (e : ParseError) :
    (e.relocate σ).forget = e.forget := by
  cases e <;> simp [ParseError.forget, ParseError.relocate, Token.forget_eq_iff.mpr (h _)]

section Steps

variable {o : ParseOptions} {k : Kind}

theorem parallel_checkAdjacent (hσ : Token.Relocates σ ts) (hp : p.Inside ts) :
    Parallel σ ts id (checkAdjacent p) (checkAdjacent (p.relocate σ)) := by
  have hpeek := shape_peek_relocate hσ.shape p
  unfold checkAdjacent
  cases hd : p.deferred with
  | some e =>
      have hd' : (p.relocate σ).deferred = some (e.relocate σ) := by simp [relocate, hd]
      rw [hd']
      exact forget_relocate_error hσ.shape e
  | none =>
      have hd' : (p.relocate σ).deferred = none := by simp [relocate, hd]
      have hhere : (p.relocate σ).cursor.here.kind = p.cursor.here.kind :=
        Token.kind_of_shape (hσ.shape _)
      rw [hd']
      simp only [hhere, Token.kind_of_shape hpeek]
      split
      · exact ⟨rfl, rfl, hp⟩
      · exact congrArg ParseError.unexpected (Token.forget_eq_iff.mpr hpeek)

theorem parallel_expect (hσ : Token.Relocates σ ts) (hp : p.Inside ts) :
    Parallel σ ts id (expect k p) (expect k (p.relocate σ)) := by
  have hpeek := shape_peek_relocate hσ.shape p
  unfold expect
  rw [Token.kind_of_shape hpeek]
  split
  · exact ⟨rfl, relocate_onward σ p, hp.onward⟩
  · exact congrArg (ParseError.expected k) (Token.forget_eq_iff.mpr hpeek)

theorem parallel_refuseEmptyGroup (hσ : Token.Relocates σ ts) (hp : p.Inside ts) :
    Parallel σ ts id (refuseEmptyGroup p) (refuseEmptyGroup (p.relocate σ)) := by
  unfold refuseEmptyGroup
  rw [kind_peek_relocate hσ.shape]
  split
  · exact congrArg ParseError.emptyGroup (Token.forget_eq_iff.mpr (hσ.shape _))
  · exact ⟨rfl, rfl, hp⟩

theorem parallel_refuseFinish (hσ : Token.Relocates σ ts) (hp : p.Inside ts) :
    Parallel σ ts id (refuseFinish p) (refuseFinish (p.relocate σ)) := by
  unfold refuseFinish
  rw [kind_peek_relocate hσ.shape]
  split
  · exact congrArg ParseError.unexpected (Token.forget_eq_iff.mpr (hσ.shape _))
  · exact ⟨rfl, rfl, hp⟩

theorem parallel_refuseRest (hσ : Token.Relocates σ ts) (hp : p.Inside ts) :
    Parallel σ ts id (refuseRest p) (refuseRest (p.relocate σ)) := by
  have hpeek := shape_peek_relocate hσ.shape p
  have hd : (p.relocate σ).deferred = none ↔ p.deferred = none := by simp [relocate]
  unfold refuseRest
  simp only [hd, Token.kind_of_shape hpeek]
  split
  · exact congrArg ParseError.unexpected (Token.forget_eq_iff.mpr hpeek)
  · exact ⟨rfl, rfl, hp⟩

theorem parallel_countGroup (hσ : Token.Relocates σ ts) (hp : p.Inside ts) (ht : t ∈ ts) :
    Parallel σ ts id (countGroup t p) (countGroup (σ t) (p.relocate σ)) := by
  rw [countGroup_eq_ok.mpr ⟨rfl, rfl⟩, countGroup_eq_ok.mpr ⟨rfl, rfl⟩,
    groupsAround_relocate hσ hp ht, relocate_grouped hσ hp ht]
  exact ⟨rfl, rfl, hp.grouped ht⟩

theorem parallel_checkHeight {t : Tree} (hσ : Token.Relocates σ ts) (hp : p.Inside ts) :
    Parallel σ ts id (checkHeight o t p) (checkHeight o (t.relocate σ) (p.relocate σ)) := by
  unfold checkHeight
  rw [Tree.height_relocate]
  split
  · refine congrArg (ParseError.tooDeep o.maxDepth) (Token.forget_eq_iff.mpr ?_)
    rw [Tree.token_relocate]
    exact hσ.shape _
  · exact ⟨rfl, rfl, hp⟩

theorem parallel_number (hσ : Token.Relocates σ ts) (hp : p.Inside ts) :
    Parallel σ ts (Tree.relocate σ) (number o p) (number o (p.relocate σ)) := by
  have hl : (p.relocate σ).cursor.here.literal = p.cursor.here.literal :=
    Token.literal_of_shape (hσ.shape _)
  have hd : (p.relocate σ).cursor.here.delimited = p.cursor.here.delimited :=
    Token.delimited_of_shape (hσ.shape _)
  unfold number
  simp only [hl, hd]
  split
  · exact ⟨rfl, rfl, hp⟩
  cases Numeral.leading? p.cursor.here.literal with
  | some n => exact ⟨rfl, rfl, hp⟩
  | none =>
      dsimp only
      split
      · exact ⟨rfl, rfl, hp.cursor, hp.group⟩
      · exact congrArg ParseError.notANumber (Token.forget_eq_iff.mpr (hσ.shape _))

end Steps

namespace Parallel

variable {f : α → β} {g : γ → δ}

theorem bind {x : Parse α} {y : Parse β} {k : α → Parse γ} {l : β → Parse δ}
    (h : Parallel σ ts f (x p) (y (p.relocate σ)))
    (hf : ∀ a q, x p = .ok a q → q.Inside ts →
      Parallel σ ts g (k a q) (l (f a) (q.relocate σ))) :
    Parallel σ ts g ((x >>= k) p) ((y >>= l) (p.relocate σ)) := by
  cases hx : x p with
  | error e q =>
      cases hy : y (p.relocate σ) with
      | error e' q' =>
          rw [hx, hy] at h
          rw [bind_of_error hx, bind_of_error hy]
          exact h
      | ok b q' => simp [hx, hy, Parallel] at h
  | ok a q =>
      cases hy : y (p.relocate σ) with
      | error e' q' => simp [hx, hy, Parallel] at h
      | ok b q' =>
          rw [hx, hy] at h
          rw [bind_of_ok hx, bind_of_ok hy]
          obtain ⟨rfl, rfl, hq⟩ := h
          exact hf a q hx hq

theorem map {x : Parse α} {y : Parse β} {k : α → γ} {l : β → δ}
    (h : Parallel σ ts f (x p) (y (p.relocate σ))) (hf : ∀ a, l (f a) = g (k a)) :
    Parallel σ ts g ((x >>= fun a => pure (k a)) p)
      ((y >>= fun b => pure (l b)) (p.relocate σ)) :=
  h.bind fun a _ _ hq => ⟨hf a, rfl, hq⟩

theorem current_bind {k : Token → Parse γ} {l : Token → Parse δ}
    (h : Parallel σ ts g (k p.cursor.here p) (l (σ p.cursor.here) (p.relocate σ))) :
    Parallel σ ts g ((current >>= k) p) ((current >>= l) (p.relocate σ)) :=
  h

theorem peek_bind {k : Token → Parse γ} {l : Token → Parse δ}
    (h : Parallel σ ts g (k p.cursor.peek p) (l (p.relocate σ).cursor.peek (p.relocate σ))) :
    Parallel σ ts g ((peek >>= k) p) ((peek >>= l) (p.relocate σ)) :=
  h

theorem bump_bind {k : Unit → Parse γ} {l : Unit → Parse δ}
    (h : Parallel σ ts g (k () p.onward) (l () (p.onward.relocate σ))) :
    Parallel σ ts g ((bump >>= k) p) ((bump >>= l) (p.relocate σ)) := by
  rw [← relocate_onward] at h
  exact h

theorem remaining_bind {k : Nat → Parse γ} {l : Nat → Parse δ}
    (h : Parallel σ ts g (k p.cursor.ahead.length p) (l p.cursor.ahead.length (p.relocate σ))) :
    Parallel σ ts g ((remaining >>= k) p) ((remaining >>= l) (p.relocate σ)) := by
  have hl : (remaining >>= l) (p.relocate σ) = l p.cursor.ahead.length (p.relocate σ) := by
    rw [← length_ahead_relocate σ p]
    rfl
  rw [hl]
  exact h

theorem following_bind (hσ : Token.Relocates σ ts) {k : Option Continuation → Parse γ}
    {l : Option Continuation → Parse δ}
    (h : Parallel σ ts g (k (p.following? min) p) (l (p.following? min) (p.relocate σ))) :
    Parallel σ ts g ((following min >>= k) p) ((following min >>= l) (p.relocate σ)) := by
  have hl : (following min >>= l) (p.relocate σ) = l (p.following? min) (p.relocate σ) := by
    rw [← following?_relocate hσ.shape p min]
    rfl
  rw [hl]
  exact h

end Parallel

def Placeless (σ : Token → Token) (ts : List Token) (x : Parse Tree) : Prop :=
  ∀ p : Parser, p.Inside ts → Parallel σ ts (Tree.relocate σ) (x p) (x (p.relocate σ))

section Rules

variable {o : ParseOptions} {x : Parse Tree} {sub : Precedence → Parse Tree} {op : Operator}
  {v : Tree} {n : Nat}

theorem Enters.token_mem (hx : Enters x) (hp : p.Inside ts) {w : Tree} (h : x p = .ok w q) :
    w.token ∈ ts := by
  have hgoes := hx p
  rw [h] at hgoes
  exact hp.cursor hgoes.2.token_mem

theorem parallel_group (hσ : Token.Relocates σ ts) (he : Enters x) (hx : Placeless σ ts x)
    (hp : p.Inside ts) :
    Parallel σ ts (Tree.relocate σ) (group x p) (group x (p.relocate σ)) := by
  refine (parallel_checkAdjacent hσ hp).bind fun _ q _ hq => ?_
  refine (parallel_refuseEmptyGroup hσ hq).bind fun _ r _ hr => ?_
  refine .bump_bind ((hx _ hr.onward).bind fun w s hw hs => ?_)
  have hmem := he.token_mem hr.onward hw
  rw [Tree.token_relocate]
  refine (parallel_countGroup hσ hs hmem).bind fun m s' _ hs' => ?_
  exact (parallel_expect hσ hs').map fun _ => (Tree.relocate_withBrackets m w).symm

theorem parallel_unary (hσ : Token.Relocates σ ts) (hx : Placeless σ ts x) (hp : p.Inside ts) :
    Parallel σ ts (Tree.relocate σ) (unary op x p) (unary op x (p.relocate σ)) := by
  refine .current_bind (.bump_bind ((parallel_checkAdjacent hσ hp.onward).bind fun _ q _ hq => ?_))
  exact (hx _ hq).map fun _ => rfl

theorem parallel_operand (hσ : Token.Relocates σ ts) (he : ∀ min, Enters (sub min))
    (hsub : ∀ min, Placeless σ ts (sub min)) (hp : p.Inside ts) :
    Parallel σ ts (Tree.relocate σ) (operand o sub p) (operand o sub (p.relocate σ)) := by
  have hkind : (σ p.cursor.here).kind = p.cursor.here.kind := Token.kind_of_shape (hσ.shape _)
  have hliteral : (σ p.cursor.here).literal = p.cursor.here.literal :=
    Token.literal_of_shape (hσ.shape _)
  refine .current_bind ?_
  simp only [hkind, hliteral]
  cases hk : p.cursor.here.kind <;> dsimp only
  case ident | string | trueWord | falseWord => exact ⟨rfl, rfl, hp⟩
  case numeric => exact parallel_number hσ hp
  case openParen => exact parallel_group hσ (he _) (hsub _) hp
  case bang | minus => exact parallel_unary hσ (hsub _) hp
  all_goals exact congrArg ParseError.noOperand (Token.forget_eq_iff.mpr (hσ.shape _))

theorem parallel_binary (hσ : Token.Relocates σ ts) (hsub : ∀ min, Placeless σ ts (sub min))
    (hp : p.Inside ts) :
    Parallel σ ts (Tree.relocate σ) (binary op sub v p)
      (binary op sub (v.relocate σ) (p.relocate σ)) := by
  refine (parallel_checkAdjacent hσ hp).bind fun _ q _ hq => .current_bind (.bump_bind ?_)
  rw [Token.kind_of_shape (hσ.shape _)]
  exact (hsub _ _ hq.onward).map fun _ => rfl

theorem parallel_moreArguments (hσ : Token.Relocates σ ts) (hx : Placeless σ ts x)
    (hp : p.Inside ts) :
    Parallel σ ts (Tree.listRelocate σ) (moreArguments x n p)
      (moreArguments x n (p.relocate σ)) := by
  induction n generalizing p with
  | zero => exact ⟨rfl, rfl, hp⟩
  | succ n ih =>
      refine .peek_bind ?_
      rw [kind_peek_relocate hσ.shape]
      split
      · refine .bump_bind (.bump_bind ((hx _ hp.onward.onward).bind fun w q _ hq => ?_))
        exact (ih hq).map fun _ => rfl
      · exact ⟨rfl, rfl, hp⟩

theorem parallel_arguments (hσ : Token.Relocates σ ts) (hx : Placeless σ ts x)
    (hp : p.Inside ts) :
    Parallel σ ts (Tree.listRelocate σ) (arguments x p) (arguments x (p.relocate σ)) := by
  refine .peek_bind ?_
  rw [kind_peek_relocate hσ.shape]
  split
  · exact .bump_bind ((parallel_checkAdjacent hσ hp.onward).map fun _ => rfl)
  · refine .bump_bind ((hx _ hp.onward).bind fun w q _ hq => .remaining_bind ?_)
    refine (parallel_moreArguments hσ hx hq).bind fun ws r _ hr => ?_
    refine (parallel_expect hσ hr).bind fun _ s _ hs => ?_
    exact (parallel_checkAdjacent hσ hs).map fun _ => rfl

theorem parallel_call (hσ : Token.Relocates σ ts) (hx : Placeless σ ts x) (hp : p.Inside ts) :
    Parallel σ ts (Tree.relocate σ) (call x v p) (call x (v.relocate σ) (p.relocate σ)) := by
  refine (parallel_checkAdjacent hσ hp).bind fun _ q _ hq => .current_bind ?_
  refine (parallel_arguments hσ hx hq).map fun ws => ?_
  rw [calleeName_relocate hσ.shape, Tree.token_relocate]
  rfl

theorem parallel_extend (hσ : Token.Relocates σ ts) (hsub : ∀ min, Placeless σ ts (sub min))
    (hp : p.Inside ts) (c : Continuation) :
    Parallel σ ts (Tree.relocate σ) (extend sub v c p)
      (extend sub (v.relocate σ) c (p.relocate σ)) := by
  cases c with
  | operator op => exact parallel_binary hσ hsub hp
  | call => exact parallel_call hσ (hsub _) hp

theorem parallel_chain (hσ : Token.Relocates σ ts) (hsub : ∀ min, Placeless σ ts (sub min))
    (hp : p.Inside ts) :
    Parallel σ ts (Tree.relocate σ) (chain o sub min n v p)
      (chain o sub min n (v.relocate σ) (p.relocate σ)) := by
  induction n generalizing p v with
  | zero => exact ⟨rfl, rfl, hp⟩
  | succ n ih =>
      refine .following_bind hσ ?_
      cases p.following? min with
      | none => exact ⟨rfl, rfl, hp⟩
      | some c =>
          refine .bump_bind ((parallel_refuseFinish hσ hp.onward).bind fun _ q _ hq => ?_)
          refine (parallel_extend hσ hsub hq c).bind fun w r _ hr => ?_
          exact (parallel_checkHeight hσ hr).bind fun _ s _ hs => ih hs

end Rules

theorem placeless_expression (hσ : Token.Relocates σ ts) (o : ParseOptions) (room : Nat)
    (min : Precedence) : Placeless σ ts (expression o room min) := by
  induction room generalizing min with
  | zero =>
      intro p hp
      exact congrArg (ParseError.tooDeep o.maxDepth) (Token.forget_eq_iff.mpr (hσ.shape _))
  | succ room ih =>
      intro p hp
      have hw : p.within.Inside ts := ⟨hp.cursor, hp.group⟩
      rw [expression_succ]
      change Parallel σ ts _ ((level o _ min >>= _) p.within)
        ((level o _ min >>= _) (p.relocate σ).within)
      rw [relocate_within]
      have hlevel : Parallel σ ts (Tree.relocate σ) (level o (expression o room) min p.within)
          (level o (expression o room) min (p.within.relocate σ)) := by
        refine (parallel_checkAdjacent hσ hw).bind fun _ q _ hq => ?_
        refine (parallel_operand hσ (enters_expression o room) ih hq).bind fun v r _ hr => ?_
        refine (parallel_checkHeight hσ hr).bind fun _ s _ hs => .remaining_bind ?_
        exact parallel_chain hσ ih hs
      exact hlevel.bind fun v q _ hq => ⟨rfl, rfl, hq.cursor, hq.group⟩

theorem parallel_parse (hσ : Token.Relocates σ ts) (o : ParseOptions) (hp : p.Inside ts) :
    Parallel σ ts (Tree.relocate σ) (parse o p) (parse o (p.relocate σ)) := by
  change Parallel σ ts _ ((expression o (o.maxDepth - p.depth) .lowest >>= _) p)
    ((expression o (o.maxDepth - p.depth) .lowest >>= _) (p.relocate σ))
  refine (placeless_expression hσ o _ _ p hp).bind fun v q _ hq => ?_
  exact (parallel_refuseRest hσ hq).map fun _ => rfl

theorem inside_start (t : Token) (ts : List Token) : (start t ts).Inside (t :: ts) where
  cursor := by
    rw [tokens_start]
    exact List.Subset.refl _
  group := nofun

end Parser

namespace Parsed

def forget (r : Parsed) : Parsed where
  tree := r.tree.map Tree.forget
  error := r.error.map ParseError.forget

theorem forget_ofResult {σ : Token → Token} {ts : List Token}
    {x y : EStateM.Result ParseError Parser Tree} (hσ : Token.Relocates σ ts)
    (h : Parser.Parallel σ ts (Tree.relocate σ) x y) :
    (ofResult y).forget = (ofResult x).forget := by
  cases x with
  | error e q =>
      cases y with
      | error e' q' => simpa [ofResult, forget, Parser.Parallel] using h
      | ok u q' => simp [Parser.Parallel] at h
  | ok t q =>
      cases y with
      | error e' q' => simp [Parser.Parallel] at h
      | ok u q' =>
          obtain ⟨rfl, rfl, -⟩ := h
          have hd : (q.relocate σ).deferred.map ParseError.forget =
              q.deferred.map ParseError.forget := by
            rw [Parser.relocate, Option.map_map]
            exact congrArg (Option.map · q.deferred)
              (funext (Parser.forget_relocate_error hσ.shape))
          simp [ofResult, forget, Tree.forget_relocate hσ.shape, hd]

end Parsed

theorem parseTokens_of_shapes (o : ParseOptions) {ts us : List Token} (ht : ts.Nodup)
    (hu : us.Nodup) (h : us.map Token.shape = ts.map Token.shape) :
    (parseTokens o us).forget = (parseTokens o ts).forget := by
  obtain ⟨σ, hσ, rfl⟩ := Token.exists_relocates ht hu h
  cases ts with
  | nil => rfl
  | cons t ts =>
      rw [List.map_cons, parseTokens_cons, parseTokens_cons]
      exact Parsed.forget_ofResult hσ (Parser.parallel_parse hσ o (Parser.inside_start t ts))

end RuleLang
