import RuleLang.Proofs.Parsing.Steps
import RuleLang.Proofs.Typing.System

namespace RuleLang

namespace Cursor

variable {c : Cursor}

theorem position_bump (h : c.ahead ≠ []) : c.bump.position = c.position + 1 := by
  obtain ⟨t, ts, hr⟩ := List.exists_cons_of_ne_nil h
  rw [bump_of_ahead hr]
  rfl

theorem position_le_bump (c : Cursor) : c.position ≤ c.bump.position := by
  by_cases h : c.ahead = []
  · rw [bump_of_nil h]
  · rw [position_bump h]
    exact Nat.le_succ _

theorem here_mem (c : Cursor) : c.here ∈ c.tokens := by
  simp [tokens]

theorem exists_offset_peek (c : Cursor) : ∃ t ∈ c.tokens, c.peek.offset = t.offset := by
  by_cases h : c.ahead = []
  · exact ⟨c.here, c.here_mem, by simp [peek, h, Token.finish]⟩
  · exact ⟨c.peek, by simp [tokens, peek_mem h], rfl⟩

end Cursor

namespace Tree

def DrawnFrom (ts : List Token) (t : Tree) : Prop :=
  ∀ v ∈ t.postorder, v.token ∈ ts

def AllDrawnFrom (ts : List Token) (xs : List Tree) : Prop :=
  ∀ v ∈ listPostorder xs, v.token ∈ ts

variable {ts : List Token} {t : Tree} {u : Token} {n : Nat}

theorem DrawnFrom.token_mem (h : t.DrawnFrom ts) : t.token ∈ ts :=
  h t t.mem_postorder

theorem drawnFrom_withBrackets : (t.withBrackets n).DrawnFrom ts ↔ t.DrawnFrom ts := by
  cases t <;> simp [DrawnFrom, postorder, withBrackets, token, or_imp, forall_and]

theorem drawnFrom_atom {a : Atom} (hu : u ∈ ts) : (Tree.atom u n a).DrawnFrom ts := by
  simpa [DrawnFrom, postorder, token] using hu

theorem drawnFrom_unary {op : Operator} {r : Tree} (hu : u ∈ ts) (hr : r.DrawnFrom ts) :
    (Tree.unary u n op r).DrawnFrom ts := by
  simp only [DrawnFrom, postorder, List.forall_mem_append, List.forall_mem_singleton]
  exact ⟨hr, hu⟩

theorem drawnFrom_binary {op : Operator} {l r : Tree} (hu : u ∈ ts) (hl : l.DrawnFrom ts)
    (hr : r.DrawnFrom ts) : (Tree.binary u n op l r).DrawnFrom ts := by
  simp only [DrawnFrom, postorder, List.forall_mem_append, List.forall_mem_singleton]
  exact ⟨hl, hr, hu⟩

theorem drawnFrom_call {f : Tree} {xs : List Tree} (hu : u ∈ ts) (hf : f.DrawnFrom ts)
    (hx : AllDrawnFrom ts xs) : (Tree.call u n f xs).DrawnFrom ts := by
  simp only [DrawnFrom, postorder, List.forall_mem_append, List.forall_mem_singleton]
  exact ⟨hf, hx, hu⟩

theorem allDrawnFrom_nil : AllDrawnFrom ts [] :=
  List.forall_mem_nil _

theorem allDrawnFrom_cons {xs : List Tree} (ht : t.DrawnFrom ts) (hx : AllDrawnFrom ts xs) :
    AllDrawnFrom ts (t :: xs) := by
  simp only [AllDrawnFrom, listPostorder, List.forall_mem_append]
  exact ⟨ht, hx⟩

end Tree

namespace Parser

structure Follows (p q : Parser) : Prop where
  tokens : q.cursor.tokens = p.cursor.tokens
  position : p.cursor.position ≤ q.cursor.position
  begun : ∃ new, q.begun = new ++ p.begun ∧ new.Pairwise (· > ·) ∧
    ∀ i ∈ new, p.cursor.position < i ∧ i ≤ q.cursor.position
  deferred : ∀ e ∈ q.deferred, e ∈ p.deferred ∨ ∃ t ∈ p.cursor.tokens, e = .notANumber t

structure Level (p q : Parser) : Prop extends Follows p q where
  depth : q.depth = p.depth

def Cites (p : Parser) (e : ParseError) : Prop :=
  e ∈ p.deferred ∨ ∃ t ∈ p.cursor.tokens, ∃ u, e.token? = some u ∧ u.offset = t.offset

/-- A step that started on the level of `p` has ended like this. A failure may leave the parser
deeper than it was. -/
def Goes {α : Type} (made : α → Prop) (p : Parser) : EStateM.Result ParseError Parser α → Prop
  | .ok a q => p.Level q ∧ made a
  | .error e q => p.Follows q ∧ p.depth ≤ q.depth ∧ p.Cites e

def marked (p : Parser) : Parser :=
  { p with begun := p.cursor.position :: p.begun }

def Enters (x : Parse Tree) : Prop :=
  ∀ p : Parser, Goes (Tree.DrawnFrom p.cursor.tokens) p.marked (x p)

variable {α β : Type} {p q r : Parser} {e : ParseError}

namespace Follows

theorem refl (p : Parser) : p.Follows p where
  tokens := rfl
  position := le_rfl
  begun := ⟨[], rfl, .nil, List.forall_mem_nil _⟩
  deferred _ he := .inl he

theorem trans (h : p.Follows q) (h' : q.Follows r) : p.Follows r where
  tokens := h'.tokens.trans h.tokens
  position := h.position.trans h'.position
  begun := by
    obtain ⟨old, hold, hpold, hbold⟩ := h.begun
    obtain ⟨new, hnew, hpnew, hbnew⟩ := h'.begun
    refine ⟨new ++ old, by rw [hnew, hold, List.append_assoc], ?_, fun i hi => ?_⟩
    · refine List.pairwise_append.mpr ⟨hpnew, hpold, fun i hi j hj => ?_⟩
      exact (hbold j hj).2.trans_lt (hbnew i hi).1
    · rcases List.mem_append.mp hi with hi | hi
      · exact ⟨h.position.trans_lt (hbnew i hi).1, (hbnew i hi).2⟩
      · exact ⟨(hbold i hi).1, (hbold i hi).2.trans h'.position⟩
  deferred e he := by
    rcases h'.deferred e he with he | he
    · exact h.deferred e he
    · exact .inr (h.tokens ▸ he)

theorem onward_self (p : Parser) : p.Follows p.onward where
  tokens := p.cursor.tokens_bump
  position := p.cursor.position_le_bump
  begun := ⟨[], rfl, .nil, List.forall_mem_nil _⟩
  deferred _ he := .inl he

theorem mark (h : p.Follows q) (h' : q.Follows r) (hb : r.begun = q.begun)
    (hlt : q.cursor.position < r.cursor.position) : p.Follows r.marked := by
  have hstep : q.Follows r.marked :=
    { tokens := h'.tokens
      position := h'.position
      begun := ⟨[r.cursor.position], by rw [marked, hb]; rfl, List.pairwise_singleton _ _,
        by simpa [marked] using hlt⟩
      deferred := h'.deferred }
  exact h.trans hstep

theorem cites (h : p.Follows q) (he : q.Cites e) : p.Cites e := by
  rcases he with he | he
  · rcases h.deferred e he with he | ⟨t, ht, rfl⟩
    · exact .inl he
    · exact .inr ⟨t, ht, t, rfl, rfl⟩
  · exact .inr (h.tokens ▸ he)

end Follows

theorem cites_here (h : e.token? = some p.cursor.here) : p.Cites e :=
  .inr ⟨_, p.cursor.here_mem, _, h, rfl⟩

theorem cites_peek (h : e.token? = some p.cursor.peek) : p.Cites e := by
  obtain ⟨t, ht, ho⟩ := p.cursor.exists_offset_peek
  exact .inr ⟨t, ht, _, h, ho⟩

namespace Level

theorem refl (p : Parser) : p.Level p :=
  ⟨.refl p, rfl⟩

theorem trans (h : p.Level q) (h' : q.Level r) : p.Level r :=
  ⟨h.toFollows.trans h'.toFollows, h'.depth.trans h.depth⟩

theorem onward (h : p.Level q) : p.Level q.onward :=
  h.trans ⟨.onward_self q, rfl⟩

theorem grouped {t : Token} (h : p.Level q) : p.Level (q.grouped t) where
  tokens := h.tokens
  position := h.position
  begun := h.begun
  deferred := h.deferred
  depth := h.depth

theorem here_mem (h : p.Level q) : q.cursor.here ∈ p.cursor.tokens :=
  h.tokens ▸ q.cursor.here_mem

theorem fails {made : α → Prop} (h : p.Level q) (he : q.Cites e) : Goes made p (.error e q) :=
  ⟨h.toFollows, h.depth.ge, h.toFollows.cites he⟩

end Level

section Steps

variable {made : α → Prop} {made' : β → Prop} {o : ParseOptions} {k : Kind} {min : Precedence}

theorem goes_checkAdjacent (h : p.Level q) : Goes (fun _ => q.Admits) p (checkAdjacent q) := by
  unfold checkAdjacent
  cases hd : q.deferred with
  | some e => exact h.fails (.inl hd)
  | none =>
      dsimp only
      split
      · exact ⟨h, hd, ‹_›⟩
      · exact h.fails (cites_peek rfl)

theorem goes_expect (h : p.Level q) : Goes (fun _ => True) p (expect k q) := by
  unfold expect
  split
  · exact ⟨h.onward, trivial⟩
  · exact h.fails (cites_peek rfl)

theorem goes_refuseEmptyGroup (h : p.Level q) : Goes (fun _ => True) p (refuseEmptyGroup q) := by
  unfold refuseEmptyGroup
  split
  · exact h.fails (cites_here rfl)
  · exact ⟨h, trivial⟩

theorem goes_refuseFinish (h : p.Level q) : Goes (fun _ => True) p (refuseFinish q) := by
  unfold refuseFinish
  split
  · exact h.fails (cites_here rfl)
  · exact ⟨h, trivial⟩

theorem goes_refuseRest (h : p.Level q) : Goes (fun _ => True) p (refuseRest q) := by
  unfold refuseRest
  split
  · exact h.fails (cites_peek rfl)
  · exact ⟨h, trivial⟩

theorem goes_checkHeight {t : Tree} (h : p.Level q) (ht : t.token ∈ p.cursor.tokens) :
    Goes (fun _ => True) p (checkHeight o t q) := by
  unfold checkHeight
  split
  · exact h.fails (.inr ⟨_, h.tokens.symm ▸ ht, _, rfl, rfl⟩)
  · exact ⟨h, trivial⟩

theorem goes_countGroup {t : Token} (h : p.Level q) : Goes (fun _ => True) p (countGroup t q) := by
  rw [countGroup_eq_ok.mpr ⟨rfl, rfl⟩]
  exact ⟨h.grouped, trivial⟩

theorem goes_number (h : p.Level q) :
    Goes (Tree.DrawnFrom p.cursor.tokens) p (number o q) := by
  have hdrawn {a : Atom} : (Tree.atom q.cursor.here 0 a).DrawnFrom p.cursor.tokens :=
    Tree.drawnFrom_atom h.here_mem
  unfold number
  dsimp only
  split
  · exact ⟨h, hdrawn⟩
  split
  · exact ⟨h, hdrawn⟩
  split
  · refine ⟨⟨⟨h.tokens, h.position, h.begun, ?_⟩, h.depth⟩, hdrawn⟩
    rintro e ⟨⟩
    exact .inr ⟨_, h.here_mem, rfl⟩
  · exact h.fails (cites_here rfl)

namespace Goes

theorem of_level {x : EStateM.Result ParseError Parser α} (h : p.Level q) (hx : Goes made q x) :
    Goes made p x := by
  cases x with
  | ok a r => exact ⟨h.trans hx.1, hx.2⟩
  | error e r =>
      exact ⟨h.toFollows.trans hx.1, h.depth.ge.trans hx.2.1, h.toFollows.cites hx.2.2⟩

theorem bind {x : Parse α} {f : α → Parse β} (h : Goes made p (x q))
    (hf : ∀ a r, x q = .ok a r → p.Level r → made a → Goes made' p (f a r)) :
    Goes made' p ((x >>= f) q) := by
  cases hx : x q with
  | ok a r =>
      rw [hx] at h
      rw [bind_of_ok hx]
      exact hf a r hx h.1 h.2
  | error e r =>
      rw [hx] at h
      rw [bind_of_error hx]
      exact h

theorem map {x : Parse α} {f : α → β} (h : Goes made p (x q)) (hf : ∀ a, made a → made' (f a)) :
    Goes made' p ((x >>= fun a => pure (f a)) q) :=
  h.bind fun a _ _ hr ha => ⟨hr, hf a ha⟩

theorem checkAdjacent_bind {f : Unit → Parse α} (h : p.Level q)
    (hf : q.Admits → Goes made p (f () q)) : Goes made p ((checkAdjacent >>= f) q) := by
  refine (goes_checkAdjacent h).bind fun _ r hr _ ha => ?_
  obtain ⟨-, rfl⟩ := checkAdjacent_eq_ok.mp hr
  exact hf ha

theorem current_bind {f : Token → Parse α} (h : Goes made p (f q.cursor.here q)) :
    Goes made p ((current >>= f) q) :=
  h

theorem peek_bind {f : Token → Parse α} (h : Goes made p (f q.cursor.peek q)) :
    Goes made p ((peek >>= f) q) :=
  h

theorem remaining_bind {f : Nat → Parse α} (h : Goes made p (f q.cursor.ahead.length q)) :
    Goes made p ((remaining >>= f) q) :=
  h

theorem following_bind {f : Option Continuation → Parse α}
    (h : Goes made p (f (q.following? min) q)) : Goes made p ((following min >>= f) q) :=
  h

theorem bump_bind {f : Unit → Parse α} (h : Goes made p (f () q.onward)) :
    Goes made p ((bump >>= f) q) :=
  h

theorem enter {x : Parse Tree} (hx : Enters x) (h : p.Level q) (h' : q.Level r)
    (hb : r.begun = q.begun) (hlt : q.cursor.position < r.cursor.position) :
    Goes (Tree.DrawnFrom p.cursor.tokens) p (x r) := by
  have hlevel : p.Level r.marked :=
    ⟨h.toFollows.mark h'.toFollows hb hlt, h'.depth.trans h.depth⟩
  have htokens : r.cursor.tokens = p.cursor.tokens := h'.tokens.trans h.tokens
  exact htokens ▸ (hx r).of_level hlevel

theorem enter_onward {x : Parse Tree} (hx : Enters x) (h : p.Level q)
    (ha : q.cursor.ahead ≠ []) : Goes (Tree.DrawnFrom p.cursor.tokens) p (x q.onward) := by
  refine enter hx h (.onward (.refl q)) rfl ?_
  rw [cursor_onward, Cursor.position_bump ha]
  exact Nat.lt_succ_self _

end Goes

end Steps

section Rules

variable {o : ParseOptions} {x : Parse Tree} {sub : Precedence → Parse Tree} {min : Precedence}
  {op : Operator} {t : Tree} {n room : Nat}

theorem goes_group (hx : Enters x) (h : p.Level q) (hk : q.cursor.here.kind = .openParen) :
    Goes (Tree.DrawnFrom p.cursor.tokens) p (group x q) := by
  refine .checkAdjacent_bind h fun ha => ?_
  refine (goes_refuseEmptyGroup h).bind fun _ _ hr _ _ => ?_
  obtain ⟨-, rfl⟩ := refuseEmptyGroup_eq_ok.mp hr
  have hne := ahead_ne_nil_of_admits ha (by simp [hk])
  refine .bump_bind ((Goes.enter_onward hx h hne).bind fun t r _ hr ht => ?_)
  refine (goes_countGroup hr).bind fun n s _ hs _ => ?_
  exact (goes_expect hs).map fun _ _ => Tree.drawnFrom_withBrackets.mpr ht

theorem goes_unary (hx : Enters x) (h : p.Level q) (ha : q.Admits)
    (hk : q.cursor.here.kind ∈ [Kind.minus, .bang]) :
    Goes (Tree.DrawnFrom p.cursor.tokens) p (unary op x q) := by
  have hne := ahead_ne_nil_of_admits ha (List.mem_cons_of_mem _ hk)
  refine .current_bind (.bump_bind (.checkAdjacent_bind h.onward fun _ => ?_))
  exact (Goes.enter_onward hx h hne).map fun r hr => Tree.drawnFrom_unary h.here_mem hr

theorem goes_operand (hsub : ∀ min, Enters (sub min)) (h : p.Level q) (ha : q.Admits) :
    Goes (Tree.DrawnFrom p.cursor.tokens) p (operand o sub q) := by
  refine .current_bind ?_
  cases hk : q.cursor.here.kind <;> dsimp only
  case ident | string | trueWord | falseWord => exact ⟨h, Tree.drawnFrom_atom h.here_mem⟩
  case numeric => exact goes_number h
  case openParen => exact goes_group (hsub _) h hk
  case bang => exact goes_unary (hsub _) h ha (by simp [hk])
  case minus => exact goes_unary (hsub _) h ha (by simp [hk])
  all_goals exact h.fails (cites_here rfl)

theorem goes_binary (hsub : ∀ min, Enters (sub min)) (h : p.Level q) (hq : q.cursor.ahead ≠ [])
    (ht : t.DrawnFrom p.cursor.tokens) :
    Goes (Tree.DrawnFrom p.cursor.tokens) p (binary op sub t q) := by
  refine .checkAdjacent_bind h fun _ => .current_bind (.bump_bind ?_)
  exact (Goes.enter_onward (hsub _) h hq).map fun r hr => Tree.drawnFrom_binary h.here_mem ht hr

theorem goes_moreArguments (hx : Enters x) (h : p.Level q) :
    Goes (Tree.AllDrawnFrom p.cursor.tokens) p (moreArguments x n q) := by
  induction n generalizing q with
  | zero => exact ⟨h, Tree.allDrawnFrom_nil⟩
  | succ n ih =>
      refine .peek_bind ?_
      split
      · rename_i hk
        -- Only the first of the two steps is sure to move: the comma may be the last token.
        have hne : q.cursor.ahead ≠ [] := Cursor.ahead_ne_nil_of_peek (by simp [hk])
        have hlt : q.cursor.position < q.onward.onward.cursor.position := by
          have hle := q.onward.cursor.position_le_bump
          rw [cursor_onward, Cursor.position_bump hne] at hle
          exact hle
        refine .bump_bind (.bump_bind ?_)
        refine (Goes.enter hx h (.onward (.onward (.refl q))) rfl hlt).bind fun t r _ hr ht => ?_
        exact (ih hr).map fun _ hs => Tree.allDrawnFrom_cons ht hs
      · exact ⟨h, Tree.allDrawnFrom_nil⟩

theorem goes_arguments (hx : Enters x) (h : p.Level q) (hq : q.cursor.ahead ≠ []) :
    Goes (Tree.AllDrawnFrom p.cursor.tokens) p (arguments x q) := by
  refine .peek_bind ?_
  split
  · exact .bump_bind ((goes_checkAdjacent h.onward).map fun _ _ => Tree.allDrawnFrom_nil)
  · refine .bump_bind ((Goes.enter_onward hx h hq).bind fun t r _ hr ht => .remaining_bind ?_)
    refine (goes_moreArguments hx hr).bind fun ts s _ hs hts => ?_
    refine (goes_expect hs).bind fun _ v _ hv _ => ?_
    exact (goes_checkAdjacent hv).map fun _ _ => Tree.allDrawnFrom_cons ht hts

theorem goes_call (hx : Enters x) (h : p.Level q) (hq : q.cursor.ahead ≠ [])
    (ht : t.DrawnFrom p.cursor.tokens) :
    Goes (Tree.DrawnFrom p.cursor.tokens) p (call x t q) := by
  refine .checkAdjacent_bind h fun _ => .current_bind ((goes_arguments hx h hq).map fun xs hxs => ?_)
  exact Tree.drawnFrom_call h.here_mem (Tree.drawnFrom_atom ht.token_mem) hxs

theorem goes_extend (hsub : ∀ min, Enters (sub min)) (h : p.Level q) (hq : q.cursor.ahead ≠ [])
    (ht : t.DrawnFrom p.cursor.tokens) (c : Continuation) :
    Goes (Tree.DrawnFrom p.cursor.tokens) p (extend sub t c q) := by
  cases c with
  | operator op => exact goes_binary hsub h hq ht
  | call => exact goes_call (hsub _) h hq ht

theorem goes_chain (hsub : ∀ min, Enters (sub min)) (h : p.Level q)
    (ht : t.DrawnFrom p.cursor.tokens) :
    Goes (Tree.DrawnFrom p.cursor.tokens) p (chain o sub min n t q) := by
  induction n generalizing q t with
  | zero => exact ⟨h, ht⟩
  | succ n ih =>
      refine .following_bind ?_
      cases q.following? min with
      | none => exact ⟨h, ht⟩
      | some c =>
          refine .bump_bind ((goes_refuseFinish h.onward).bind fun _ _ hr _ _ => ?_)
          obtain ⟨hn, rfl⟩ := refuseFinish_eq_ok.mp hr
          have hne := Cursor.ahead_ne_nil_of_peek hn
          refine (goes_extend hsub h.onward hne ht c).bind fun u r _ hr hu => ?_
          refine (goes_checkHeight hr hu.token_mem).bind fun _ s _ hs _ => ?_
          exact ih hs hu

end Rules

def level (o : ParseOptions) (sub : Precedence → Parse Tree) (min : Precedence) : Parse Tree := do
  checkAdjacent
  let first ← operand o sub
  checkHeight o first
  chain o sub min (← remaining) first

theorem expression_succ (o : ParseOptions) (room : Nat) (min : Precedence) :
    expression o (room + 1) min = (do
      enter
      let t ← level o (expression o room) min
      leave
      return t) := by
  simp only [expression, level, bind_assoc]

theorem goes_level {o : ParseOptions} {sub : Precedence → Parse Tree} (min : Precedence)
    (hsub : ∀ min, Enters (sub min)) (p : Parser) :
    Goes (Tree.DrawnFrom p.cursor.tokens) p (level o sub min p) := by
  refine .checkAdjacent_bind (.refl p) fun ha => ?_
  refine (goes_operand hsub (.refl p) ha).bind fun t q _ hq ht => ?_
  refine (goes_checkHeight hq ht.token_mem).bind fun _ r _ hr _ => ?_
  exact .remaining_bind (goes_chain hsub hr ht)

theorem Follows.of_within (h : p.within.Follows q) : p.marked.Follows q :=
  ⟨h.tokens, h.position, h.begun, h.deferred⟩

theorem enters_expression (o : ParseOptions) (room : Nat) (min : Precedence) :
    Enters (expression o room min) := by
  induction room generalizing min with
  | zero =>
      intro p
      exact ⟨.of_within (.refl _), Nat.le_succ _, cites_here rfl⟩
  | succ room ih =>
      intro p
      have hlevel := goes_level (o := o) min ih p.within
      rw [expression_succ]
      change Goes _ p.marked ((level o (expression o room) min >>= _) p.within)
      cases hx : level o (expression o room) min p.within with
      | error e q =>
          rw [bind_of_error hx]
          rw [hx] at hlevel
          obtain ⟨hq, hd, he⟩ := hlevel
          exact ⟨hq.of_within, Nat.le_of_succ_le hd, he⟩
      | ok t q =>
          rw [bind_of_ok hx]
          rw [hx] at hlevel
          obtain ⟨hq, ht⟩ := hlevel
          have hd : q.out.depth = p.depth := by
            rw [out, hq.depth]
            rfl
          exact ⟨⟨⟨hq.tokens, hq.position, hq.begun, hq.deferred⟩, hd⟩, ht⟩

theorem goes_parse (o : ParseOptions) (p : Parser) :
    Goes (Tree.DrawnFrom p.cursor.tokens) p.marked (parse o p) := by
  have hx := enters_expression o (o.maxDepth - p.depth) .lowest p
  exact Goes.bind (x := expression o (o.maxDepth - p.depth) .lowest) hx fun t q _ hq ht =>
    (goes_refuseRest hq).map fun _ _ => ht

end Parser

end RuleLang
