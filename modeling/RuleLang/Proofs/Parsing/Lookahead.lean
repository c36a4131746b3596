import RuleLang.Proofs.Parsing.Deferral

namespace RuleLang

theorem Cursor.getElem?_position_succ (c : Cursor) :
    c.tokens[c.position + 1]? = c.ahead.head? := by
  have hle : c.behind.reverse.length ≤ c.position + 1 := by simp [position]
  rw [tokens, List.getElem?_append_right hle]
  simp [position, List.head?_eq_getElem?]

namespace Parser

variable {α β : Type}

def ending : EStateM.Result ParseError Parser α → Parser
  | .ok _ p | .error _ p => p

def facing (p : Parser) (ts : List Token) : Parser :=
  { p with cursor := { p.cursor with ahead := ts } }

def endFacing (ts : List Token) :
    EStateM.Result ParseError Parser α → EStateM.Result ParseError Parser α
  | .ok a p => .ok a (p.facing ts)
  | .error e p => .error e (p.facing ts)

def SeesTo (n : Nat) (p : Parser) (ts : List Token) : Prop :=
  ts.take (n - p.cursor.position) = p.cursor.ahead.take (n - p.cursor.position)

structure Still (x : Parse α) : Prop where
  stays : ∀ p, (ending (x p)).cursor = p.cursor
  sees : ∀ p ts, (p.facing ts).cursor.peek = p.cursor.peek → x (p.facing ts) = endFacing ts (x p)

/-- A step that never goes back and, when it ends before the index `n`, ends in the same way in
front of tokens that are the same up to `n`. -/
structure Looks (n : Nat) (x : Parse α) : Prop where
  forward : ∀ p, p.cursor.position ≤ (ending (x p)).cursor.position
  sees : ∀ p ts, p.SeesTo n ts → (ending (x p)).cursor.position < n →
    ∃ us, (ending (x p)).SeesTo n us ∧ x (p.facing ts) = endFacing us (x p)

section Still

variable {o : ParseOptions} {t : Tree} {u : Token} {p : Parser} {ts : List Token}

theorem here_facing : (p.facing ts).cursor.here = p.cursor.here := rfl

theorem deferred_facing : (p.facing ts).deferred = p.deferred := rfl

theorem peek_facing (h : ts.head? = p.cursor.ahead.head?) :
    (p.facing ts).cursor.peek = p.cursor.peek := by
  simp [Cursor.peek, facing, h]

theorem still_pure (a : α) : Still (pure a : Parse α) where
  stays _ := rfl
  sees _ _ _ := rfl

theorem still_throw (e : ParseError) : Still (throw e : Parse α) where
  stays _ := rfl
  sees _ _ _ := rfl

theorem still_current : Still current where
  stays _ := rfl
  sees _ _ _ := rfl

theorem still_peek : Still peek where
  stays _ := rfl
  sees p ts h := congrArg (EStateM.Result.ok · (p.facing ts)) h

theorem still_enter : Still enter where
  stays _ := rfl
  sees _ _ _ := rfl

theorem still_leave : Still leave where
  stays _ := rfl
  sees _ _ _ := rfl

theorem still_countGroup : Still (countGroup u) where
  stays _ := rfl
  sees _ _ _ := rfl

theorem still_checkHeight : Still (checkHeight o t) := by
  unfold checkHeight
  split
  · exact still_throw _
  · exact still_pure _

theorem still_checkAdjacent : Still checkAdjacent where
  stays p := by
    unfold checkAdjacent
    split
    · rfl
    · split <;> rfl
  sees p ts h := by
    unfold checkAdjacent
    rw [h, here_facing, deferred_facing]
    cases p.deferred with
    | some e => rfl
    | none =>
        dsimp only
        split <;> rfl

theorem still_refuseEmptyGroup : Still refuseEmptyGroup where
  stays p := by
    unfold refuseEmptyGroup
    split <;> rfl
  sees p ts h := by
    unfold refuseEmptyGroup
    rw [h]
    split <;> rfl

theorem still_refuseFinish : Still refuseFinish where
  stays p := by
    unfold refuseFinish
    split <;> rfl
  sees p ts h := by
    unfold refuseFinish
    rw [h]
    split <;> rfl

theorem still_refuseRest : Still refuseRest where
  stays p := by
    unfold refuseRest
    split <;> rfl
  sees p ts h := by
    unfold refuseRest
    rw [h, deferred_facing]
    split <;> rfl

theorem still_following (min : Precedence) : Still (following min) where
  stays _ := rfl
  sees p ts h := by
    unfold following
    rw [h]
    rfl

theorem still_number : Still (number o) where
  stays p := by
    unfold number
    dsimp only
    split
    · rfl
    split
    · rfl
    split <;> rfl
  sees p ts _ := by
    unfold number
    rw [here_facing]
    dsimp only
    split
    · rfl
    split
    · rfl
    split <;> rfl

end Still

section SeesTo

variable {n : Nat} {p : Parser} {ts : List Token}

theorem SeesTo.head? (h : p.SeesTo n ts) (hp : p.cursor.position < n) :
    ts.head? = p.cursor.ahead.head? := by
  obtain ⟨k, hk⟩ : ∃ k, n - p.cursor.position = k + 1 := ⟨n - p.cursor.position - 1, by omega⟩
  have htake := congrArg List.head? h
  simpa [SeesTo, hk, List.head?_take] using htake

theorem SeesTo.bump (h : p.SeesTo n ts) (hp : p.cursor.position < n) :
    ∃ us, p.onward.SeesTo n us ∧ (p.facing ts).onward = p.onward.facing us := by
  have hhead := h.head? hp
  cases hahead : p.cursor.ahead with
  | nil =>
      obtain rfl : ts = [] := by simpa [hahead] using hhead
      have hsame : p.onward = p := by simp [onward, Cursor.bump_of_nil hahead]
      refine ⟨[], by rw [hsame]; exact h, ?_⟩
      simp [onward, facing, Cursor.bump, hahead]
  | cons u rest =>
      obtain ⟨us, rfl⟩ := List.head?_eq_some_iff.mp (hhead.trans (by rw [hahead]; rfl))
      refine ⟨us, ?_, by simp [onward, facing, Cursor.bump, hahead]⟩
      obtain ⟨k, hk⟩ : ∃ k, n - p.cursor.position = k + 1 := ⟨n - p.cursor.position - 1, by omega⟩
      have hk' : n - p.onward.cursor.position = k := by
        rw [cursor_onward, Cursor.position_bump (by simp [hahead])]
        omega
      rw [SeesTo, hk, hahead] at h
      rw [SeesTo, hk', cursor_onward, Cursor.bump_of_ahead hahead]
      simpa using h

end SeesTo

section Count

variable {o : ParseOptions} {p : Parser} {x : Parse Tree} {sub : Precedence → Parse Tree}
  {min : Precedence} {t : Tree} {m : Nat}

theorem moreArguments_succ_of_le (hx : Consumes x) (hm : p.cursor.ahead.length ≤ m) :
    moreArguments x (m + 1) p = moreArguments x m p := by
  induction m generalizing p with
  | zero =>
      have hnil := List.eq_nil_of_length_eq_zero (Nat.le_zero.mp hm)
      have hk : p.cursor.peek.kind ≠ .comma := by simp [Cursor.peek, hnil, Token.finish]
      simp only [moreArguments, peek_bind, if_neg hk]
  | succ m ih =>
      rw [moreArguments, moreArguments, peek_bind, peek_bind]
      split
      · rename_i hk
        have hpos := length_ahead_pos (p := p) (by simp [hk])
        simp only [bump_bind]
        refine bind_congr_ok fun t q hq => bind_congr_left (ih ?_)
        have hl := hx.length_ahead_le hq
        simp only [length_ahead_onward] at hl
        omega
      · rfl

theorem chain_succ_of_le (hsub : ∀ min, Consumes (sub min)) (hm : p.cursor.ahead.length ≤ m) :
    chain o sub min (m + 1) t p = chain o sub min m t p := by
  induction m generalizing p t with
  | zero =>
      have hnil := List.eq_nil_of_length_eq_zero (Nat.le_zero.mp hm)
      simp only [chain, following_bind, following?_eq_none_of_nil hnil]
  | succ m ih =>
      rw [chain, chain, following_bind, following_bind]
      cases hf : p.following? min with
      | none => rfl
      | some c =>
          simp only [bump_bind]
          refine bind_congr_ok fun _ _ hr => ?_
          obtain ⟨hn, rfl⟩ := refuseFinish_eq_ok.mp hr
          refine bind_congr_ok fun u q hq => bind_congr_ok fun _ _ hh => ?_
          obtain ⟨-, rfl⟩ := checkHeight_eq_ok.mp hh
          have hl := length_ahead_extend_le hsub (length_ahead_pos hn) hq
          rw [length_ahead_onward] at hl
          exact ih (by omega)

end Count

namespace Looks

variable {n : Nat}

theorem of_still {x : Parse α} (hx : Still x) : Looks n x where
  forward p := by rw [hx.stays]
  sees p ts h hlt := by
    have hcursor := hx.stays p
    rw [hcursor] at hlt
    refine ⟨ts, ?_, hx.sees p ts (peek_facing (h.head? hlt))⟩
    rw [SeesTo, hcursor]
    exact h

theorem bump : Looks n bump where
  forward p := p.cursor.position_le_bump
  sees p ts h hlt := by
    obtain ⟨us, hus, honward⟩ := h.bump (p.cursor.position_le_bump.trans_lt hlt)
    exact ⟨us, hus, congrArg (EStateM.Result.ok ()) honward⟩

theorem bind {x : Parse α} {f : α → Parse β} (hx : Looks n x) (hf : ∀ a, Looks n (f a)) :
    Looks n (x >>= f) where
  forward p := by
    have hforward := hx.forward p
    cases hxp : x p with
    | error e q =>
        rw [hxp] at hforward
        rw [bind_of_error hxp]
        exact hforward
    | ok a q =>
        rw [hxp] at hforward
        rw [bind_of_ok hxp]
        exact hforward.trans ((hf a).forward q)
  sees p ts h hlt := by
    have hsees := hx.sees p ts h
    cases hxp : x p with
    | error e q =>
        rw [hxp] at hsees
        rw [bind_of_error hxp] at hlt ⊢
        obtain ⟨us, hus, heq⟩ := hsees hlt
        exact ⟨us, hus, bind_of_error heq⟩
    | ok a q =>
        rw [hxp] at hsees
        rw [bind_of_ok hxp] at hlt ⊢
        -- The rest of the run does not go back, so the first step ends before `n` as well.
        obtain ⟨us, hus, heq⟩ := hsees (((hf a).forward q).trans_lt hlt)
        obtain ⟨vs, hvs, hrest⟩ := (hf a).sees q us hus hlt
        exact ⟨vs, hvs, (bind_of_ok heq).trans hrest⟩

theorem remaining_bind {f : Nat → Parse α} (hf : ∀ m, Looks n (f m))
    (hm : ∀ m p, p.cursor.ahead.length ≤ m → f (m + 1) p = f m p) :
    Looks n (remaining >>= f) where
  forward p := (hf _).forward p
  sees p ts h := by
    -- Both runs may as well count to the same number, as no more than all tokens are of use.
    have hle {m : Nat} {q : Parser} (hq : q.cursor.ahead.length ≤ m) :
        f q.cursor.ahead.length q = f m q := by
      induction m, hq using Nat.le_induction with
      | base => rfl
      | succ m hq ih => rw [ih, hm m q hq]
    rw [Parser.remaining_bind, Parser.remaining_bind,
      hle (Nat.le_max_left p.cursor.ahead.length (p.facing ts).cursor.ahead.length),
      hle (Nat.le_max_right p.cursor.ahead.length (p.facing ts).cursor.ahead.length)]
    exact (hf _).sees p ts h

section Rules

variable {o : ParseOptions} {x : Parse Tree} {sub : Precedence → Parse Tree} {t : Tree}
  {k : Kind} {op : Operator} {min : Precedence} {m : Nat}

theorem still_bind {x : Parse α} {f : α → Parse β} (hx : Still x) (hf : ∀ a, Looks n (f a)) :
    Looks n (x >>= f) :=
  (of_still hx).bind hf

theorem bind_pure {x : Parse α} {f : α → β} (hx : Looks n x) :
    Looks n (x >>= fun a => pure (f a)) :=
  hx.bind fun _ => of_still (still_pure _)

theorem expect : Looks n (expect k) := by
  have hexpect : Parser.expect k = (do
      let t ← peek
      if t.kind = k then Parser.bump else throw (.expected k t)) := by
    funext p
    rw [peek_bind]
    unfold Parser.expect
    split <;> rfl
  rw [hexpect]
  refine still_bind still_peek fun t => ?_
  split
  · exact bump
  · exact of_still (still_throw _)

theorem group (hx : Looks n x) : Looks n (group x) := by
  refine still_bind still_checkAdjacent fun _ => still_bind still_refuseEmptyGroup fun _ => ?_
  refine bump.bind fun _ => hx.bind fun t => still_bind still_countGroup fun _ => ?_
  exact bind_pure expect

theorem unary (hx : Looks n x) : Looks n (unary op x) := by
  refine still_bind still_current fun t => bump.bind fun _ => ?_
  exact still_bind still_checkAdjacent fun _ => bind_pure hx

theorem operand (hsub : ∀ min, Looks n (sub min)) : Looks n (operand o sub) := by
  refine still_bind still_current fun t => ?_
  cases t.kind <;> dsimp only
  case ident | string | trueWord | falseWord => exact of_still (still_pure _)
  case numeric => exact of_still still_number
  case openParen => exact group (hsub _)
  case bang | minus => exact unary (hsub _)
  all_goals exact of_still (still_throw _)

theorem binary (hsub : ∀ min, Looks n (sub min)) : Looks n (binary op sub t) := by
  refine still_bind still_checkAdjacent fun _ => still_bind still_current fun u => ?_
  exact bump.bind fun _ => bind_pure (hsub _)

theorem moreArguments (hx : Looks n x) : Looks n (moreArguments x m) := by
  induction m with
  | zero => exact of_still (still_pure _)
  | succ m ih =>
      refine still_bind still_peek fun t => ?_
      split
      · exact bump.bind fun _ => bump.bind fun _ => hx.bind fun _ => bind_pure ih
      · exact of_still (still_pure _)

theorem arguments (hc : Consumes x) (hx : Looks n x) : Looks n (arguments x) := by
  refine still_bind still_peek fun t => ?_
  split
  · exact bump.bind fun _ => bind_pure (of_still still_checkAdjacent)
  · refine bump.bind fun _ => hx.bind fun first => ?_
    refine remaining_bind (fun m => ?_) fun m p hp => ?_
    · refine (moreArguments hx).bind fun xs => expect.bind fun _ => ?_
      exact bind_pure (of_still still_checkAdjacent)
    · exact bind_congr_left (moreArguments_succ_of_le hc hp)

theorem call (hc : Consumes x) (hx : Looks n x) : Looks n (call x t) := by
  refine still_bind still_checkAdjacent fun _ => still_bind still_current fun u => ?_
  exact bind_pure (arguments hc hx)

theorem extend (hc : ∀ min, Consumes (sub min)) (hsub : ∀ min, Looks n (sub min))
    (c : Continuation) : Looks n (extend sub t c) := by
  cases c with
  | operator op => exact binary hsub
  | call => exact call (hc _) (hsub _)

theorem chain (hc : ∀ min, Consumes (sub min)) (hsub : ∀ min, Looks n (sub min)) :
    Looks n (chain o sub min m t) := by
  induction m generalizing t with
  | zero => exact of_still (still_pure _)
  | succ m ih =>
      refine still_bind (still_following min) fun c => ?_
      cases c with
      | none => exact of_still (still_pure _)
      | some c =>
          refine bump.bind fun _ => still_bind still_refuseFinish fun _ => ?_
          exact (extend hc hsub c).bind fun u => still_bind still_checkHeight fun _ => ih

theorem level (hc : ∀ min, Consumes (sub min)) (hsub : ∀ min, Looks n (sub min))
    (min : Precedence) : Looks n (level o sub min) := by
  refine still_bind still_checkAdjacent fun _ => (operand hsub).bind fun first => ?_
  refine still_bind still_checkHeight fun _ => ?_
  exact remaining_bind (fun m => chain hc hsub) fun m p hp => chain_succ_of_le hc hp

theorem expression (o : ParseOptions) (room : Nat) (min : Precedence) :
    Looks n (expression o room min) := by
  induction room generalizing min with
  | zero =>
      refine still_bind still_enter fun _ => still_bind still_current fun t => ?_
      exact of_still (still_throw _)
  | succ room ih =>
      rw [expression_succ]
      refine still_bind still_enter fun _ => ?_
      refine (level (consumes_expression o room) ih min).bind fun t => ?_
      exact bind_pure (of_still still_leave)

theorem parse (o : ParseOptions) : Looks n (parse o) := by
  have hx (room : Nat) :
      Looks n (Parser.expression o room .lowest >>= fun t => refuseRest >>= fun _ => pure t) :=
    (expression o room .lowest).bind fun t => bind_pure (of_still still_refuseRest)
  exact
    { forward := fun p => (hx (o.maxDepth - p.depth)).forward p
      sees := fun p ts => (hx (o.maxDepth - p.depth)).sees p ts }

end Rules

end Looks

end Parser

namespace ParseSession

variable {o : ParseOptions} {t : Token} {ts us vs : List Token} {i : Nat}

def position? (s : ParseSession) : Option Nat :=
  s.parser?.map (·.cursor.position)

structure ParsesAlike (o : ParseOptions) (ts us : List Token) : Prop where
  result : ((ofTokens us).parse o).1 = ((ofTokens ts).parse o).1
  recorded : recordedError o us = recordedError o ts
  position : ((ofTokens us).parse o).2.position? = ((ofTokens ts).parse o).2.position?
  parsed : parseTokens o us = parseTokens o ts

theorem left_eq_ending (o : ParseOptions) (p : Parser) :
    left o p = Parser.ending (Parser.parse o p) := by
  unfold left Parser.ending
  cases Parser.parse o p <;> rfl

theorem position?_parse_cons (o : ParseOptions) (t : Token) (ts : List Token) :
    ((ofTokens (t :: ts)).parse o).2.position? = some (left o (.start t ts)).cursor.position :=
  congrArg (Option.map _) (parser?_parse rfl)

theorem parsesAlike_of_endFacing
    (h : Parser.parse o (.start t us) = Parser.endFacing vs (Parser.parse o (.start t ts))) :
    ParsesAlike o (t :: ts) (t :: us) := by
  constructor
  · unfold Parser.start at h
    simp only [ofTokens, parse, h]
    cases Parser.parse o _ <;> rfl
  · rw [recordedError_cons, recordedError_cons, left_eq_ending, left_eq_ending, h]
    cases Parser.parse o (.start t ts) <;> rfl
  · rw [position?_parse_cons, position?_parse_cons, left_eq_ending, left_eq_ending, h]
    cases Parser.parse o (.start t ts) <;> rfl
  · rw [parseTokens_cons, parseTokens_cons, h]
    cases Parser.parse o (.start t ts) <;> rfl

theorem parsesAlike_of_getElem? (hi : (left o (.start t ts)).cursor.position = i)
    (h : ∀ j ≤ i + 1, us[j]? = (t :: ts)[j]?) : ParsesAlike o (t :: ts) us := by
  obtain ⟨us, rfl⟩ : ∃ vs, us = t :: vs := by
    have hhead := h 0 (Nat.zero_le _)
    rw [← List.head?_eq_getElem?] at hhead
    exact List.head?_eq_some_iff.mp hhead
  have hsees : (Parser.start t ts).SeesTo (i + 1) us := by
    refine List.ext_getElem? fun j => ?_
    rw [List.getElem?_take, List.getElem?_take]
    split
    · exact h (j + 1) (by omega)
    · rfl
  rw [left_eq_ending] at hi
  obtain ⟨vs, -, hvs⟩ := (Parser.Looks.parse o).sees _ us hsees (by omega)
  exact parsesAlike_of_endFacing hvs

theorem kind_of_accepted (hi : ((ofTokens ts).parse o).2.position? = some i)
    (h : (parseTokens o ts).error = none) : ∀ u ∈ ts[i + 1]?, u.kind = .finish := by
  cases ts with
  | nil => cases hi
  | cons t ts =>
      have htokens : (left o (.start t ts)).cursor.tokens = t :: ts := (follows_left o _).tokens
      have hposition := Option.some.inj ((position?_parse_cons o t ts).symm.trans hi)
      rw [parseTokens_cons] at h
      cases hx : Parser.parse o (.start t ts) with
      | error e q =>
          rw [hx] at h
          cases h
      | ok v q =>
          have hq : left o (.start t ts) = q := by
            rw [left_eq_ending, hx]
            rfl
          rw [hx] at h
          rw [hq] at htokens hposition
          intro u hu
          rw [← htokens, ← hposition, Cursor.getElem?_position_succ] at hu
          have hpeek := (Parser.parse_eq_ok.mp hx).2 h
          rwa [Cursor.peek, Option.mem_def.mp hu] at hpeek

theorem parse_looks_one_ahead (o : ParseOptions) (ts : List Token) (hts : ts ≠ []) :
    ∃ i, ((ofTokens ts).parse o).2.position? = some i ∧
      (∀ us, (∀ j ≤ i + 1, us[j]? = ts[j]?) → ParsesAlike o ts us) ∧
      (i + 1 < ts.length → ∀ more, ParsesAlike o ts (ts.take (i + 2) ++ more)) ∧
      ((parseTokens o ts).error = none →
        ∀ us, ParsesAlike o ts us → ∀ u ∈ us[i + 1]?, u.kind = .finish) := by
  obtain ⟨t, ts, rfl⟩ := List.exists_cons_of_ne_nil hts
  have hposition := position?_parse_cons o t ts
  refine ⟨_, hposition, fun us hus => parsesAlike_of_getElem? rfl hus, fun hlt more => ?_,
    fun h us hus => kind_of_accepted (hus.position.trans hposition) (hus.parsed ▸ h)⟩
  refine parsesAlike_of_getElem? rfl fun j hj => ?_
  rw [List.getElem?_append_left (by rw [List.length_take]; omega), List.getElem?_take,
    if_pos (by omega)]

def emptyGroupTokens : List Token :=
  [⟨.openParen, ['('], 1, false⟩, ⟨.closeParen, [')'], 2, false⟩, ⟨.plus, ['+'], 4, false⟩]

theorem parse_looks_one_ahead_product :
    (productTokens ≠ [] ∧ (parseTokens {} productTokens).error = none ∧
        ∀ more, ParsesAlike {} productTokens (productTokens ++ more)) ∧
      emptyGroupTokens ≠ [] ∧ ∀ more, parseTokens {} (emptyGroupTokens.take 2 ++ more) =
        { tree := none, error := some (.emptyGroup ⟨.openParen, ['('], 1, false⟩) } := by
  have hproduct : productTokens ≠ [] := by decide
  have hgroup : emptyGroupTokens ≠ [] := by decide
  refine ⟨⟨hproduct, by decide +kernel, fun more => ?_⟩, hgroup, fun more => ?_⟩
  · obtain ⟨i, hi, -, hmore, -⟩ := parse_looks_one_ahead {} productTokens hproduct
    have hsix : ((ofTokens productTokens).parse {}).2.position? = some 6 := by decide +kernel
    obtain rfl := Option.some.inj (hi.symm.trans hsix)
    exact hmore (by decide) more
  · obtain ⟨i, hi, -, hmore, -⟩ := parse_looks_one_ahead {} emptyGroupTokens hgroup
    have hzero : ((ofTokens emptyGroupTokens).parse {}).2.position? = some 0 := by decide +kernel
    obtain rfl := Option.some.inj (hi.symm.trans hzero)
    rw [(hmore (by decide) more).parsed]
    decide +kernel

end ParseSession

end RuleLang
