import RuleLang.Proofs.Parsing.Lookahead

/-!
Tokens without the finishing token behind them. They are parsed as if it stood there: what is ahead
looks the same, and no step leaves the last token but the one from a comma to the next argument,
which does not look ahead first.
-/

namespace RuleLang

namespace Parser

variable {α β : Type} {o : ParseOptions} {p q : Parser} {t : Token}

def EndsIn (p : Parser) (t : Token) : Prop :=
  p.cursor.rest.getLast? = some t

def finished (t : Token) (p : Parser) : Parser :=
  p.facing (p.cursor.ahead ++ [.finish t.offset])

/-- The step ends in the same way with the finishing token as without it. Where only a comma is
left, each parser blames the token at which it stands. -/
inductive Alike (o : ParseOptions) (t : Token) :
    EStateM.Result ParseError Parser α → EStateM.Result ParseError Parser α → Prop
  | ok {a : α} {q : Parser} (hq : q.EndsIn t) : Alike o t (.ok a q) (.ok a (q.finished t))
  | error {e : ParseError} {q r : Parser} : Alike o t (.error e q) (.error e r)
  | comma {e : Token → ParseError} {q r : Parser} (hk : t.kind = .comma)
      (he : e = .noOperand ∨ e = .tooDeep o.maxDepth) :
      Alike o t (.error (e t) q) (.error (e (.finish t.offset)) r)

structure Tolerates (o : ParseOptions) (t : Token) (x : Parse Tree) : Prop where
  anywhere : ∀ p : Parser, p.EndsIn t → Alike o t (x p) (x (p.finished t))
  behindComma : t.kind = .comma → ∀ p : Parser, p.EndsIn t → p.cursor.ahead = [] →
    Alike o t (x p) (x (p.finished t).onward)

section Cursor

theorem here_of_nil (h : p.EndsIn t) (hn : p.cursor.ahead = []) : p.cursor.here = t := by
  simpa [EndsIn, Cursor.rest, hn] using h

theorem EndsIn.onward (h : p.EndsIn t) : p.onward.EndsIn t := by
  by_cases hn : p.cursor.ahead = []
  · simpa [EndsIn, Cursor.bump_of_nil hn] using h
  · rw [EndsIn, cursor_onward, Cursor.rest_bump hn]
    simpa [EndsIn, Cursor.rest, List.getLast?_cons_of_ne_nil hn] using h

theorem peek_finished (h : p.EndsIn t) : (p.finished t).cursor.peek = p.cursor.peek := by
  cases hn : p.cursor.ahead with
  | nil => simp [finished, facing, Cursor.peek, hn, here_of_nil h hn]
  | cons u us => simp [finished, facing, Cursor.peek, hn]

theorem onward_finished (hn : p.cursor.ahead ≠ []) :
    (p.finished t).onward = p.onward.finished t := by
  obtain ⟨u, us, ha⟩ := List.exists_cons_of_ne_nil hn
  simp [finished, facing, onward, Cursor.bump, ha]

theorem onward_finished_of_nil (hn : p.cursor.ahead = []) :
    (p.finished t).onward.cursor.here = .finish t.offset := by
  simp [finished, facing, onward, Cursor.bump, hn]

theorem following?_finished (h : p.EndsIn t) (min : Precedence) :
    (p.finished t).following? min = p.following? min := by
  rw [following?, following?, peek_finished h]
  rfl

end Cursor

namespace Alike

variable {x : Parse α} {f : α → Parse β}

theorem still (hx : Still x) (h : p.EndsIn t) : Alike o t (x p) (x (p.finished t)) := by
  have hcursor := hx.stays p
  rw [finished, hx.sees p _ (peek_finished h)]
  cases hp : x p with
  | error e q => exact .error
  | ok a q =>
      have hq : q.cursor = p.cursor := by simpa [hp, ending] using hcursor
      rw [endFacing, ← hq]
      exact .ok (by rwa [EndsIn, hq])

theorem bind {y : Parse α} (h : Alike o t (x p) (y q))
    (hf : ∀ a r, x p = .ok a r → r.EndsIn t → Alike o t (f a r) (f a (r.finished t))) :
    Alike o t ((x >>= f) p) ((y >>= f) q) := by
  generalize hp : x p = u at h
  generalize hq : y q = v at h
  cases h with
  | ok hr =>
      rw [bind_of_ok hp, bind_of_ok hq]
      exact hf _ _ hp hr
  | error =>
      rw [bind_of_error hp, bind_of_error hq]
      exact .error
  | comma hk he =>
      rw [bind_of_error hp, bind_of_error hq]
      exact .comma hk he

theorem map {y : Parse α} {f : α → β} (h : Alike o t (x p) (y q)) :
    Alike o t ((x >>= fun a => pure (f a)) p) ((y >>= fun a => pure (f a)) q) :=
  h.bind fun _ _ _ hr => .ok hr

theorem still_bind (hx : Still x) (h : p.EndsIn t)
    (hf : ∀ a r, x p = .ok a r → r.EndsIn t → Alike o t (f a r) (f a (r.finished t))) :
    Alike o t ((x >>= f) p) ((x >>= f) (p.finished t)) :=
  (still hx h).bind hf

theorem current_bind {f : Token → Parse α}
    (hf : Alike o t (f p.cursor.here p) (f p.cursor.here (p.finished t))) :
    Alike o t ((current >>= f) p) ((current >>= f) (p.finished t)) :=
  hf

theorem peek_bind {f : Token → Parse α} (h : p.EndsIn t)
    (hf : Alike o t (f p.cursor.peek p) (f p.cursor.peek (p.finished t))) :
    Alike o t ((peek >>= f) p) ((peek >>= f) (p.finished t)) := by
  rwa [Parser.peek_bind, Parser.peek_bind, peek_finished h]

theorem checkAdjacent_bind {f : Unit → Parse α} (h : p.EndsIn t)
    (hf : p.Admits → Alike o t (f () p) (f () (p.finished t))) :
    Alike o t ((checkAdjacent >>= f) p) ((checkAdjacent >>= f) (p.finished t)) := by
  refine still_bind still_checkAdjacent h fun _ r hr _ => ?_
  obtain ⟨ha, rfl⟩ := checkAdjacent_eq_ok.mp hr
  exact hf ha

theorem bump_bind {f : Unit → Parse α} (hn : p.cursor.ahead ≠ [])
    (hf : Alike o t (f () p.onward) (f () (p.onward.finished t))) :
    Alike o t ((bump >>= f) p) ((bump >>= f) (p.finished t)) := by
  rwa [Parser.bump_bind, Parser.bump_bind, onward_finished hn]

theorem remaining_bind {f : Nat → Parse α}
    (hm : ∀ m p, p.cursor.ahead.length ≤ m → f (m + 1) p = f m p)
    (hf : ∀ m, Alike o t (f m p) (f m (p.finished t))) :
    Alike o t ((remaining >>= f) p) ((remaining >>= f) (p.finished t)) := by
  have hlength : (p.finished t).cursor.ahead.length = p.cursor.ahead.length + 1 := by
    simp [finished, facing]
  rw [Parser.remaining_bind, Parser.remaining_bind, hlength, ← hm _ p le_rfl]
  exact hf _

end Alike

section Rules

variable {x : Parse Tree} {sub : Precedence → Parse Tree} {min : Precedence} {u : Tree}
  {op : Operator} {k : Kind} {n room : Nat}

theorem alike_expect (hk : k ≠ .finish) (h : p.EndsIn t) :
    Alike o t (expect k p) (expect k (p.finished t)) := by
  unfold expect
  rw [peek_finished h]
  split
  · rename_i hp
    have hn : p.cursor.ahead ≠ [] := Cursor.ahead_ne_nil_of_peek (hp ▸ hk)
    change Alike o t (.ok () p.onward) (.ok () (p.finished t).onward)
    rw [onward_finished hn]
    exact .ok h.onward
  · exact .error

theorem alike_group (hx : Tolerates o t x) (h : p.EndsIn t)
    (hk : p.cursor.here.kind = .openParen) :
    Alike o t (group x p) (group x (p.finished t)) := by
  refine .checkAdjacent_bind h fun ha => ?_
  refine .still_bind still_refuseEmptyGroup h fun _ _ hr _ => ?_
  obtain ⟨-, rfl⟩ := refuseEmptyGroup_eq_ok.mp hr
  refine .bump_bind (ahead_ne_nil_of_admits ha (by simp [hk])) ?_
  refine (hx.anywhere _ h.onward).bind fun u _ _ hu => ?_
  exact .still_bind still_countGroup hu fun _ _ _ hr => (alike_expect (by decide) hr).map

theorem alike_unary (hx : Tolerates o t x) (h : p.EndsIn t) (ha : p.Admits)
    (hk : p.cursor.here.kind ∈ [Kind.minus, .bang]) :
    Alike o t (unary op x p) (unary op x (p.finished t)) := by
  refine .current_bind ?_
  refine .bump_bind (ahead_ne_nil_of_admits ha (List.mem_cons_of_mem _ hk)) ?_
  refine .checkAdjacent_bind h.onward fun _ => ?_
  exact (hx.anywhere _ h.onward).map

theorem alike_operand (hsub : ∀ min, Tolerates o t (sub min)) (h : p.EndsIn t) (ha : p.Admits) :
    Alike o t (operand o sub p) (operand o sub (p.finished t)) := by
  refine .current_bind ?_
  cases hk : p.cursor.here.kind <;> dsimp only
  case ident | string | trueWord | falseWord => exact .ok h
  case numeric => exact .still still_number h
  case openParen => exact alike_group (hsub _) h hk
  case bang => exact alike_unary (hsub _) h ha (by simp [hk])
  case minus => exact alike_unary (hsub _) h ha (by simp [hk])
  all_goals exact .error

theorem alike_binary (hsub : ∀ min, Tolerates o t (sub min)) (h : p.EndsIn t)
    (hn : p.cursor.ahead ≠ []) :
    Alike o t (binary op sub u p) (binary op sub u (p.finished t)) := by
  refine .checkAdjacent_bind h fun _ => ?_
  refine .current_bind ?_
  exact .bump_bind hn ((hsub _).anywhere _ h.onward).map

theorem alike_moreArguments (hx : Tolerates o t x) (h : p.EndsIn t) :
    Alike o t (moreArguments x n p) (moreArguments x n (p.finished t)) := by
  induction n generalizing p with
  | zero => exact .ok h
  | succ n ih =>
      refine .peek_bind h ?_
      split
      · rename_i hk
        have hn : p.cursor.ahead ≠ [] := Cursor.ahead_ne_nil_of_peek (by simp [hk])
        refine .bump_bind hn ?_
        by_cases hlast : p.onward.cursor.ahead = []
        · -- The comma is the last token: one parser stays on it, the other goes behind it.
          have hcomma : t.kind = .comma := by
            rw [← here_of_nil h.onward hlast, cursor_onward, Cursor.bump_here hn, hk]
          have hsame : p.onward.onward = p.onward := by
            rw [Parser.onward, Cursor.bump_of_nil hlast]
          rw [Parser.bump_bind, Parser.bump_bind, hsame]
          exact (hx.behindComma hcomma _ h.onward hlast).bind fun _ _ _ hr => (ih hr).map
        · refine .bump_bind hlast ?_
          exact (hx.anywhere _ h.onward.onward).bind fun _ _ _ hr => (ih hr).map
      · exact .ok h

theorem alike_arguments (hc : Consumes x) (hx : Tolerates o t x) (h : p.EndsIn t)
    (hn : p.cursor.ahead ≠ []) : Alike o t (arguments x p) (arguments x (p.finished t)) := by
  refine .peek_bind h ?_
  split
  · exact .bump_bind hn (Alike.still still_checkAdjacent h.onward).map
  · refine .bump_bind hn ((hx.anywhere _ h.onward).bind fun _ _ _ hr => ?_)
    refine .remaining_bind (fun m p hm => bind_congr_left (moreArguments_succ_of_le hc hm))
      fun m => ?_
    refine (alike_moreArguments hx hr).bind fun _ _ _ hr => ?_
    refine (alike_expect (by decide) hr).bind fun _ _ _ hr => ?_
    exact (Alike.still still_checkAdjacent hr).map

theorem alike_call (hc : Consumes x) (hx : Tolerates o t x) (h : p.EndsIn t)
    (hn : p.cursor.ahead ≠ []) : Alike o t (call x u p) (call x u (p.finished t)) := by
  refine .checkAdjacent_bind h fun _ => ?_
  refine .current_bind ?_
  exact (alike_arguments hc hx h hn).map

theorem alike_extend (hc : ∀ min, Consumes (sub min)) (hsub : ∀ min, Tolerates o t (sub min))
    (h : p.EndsIn t) (hn : p.cursor.ahead ≠ []) (c : Continuation) :
    Alike o t (extend sub u c p) (extend sub u c (p.finished t)) := by
  cases c with
  | operator op => exact alike_binary hsub h hn
  | call => exact alike_call (hc _) (hsub _) h hn

theorem alike_chain (hc : ∀ min, Consumes (sub min)) (hsub : ∀ min, Tolerates o t (sub min))
    (h : p.EndsIn t) : Alike o t (chain o sub min n u p) (chain o sub min n u (p.finished t)) := by
  induction n generalizing p u with
  | zero => exact .ok h
  | succ n ih =>
      rw [chain, following_bind, following_bind, following?_finished h]
      cases hf : p.following? min with
      | none => exact .ok h
      | some c =>
          have hn := List.ne_nil_of_length_pos (length_ahead_pos_of_following? hf)
          refine .bump_bind hn (.still_bind still_refuseFinish h.onward fun _ _ hr _ => ?_)
          obtain ⟨hk, rfl⟩ := refuseFinish_eq_ok.mp hr
          have hnext := Cursor.ahead_ne_nil_of_peek hk
          refine (alike_extend hc hsub h.onward hnext c).bind fun v _ _ hr => ?_
          exact .still_bind still_checkHeight hr fun _ _ _ hr => ih hr

theorem alike_level (hc : ∀ min, Consumes (sub min)) (hsub : ∀ min, Tolerates o t (sub min))
    (h : p.EndsIn t) : Alike o t (level o sub min p) (level o sub min (p.finished t)) := by
  refine .checkAdjacent_bind h fun ha => ?_
  refine (alike_operand hsub h ha).bind fun first _ _ hr => ?_
  refine .still_bind still_checkHeight hr fun _ _ _ hr => ?_
  exact .remaining_bind (fun _ _ => chain_succ_of_le hc) fun _ => alike_chain hc hsub hr

def misplaced (o : ParseOptions) (room : Nat) (p : Parser) : ParseError :=
  if room = 0 then .tooDeep o.maxDepth p.cursor.here
  else p.deferred.getD (.noOperand p.cursor.here)

theorem expression_of_misplaced (o : ParseOptions) (room : Nat) (min : Precedence)
    (hk : p.cursor.here.kind = .comma ∨ p.cursor.here.kind = .finish) :
    ∃ q, expression o room min p = .error (misplaced o room p) q := by
  cases room with
  | zero => exact ⟨p.within, rfl⟩
  | succ room =>
      have hmay : p.cursor.here.kind.mayPrecede p.cursor.peek.kind = true := by
        rcases hk with hk | hk <;> simp [hk, Kind.mayPrecede]
      have hoperand : operand o (expression o room) p.within =
          .error (.noOperand p.cursor.here) p.within := by
        rw [operand, current_bind, cursor_within]
        rcases hk with hk | hk <;> simp only [hk] <;> rfl
      refine ⟨p.within, ?_⟩
      rw [expression_succ]
      refine bind_of_error (x := level o (expression o room) min) (p := p.within) ?_
      cases hd : p.within.deferred with
      | some e =>
          have hp : p.deferred = some e := hd
          refine bind_of_error ?_
          simp [checkAdjacent, hd, misplaced, hp]
      | none =>
          have hp : p.deferred = none := hd
          have hcheck : checkAdjacent p.within = .ok () p.within :=
            checkAdjacent_eq_ok.mpr ⟨⟨hd, hmay⟩, rfl⟩
          rw [level, bind_of_ok hcheck]
          simpa [misplaced, hp] using bind_of_error hoperand

theorem behindComma_expression (hk : t.kind = .comma) (h : p.EndsIn t)
    (hn : p.cursor.ahead = []) :
    Alike o t (expression o room min p) (expression o room min (p.finished t).onward) := by
  have hhere := here_of_nil h hn
  have hnext := onward_finished_of_nil (t := t) hn
  have hfinish : (p.finished t).onward.cursor.here.kind = .finish := by
    rw [hnext]
    rfl
  obtain ⟨q, hq⟩ := expression_of_misplaced o room min (.inl (hhere ▸ hk))
  obtain ⟨r, hr⟩ := expression_of_misplaced o room min (.inr hfinish)
  have hdeferred : (p.finished t).onward.deferred = p.deferred := rfl
  rw [hq, hr, misplaced, misplaced, hhere, hnext, hdeferred]
  split
  · exact .comma hk (.inr rfl)
  · cases p.deferred with
    | some e => exact .error
    | none => exact .comma hk (.inl rfl)

theorem tolerates_expression (o : ParseOptions) (t : Token) (room : Nat) (min : Precedence) :
    Tolerates o t (expression o room min) := by
  refine ⟨?_, fun hk p h hn => behindComma_expression hk h hn⟩
  induction room generalizing min with
  | zero => exact fun p h => .error
  | succ room ih =>
      intro p h
      have hsub (min : Precedence) : Tolerates o t (expression o room min) :=
        ⟨ih min, fun hk p h hn => behindComma_expression hk h hn⟩
      rw [expression_succ]
      refine .still_bind still_enter h fun _ r _ hr => ?_
      refine (alike_level (consumes_expression o room) hsub hr).bind fun u s _ hs => ?_
      exact (Alike.still still_leave hs).map

theorem alike_parse (h : p.EndsIn t) : Alike o t (parse o p) (parse o (p.finished t)) := by
  have hx := (tolerates_expression o t (o.maxDepth - p.depth) .lowest).anywhere p h
  exact hx.bind (f := fun u => refuseRest >>= fun _ => pure u) fun u q _ hq =>
    (Alike.still still_refuseRest hq).map

end Rules

end Parser

variable {o : ParseOptions} {ts : List Token} {t : Token}

theorem Parser.Alike.parsed {x y : EStateM.Result ParseError Parser Tree} (h : Alike o t x y) :
    Parsed.ofResult y = .ofResult x ∨
      t.kind = .comma ∧ ∃ e : Token → ParseError, (e = .noOperand ∨ e = .tooDeep o.maxDepth) ∧
        Parsed.ofResult x = { tree := none, error := some (e t) } ∧
        Parsed.ofResult y = { tree := none, error := some (e (.finish t.offset)) } := by
  cases h with
  | ok | error => exact .inl rfl
  | comma hk he => exact .inr ⟨hk, _, he, rfl, rfl⟩

theorem alike_parseTokens (o : ParseOptions) (h : ts.getLast? = some t) :
    ∃ p, parseTokens o ts = .ofResult (Parser.parse o p) ∧
      parseTokens o (ts ++ [.finish t.offset]) = .ofResult (Parser.parse o (p.finished t)) ∧
      p.EndsIn t := by
  cases ts with
  | nil => cases h
  | cons u us => exact ⟨.start u us, parseTokens_cons, parseTokens_cons, h⟩

theorem ParseError.diagnostic_tooDeep_finish (limit : Nat) (t : Token) :
    (ParseError.tooDeep limit (.finish t.offset)).diagnostic =
      (ParseError.tooDeep limit t).diagnostic :=
  rfl

theorem parseTokens_append_finish (o : ParseOptions) (h : ts.getLast? = some t) :
    (parseTokens o (ts ++ [.finish t.offset])).tree = (parseTokens o ts).tree ∧
      ((parseTokens o ts).tree ≠ none ∨ t.kind ≠ .comma →
        parseTokens o (ts ++ [.finish t.offset]) = parseTokens o ts) ∧
      ((parseTokens o (ts ++ [.finish t.offset])).error.map ParseError.diagnostic ≠
          (parseTokens o ts).error.map ParseError.diagnostic →
        t.kind = .comma ∧ (parseTokens o ts).error = some (.noOperand t) ∧
          (parseTokens o (ts ++ [.finish t.offset])).error =
            some (.noOperand (.finish t.offset))) := by
  obtain ⟨p, hbare, hfinished, hp⟩ := alike_parseTokens o h
  rw [hbare, hfinished]
  obtain heq | ⟨hk, e, he, hx, hy⟩ := (Parser.alike_parse (o := o) hp).parsed
  · rw [heq]
    exact ⟨rfl, fun _ => rfl, fun hne => absurd rfl hne⟩
  · rw [hx, hy]
    refine ⟨rfl, fun hother => ?_, fun hne => ?_⟩
    · rcases hother with htree | hother
      · exact absurd rfl htree
      · exact absurd hk hother
    · rcases he with rfl | rfl
      · exact ⟨hk, rfl, rfl⟩
      · exact absurd (congrArg some (ParseError.diagnostic_tooDeep_finish _ t)) hne

/-- The tokens of `f(a,`. -/
def openCall : List Token :=
  [⟨.ident, ['f'], 1, false⟩, ⟨.openParen, ['('], 2, false⟩, ⟨.ident, ['a'], 3, false⟩,
    ⟨.comma, [','], 4, false⟩]

theorem parseTokens_append_finish_openCall :
    (productTokens.dropLast.getLast? = some ⟨.ident, ['c'], 11, false⟩ ∧
        (parseTokens {} productTokens.dropLast).tree = some productTree ∧
        parseTokens {} (productTokens.dropLast ++ [.finish 11]) =
          parseTokens {} productTokens.dropLast) ∧
      openCall.getLast? = some ⟨.comma, [','], 4, false⟩ ∧
        (parseTokens {} openCall).error = some (.noOperand ⟨.comma, [','], 4, false⟩) ∧
        (parseTokens {} (openCall ++ [.finish 4])).error = some (.noOperand (.finish 4)) := by
  have hident : productTokens.dropLast.getLast? = some ⟨.ident, ['c'], 11, false⟩ := by decide
  have htree : (parseTokens {} productTokens.dropLast).tree = some productTree := by
    decide +kernel
  have hcomma : openCall.getLast? = some ⟨.comma, [','], 4, false⟩ := by decide
  obtain ⟨-, hsame, -⟩ := parseTokens_append_finish {} hident
  obtain ⟨-, -, hother⟩ := parseTokens_append_finish {} hcomma
  exact ⟨⟨hident, htree, hsame (.inl (by simp [htree]))⟩, hcomma, (hother (by decide +kernel)).2⟩

end RuleLang
