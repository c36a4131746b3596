import Mathlib.Order.Bounds.Basic
import RuleLang.Proofs.Parsing.Acceptance
import RuleLang.Proofs.Parsing.Sizes

namespace RuleLang

def ParseError.Shallow (e : ParseError) : Prop :=
  ∀ m t, e ≠ .tooDeep m t

namespace Parser

def Shallow (p : Parser) : Prop :=
  ∀ e ∈ p.deferred, e.Shallow

def ShallowResult {α : Type} : EStateM.Result ParseError Parser α → Prop
  | .ok _ q => q.Shallow
  | .error e _ => e.Shallow

/-- From `p` both runs are the same and no depth is exceeded, or the first one exceeds the depth
`m`, for which there cannot be enough room. -/
def AgreesAt {α : Type} (m : Nat) (enough : Prop) (x y : Parse α) (p : Parser) : Prop :=
  (x p = y p ∧ ShallowResult (x p)) ∨ (¬ enough ∧ ∃ t q, x p = .error (.tooDeep m t) q)

def AgreesBelow {α : Type} (n m : Nat) (enough : Prop) (x y : Parse α) : Prop :=
  ∀ p : Parser, p.Shallow → p.cursor.ahead.length < n → AgreesAt m enough x y p

def Steady {α : Type} (x : Parse α) : Prop :=
  ∀ {p : Parser}, p.Shallow → ShallowResult (x p)

section Steady

variable {k : Kind} {o : ParseOptions} {t : Token}

theorem steady_pure {α : Type} (a : α) : Steady (pure a : Parse α) :=
  fun hp => hp

theorem steady_enter : Steady enter :=
  fun hp => hp

theorem steady_leave : Steady leave :=
  fun hp => hp

theorem steady_countGroup : Steady (countGroup t) :=
  fun hp => hp

theorem steady_throw {α : Type} {e : ParseError} (he : e.Shallow) : Steady (throw e : Parse α) :=
  fun _ => he

theorem steady_checkAdjacent : Steady checkAdjacent := by
  intro p hp
  unfold checkAdjacent
  split
  · exact hp _ ‹_›
  · split
    · exact hp
    · exact nofun

theorem steady_expect : Steady (expect k) := by
  intro p hp
  unfold expect
  split
  · exact hp
  · exact nofun

theorem steady_refuseEmptyGroup : Steady refuseEmptyGroup := by
  intro p hp
  unfold refuseEmptyGroup
  split
  · exact nofun
  · exact hp

theorem steady_refuseFinish : Steady refuseFinish := by
  intro p hp
  unfold refuseFinish
  split
  · exact nofun
  · exact hp

theorem steady_refuseRest : Steady refuseRest := by
  intro p hp
  unfold refuseRest
  split
  · exact nofun
  · exact hp

theorem steady_number : Steady (number o) := by
  intro p hp
  unfold number
  dsimp only
  split
  · exact hp
  split
  · exact hp
  split
  · rintro e ⟨⟩
    exact nofun
  · exact nofun

end Steady

variable {α β : Type} {m N n room room' : Nat} {E E' : Prop} {p q : Parser} {min : Precedence}
  {o o' : ParseOptions} {t : Tree} {op : Operator}

theorem Shallow.onward (hp : p.Shallow) : p.onward.Shallow :=
  hp

namespace AgreesAt

theorem mono {x y : Parse α} (h : AgreesAt m E' x y p) (hE : E → E') : AgreesAt m E x y p :=
  h.imp_right fun ⟨hn, h⟩ => ⟨fun he => hn (hE he), h⟩

theorem step {x : Parse α} (hx : Steady x) (hp : p.Shallow) : AgreesAt m E x x p :=
  .inl ⟨rfl, hx hp⟩

theorem bind {x y : Parse α} {f g : α → Parse β} (h : AgreesAt m E x y p)
    (hf : ∀ a q, x p = .ok a q → q.Shallow → AgreesAt m E (f a) (g a) q) :
    AgreesAt m E (x >>= f) (y >>= g) p := by
  unfold AgreesAt at h ⊢
  rcases h with ⟨heq, hs⟩ | ⟨hn, t, q, hx⟩
  · rw [← bind_congr_left heq]
    cases hx : x p with
    | ok a q =>
        rw [hx] at hs
        rw [bind_of_ok hx, bind_of_ok hx]
        exact hf a q hx hs
    | error e q =>
        rw [hx] at hs
        rw [bind_of_error hx, bind_of_error hx]
        exact .inl ⟨rfl, hs⟩
  · exact .inr ⟨hn, t, q, bind_of_error hx⟩

theorem step_bind {x : Parse α} {f g : α → Parse β} (hx : Steady x) (hp : p.Shallow)
    (hf : ∀ a q, x p = .ok a q → q.Shallow → AgreesAt m E (f a) (g a) q) :
    AgreesAt m E (x >>= f) (x >>= g) p :=
  bind (step hx hp) hf

theorem bind_pure {x y : Parse α} {f : α → β} (h : AgreesAt m E x y p) :
    AgreesAt m E (x >>= fun a => pure (f a)) (y >>= fun a => pure (f a)) p :=
  bind h fun _ _ _ hp => step (steady_pure _) hp

section Steps

theorem current_bind {f g : Token → Parse α}
    (h : AgreesAt m E (f p.cursor.here) (g p.cursor.here) p) :
    AgreesAt m E (current >>= f) (current >>= g) p :=
  h

theorem peek_bind {f g : Token → Parse α}
    (h : AgreesAt m E (f p.cursor.peek) (g p.cursor.peek) p) :
    AgreesAt m E (peek >>= f) (peek >>= g) p :=
  h

theorem remaining_bind {f g : Nat → Parse α}
    (h : AgreesAt m E (f p.cursor.ahead.length) (g p.cursor.ahead.length) p) :
    AgreesAt m E (remaining >>= f) (remaining >>= g) p :=
  h

theorem following_bind {f g : Option Continuation → Parse α}
    (h : AgreesAt m E (f (p.following? min)) (g (p.following? min)) p) :
    AgreesAt m E (following min >>= f) (following min >>= g) p :=
  h

theorem bump_bind {f g : Unit → Parse α} (h : AgreesAt m E (f ()) (g ()) p.onward) :
    AgreesAt m E (bump >>= f) (bump >>= g) p :=
  h

end Steps

theorem checkAdjacent_bind {f g : Unit → Parse α} (hp : p.Shallow)
    (h : p.Admits → AgreesAt m E (f ()) (g ()) p) :
    AgreesAt m E (checkAdjacent >>= f) (checkAdjacent >>= g) p := by
  refine step_bind steady_checkAdjacent hp fun _ q hq _ => ?_
  obtain ⟨ha, rfl⟩ := checkAdjacent_eq_ok.mp hq
  exact h ha

section Parts

variable {x y : Parse Tree} {sub sub' : Precedence → Parse Tree}

theorem group (hx : AgreesBelow p.cursor.ahead.length m E x y) (hp : p.Shallow)
    (hk : p.cursor.here.kind = .openParen) : AgreesAt m E (group x) (group y) p := by
  refine checkAdjacent_bind hp fun ha => ?_
  have hpos := List.length_pos_of_ne_nil (ahead_ne_nil_of_admits ha (by simp [hk]))
  refine step_bind steady_refuseEmptyGroup hp fun _ _ hq _ => ?_
  obtain ⟨-, rfl⟩ := refuseEmptyGroup_eq_ok.mp hq
  refine bump_bind (bind (hx _ hp.onward ?_) fun _ _ _ hp => ?_)
  · rw [length_ahead_onward]
    omega
  · refine step_bind steady_countGroup hp fun _ _ _ hp => ?_
    exact bind_pure (step steady_expect hp)

theorem unary (hx : AgreesBelow p.cursor.ahead.length m E x y) (hp : p.Shallow) (ha : p.Admits)
    (hk : p.cursor.here.kind ∈ [Kind.minus, .bang]) :
    AgreesAt m E (unary op x) (unary op y) p := by
  have hpos := List.length_pos_of_ne_nil (ahead_ne_nil_of_admits ha (List.mem_cons_of_mem _ hk))
  refine current_bind (bump_bind (checkAdjacent_bind hp.onward fun _ => ?_))
  refine bind_pure (hx _ hp.onward ?_)
  rw [length_ahead_onward]
  omega

theorem operand (hb : o.boundary = o'.boundary)
    (hsub : ∀ min, AgreesBelow p.cursor.ahead.length m E (sub min) (sub' min)) (hp : p.Shallow)
    (ha : p.Admits) : AgreesAt m E (operand o sub) (operand o' sub') p := by
  have hnumber : number o = number o' := by
    unfold number
    rw [hb]
  refine current_bind ?_
  cases hk : p.cursor.here.kind <;> dsimp only
  case ident | string | trueWord | falseWord => exact step (steady_pure _) hp
  case numeric => exact hnumber ▸ step steady_number hp
  case openParen => exact group (hsub _) hp hk
  case bang => exact unary (hsub _) hp ha (by simp [hk])
  case minus => exact unary (hsub _) hp ha (by simp [hk])
  all_goals exact step (steady_throw (e := .noOperand _) nofun) hp

theorem binary (hsub : ∀ min, AgreesBelow N m E (sub min) (sub' min)) (hp : p.Shallow)
    (hN : p.cursor.ahead.length < N) : AgreesAt m E (binary op sub t) (binary op sub' t) p := by
  refine checkAdjacent_bind hp fun _ => current_bind (bump_bind ?_)
  refine bind_pure (hsub _ _ hp.onward ?_)
  rw [length_ahead_onward]
  omega

theorem moreArguments (hc : Consumes x) (hx : AgreesBelow N m E x y) (hp : p.Shallow)
    (hN : p.cursor.ahead.length < N) :
    AgreesAt m E (moreArguments x n) (moreArguments y n) p := by
  induction n generalizing p with
  | zero => exact step (steady_pure _) hp
  | succ n ih =>
      refine peek_bind ?_
      split
      · refine bump_bind (bump_bind (bind (hx _ hp.onward.onward ?_) fun t _ hq hp => ?_))
        · simp only [length_ahead_onward]
          omega
        · have hl := hc hq
          have ht := t.height_pos
          simp only [length_ahead_onward] at hl
          exact bind_pure (ih hp (by omega))
      · exact step (steady_pure _) hp

theorem arguments (hc : Consumes x) (hx : AgreesBelow N m E x y) (hp : p.Shallow)
    (hN : p.cursor.ahead.length < N) : AgreesAt m E (arguments x) (arguments y) p := by
  refine peek_bind ?_
  split
  · exact bump_bind (bind_pure (step steady_checkAdjacent hp.onward))
  · refine bump_bind (bind (hx _ hp.onward ?_) fun first _ hq hp => remaining_bind ?_)
    · rw [length_ahead_onward]
      omega
    · have hl := hc hq
      have hfirst := first.height_pos
      rw [length_ahead_onward] at hl
      refine bind (moreArguments hc hx hp (by omega)) fun _ _ _ hp => ?_
      refine step_bind steady_expect hp fun _ _ _ hp => ?_
      exact bind_pure (step steady_checkAdjacent hp)

theorem call (hc : Consumes x) (hx : AgreesBelow N m E x y) (hp : p.Shallow)
    (hN : p.cursor.ahead.length < N) : AgreesAt m E (call x t) (call y t) p :=
  checkAdjacent_bind hp fun _ => current_bind (bind_pure (arguments hc hx hp hN))

theorem extend (hc : ∀ min, Consumes (sub min))
    (hsub : ∀ min, AgreesBelow N m E (sub min) (sub' min)) (hp : p.Shallow)
    (hN : p.cursor.ahead.length < N) (c : Continuation) :
    AgreesAt m E (extend sub t c) (extend sub' t c) p := by
  cases c with
  | operator op => exact binary hsub hp hN
  | call => exact call (hc _) (hsub _) hp hN

theorem checkHeight (hm : o.maxDepth ≤ o'.maxDepth) (ht : E → t.height ≤ o.maxDepth)
    (hp : p.Shallow) : AgreesAt o.maxDepth E (checkHeight o t) (checkHeight o' t) p := by
  unfold Parser.checkHeight
  split
  · rename_i hlt
    exact .inr ⟨fun he => absurd (ht he) (Nat.not_le.mpr hlt), _, p, rfl⟩
  · rw [if_neg (by omega)]
    exact step (steady_pure _) hp

theorem chain (hc : ∀ min, Consumes (sub min)) (hm : o.maxDepth ≤ o'.maxDepth)
    (hsub : ∀ min, AgreesBelow N o.maxDepth E (sub min) (sub' min)) (hE : E → N < o.maxDepth)
    (hp : p.Shallow) (hN : t.height + p.cursor.ahead.length ≤ N + 1) :
    AgreesAt o.maxDepth E (chain o sub min n t) (chain o' sub' min n t) p := by
  induction n generalizing p t with
  | zero => exact step (steady_pure _) hp
  | succ n ih =>
      refine following_bind ?_
      cases hf : p.following? min with
      | none => exact step (steady_pure _) hp
      | some c =>
          have hpos := length_ahead_pos_of_following? hf
          have hleft := t.height_pos
          refine bump_bind (step_bind steady_refuseFinish hp.onward fun _ _ hq _ => ?_)
          obtain ⟨hn, rfl⟩ := refuseFinish_eq_ok.mp hq
          refine bind (extend hc hsub hp.onward ?_ c) fun v _ hq hp => ?_
          · rw [length_ahead_onward]
            omega
          · -- The height and the tokens ahead together do not grow, so enough room stays enough.
            have hl := consumes_extend hc hpos hn hq
            refine bind (checkHeight hm (fun he => ?_) hp) fun _ _ hq hp => ?_
            · have hlt := hE he
              omega
            · obtain ⟨-, rfl⟩ := checkHeight_eq_ok.mp hq
              exact ih hp (hl.trans hN)

end Parts

theorem expression (hb : o.boundary = o'.boundary) (hm : o.maxDepth ≤ o'.maxDepth)
    (hr : room ≤ room') (hp : p.Shallow) :
    AgreesAt o.maxDepth (p.cursor.ahead.length < room ∧ p.cursor.ahead.length < o.maxDepth)
      (expression o room min) (expression o' room' min) p := by
  induction room generalizing room' min p with
  | zero => exact .inr ⟨fun h => absurd h.1 (Nat.not_lt_zero _), _, _, rfl⟩
  | succ room ih =>
      obtain ⟨room', rfl⟩ : ∃ k, room' = k + 1 := ⟨room' - 1, by omega⟩
      -- The parts have at least one token less to read, and need one level less for it.
      have hsub (min : Precedence) : AgreesBelow p.cursor.ahead.length o.maxDepth
          (p.cursor.ahead.length < room + 1 ∧ p.cursor.ahead.length < o.maxDepth)
          (Parser.expression o room min) (Parser.expression o' room' min) := by
        intro q hq hlt
        refine (ih (by omega) hq).mono fun h => ?_
        omega
      refine step_bind steady_enter hp fun _ _ hq hp => ?_
      obtain rfl := enter_eq_ok.mp hq
      refine checkAdjacent_bind hp fun ha => ?_
      refine bind (operand hb hsub hp ha) fun first _ hq hp => ?_
      have hl := consumes_operand (consumes_expression o room) ha hq
      rw [cursor_within] at hl
      refine bind (checkHeight hm (fun h => ?_) hp) fun _ _ hq hp => ?_
      · omega
      · obtain ⟨-, rfl⟩ := checkHeight_eq_ok.mp hq
        refine remaining_bind (bind (chain (consumes_expression o room) hm hsub And.right hp hl) ?_)
        exact fun _ _ _ hp => bind_pure (step steady_leave hp)

theorem parse (hb : o.boundary = o'.boundary) (hm : o.maxDepth ≤ o'.maxDepth)
    (hp : p.Shallow) (hd : p.depth = 0) :
    AgreesAt o.maxDepth (p.cursor.ahead.length < o.maxDepth) (parse o) (parse o') p := by
  have hparse (o : ParseOptions) : Parser.parse o p =
      (Parser.expression o o.maxDepth .lowest >>= fun t => refuseRest >>= fun _ => pure t) p := by
    change (Parser.expression o (o.maxDepth - p.depth) .lowest >>= _) p = _
    rw [hd]
    rfl
  unfold AgreesAt
  rw [hparse, hparse]
  refine bind ((expression hb hm hm hp).mono fun h => ⟨h, h⟩) fun _ _ _ hp => ?_
  exact bind_pure (step steady_refuseRest hp)

end AgreesAt

end Parser

namespace Parsed

def Shallow (r : Parsed) : Prop :=
  ∀ e ∈ r.error, e.Shallow

def ofResult : EStateM.Result ParseError Parser Tree → Parsed
  | .ok t q => { tree := some t, error := q.deferred }
  | .error e _ => { tree := none, error := some e }

theorem shallow_ofResult {r : EStateM.Result ParseError Parser Tree} (h : Parser.ShallowResult r) :
    (ofResult r).Shallow := by
  cases r with
  | ok t q => exact h
  | error e q =>
      rintro _ ⟨⟩
      exact h

end Parsed

variable {o o' : ParseOptions} {tokens ts : List Token} {t : Tree} {xs : List Tree}

theorem parseTokens_cons {u : Token} {us : List Token} :
    parseTokens o (u :: us) = .ofResult (Parser.parse o (Parser.start u us)) := by
  unfold Parser.start
  simp only [parseTokens, ParseSession.ofTokens, ParseSession.parse]
  cases Parser.parse o _ <;> rfl

theorem parseTokens_agrees (boundary : Char) {m n : Nat} (hm : m ≤ n) (tokens : List Token) :
    (parseTokens ⟨boundary, m⟩ tokens = parseTokens ⟨boundary, n⟩ tokens ∧
        (parseTokens ⟨boundary, m⟩ tokens).Shallow) ∨
      (m < tokens.length ∧ ∃ u,
        parseTokens ⟨boundary, m⟩ tokens = { tree := none, error := some (.tooDeep m u) }) := by
  cases tokens with
  | nil =>
      refine .inl ⟨rfl, ?_⟩
      rintro e ⟨⟩
      exact nofun
  | cons u us =>
      rw [parseTokens_cons, parseTokens_cons]
      have hrun : Parser.AgreesAt m (us.length < m) (Parser.parse ⟨boundary, m⟩)
          (Parser.parse ⟨boundary, n⟩) (Parser.start u us) := .parse rfl hm nofun rfl
      obtain ⟨heq, hs⟩ | ⟨hn, v, q, hx⟩ := hrun
      · exact .inl ⟨congrArg _ heq, Parsed.shallow_ofResult hs⟩
      · exact .inr ⟨Nat.lt_succ_of_le (Nat.not_lt.mp hn), v, congrArg _ hx⟩

-- No list has room for more nesting than it has tokens.
theorem parseTokens_of_length_le (boundary : Char) {m : Nat} (hm : tokens.length ≤ m) :
    parseTokens ⟨boundary, tokens.length⟩ tokens = parseTokens ⟨boundary, m⟩ tokens ∧
      (parseTokens ⟨boundary, tokens.length⟩ tokens).Shallow := by
  obtain h | ⟨hlt, -⟩ := parseTokens_agrees boundary hm tokens
  · exact h
  · exact absurd hlt (Nat.lt_irrefl _)

theorem parseTokens_eq_or_tooDeep (boundary : Char) (m : Nat) (tokens : List Token) :
    parseTokens ⟨boundary, m⟩ tokens = parseTokens ⟨boundary, tokens.length⟩ tokens ∨
      ∃ u, parseTokens ⟨boundary, m⟩ tokens = { tree := none, error := some (.tooDeep m u) } := by
  obtain hm | hm := Nat.le_total tokens.length m
  · exact .inl (parseTokens_of_length_le boundary hm).1.symm
  · exact (parseTokens_agrees boundary hm tokens).imp And.left And.right

theorem parseTokens_of_error_eq_none {boundary : Char} {m : Nat}
    (h : (parseTokens ⟨boundary, m⟩ tokens).error = none) :
    parseTokens ⟨boundary, m⟩ tokens = parseTokens ⟨boundary, tokens.length⟩ tokens := by
  obtain heq | ⟨u, hx⟩ := parseTokens_eq_or_tooDeep boundary m tokens
  · exact heq
  · simp [hx] at h

theorem Leaf.congr {u : Token} {a : Atom} (hb : o.boundary = o'.boundary) (h : Leaf o u a) :
    Leaf o' u a := by
  cases h with
  | identifier h => exact .identifier h
  | string h => exact .string h
  | trueWord h => exact .trueWord h
  | falseWord h => exact .falseWord h
  | delimited h hd => exact .delimited h (hb ▸ hd)
  | number h hd hn => exact .number h (hb ▸ hd) hn

mutual

theorem Spells.congr (hb : o.boundary = o'.boundary) {ts : List Token} {t : Tree} :
    Spells o ts t → Spells o' ts t
  | .leaf h => .leaf (h.congr hb)
  | .group ho hc h => .group ho hc (h.congr hb)
  | .unary ho hk h => .unary ho hk (h.congr hb)
  | .binary ho hk hl hr => .binary ho hk (hl.congr hb) (hr.congr hb)
  | .call hf ho hc h => .call hf ho hc (h.congr hb)

theorem SpellsAll.congr (hb : o.boundary = o'.boundary) {ts : List Token} {xs : List Tree} :
    SpellsAll o ts xs → SpellsAll o' ts xs
  | .none => .none
  | .one h => .one (h.congr hb)
  | .more h hc hs => .more (h.congr hb) hc (hs.congr hb)

end

theorem Grammatical.congr (hb : o.boundary = o'.boundary) (h : Grammatical o tokens t) :
    Grammatical o' tokens t :=
  ⟨h.spells.congr hb, h.ranked, h.adjacent⟩

theorem parseTokens_iff_limit {boundary : Char} {m n : Nat} (hn : tokens.Nodup)
    (hu : Token.Uncurried tokens)
    (h : parseTokens ⟨boundary, n⟩ tokens = { tree := some t, error := none }) :
    parseTokens ⟨boundary, m⟩ tokens = { tree := some t, error := none } ↔
      max t.height t.nesting ≤ m := by
  have hne : tokens ≠ [] := by
    rintro rfl
    cases h
  rw [parseTokens_iff hne hn hu] at h ⊢
  have hg : Grammatical ⟨boundary, m⟩ tokens t := h.1.congr (by rfl)
  rw [Nat.max_le]
  exact ⟨And.right, fun hm => ⟨hg, hm⟩⟩

theorem parseTokens_limit (boundary : Char) (tokens : List Token) :
    ∃ free : Parsed, (∀ e ∈ free.error, ∀ m u, e ≠ .tooDeep m u) ∧
      (∀ m, parseTokens ⟨boundary, m⟩ tokens = free ∨
        ∃ u, parseTokens ⟨boundary, m⟩ tokens = { tree := none, error := some (.tooDeep m u) }) ∧
      (∀ m n, m ≤ n → parseTokens ⟨boundary, m⟩ tokens = free →
        parseTokens ⟨boundary, n⟩ tokens = free) ∧
      (∀ m, tokens.length ≤ m → parseTokens ⟨boundary, m⟩ tokens = free) ∧
      (∀ m t, (parseTokens ⟨boundary, m⟩ tokens).tree = some t → t.height ≤ m) ∧
      (∀ m (s s' : ParseSession) t, s.parse ⟨boundary, m⟩ = (.ok t, s') → t.height ≤ m) ∧
      (tokens.Nodup → Token.Uncurried tokens → ∀ n t,
        parseTokens ⟨boundary, n⟩ tokens = { tree := some t, error := none } →
          IsLeast {m | (parseTokens ⟨boundary, m⟩ tokens).error = none}
            (max t.height t.nesting)) := by
  obtain ⟨-, hshallow⟩ := parseTokens_of_length_le boundary (le_refl tokens.length)
  refine ⟨_, hshallow, fun m => parseTokens_eq_or_tooDeep boundary m tokens, fun m n hmn hm => ?_,
    fun m hm => (parseTokens_of_length_le boundary hm).1.symm, fun m t => height_parseTokens_le,
    fun m s s' t => ParseSession.height_parse_le, fun hn hu n t ht => ⟨?_, fun m hm => ?_⟩⟩
  · obtain ⟨heq, -⟩ | ⟨-, u, hx⟩ := parseTokens_agrees boundary hmn tokens
    · exact heq.symm.trans hm
    · exact absurd rfl (hshallow _ (by rw [← hm, hx]; rfl) m u)
  · exact congrArg Parsed.error ((parseTokens_iff_limit hn hu ht).mpr le_rfl)
  · have hfree : parseTokens ⟨boundary, n⟩ tokens = parseTokens ⟨boundary, tokens.length⟩ tokens :=
      parseTokens_of_error_eq_none (by rw [ht])
    have hm : parseTokens ⟨boundary, m⟩ tokens = parseTokens ⟨boundary, n⟩ tokens :=
      (parseTokens_of_error_eq_none hm).trans hfree.symm
    exact (parseTokens_iff_limit hn hu ht).mp (hm.trans ht)

theorem isLeast_limit_productTokens :
    IsLeast {m | (parseTokens ⟨'$', m⟩ productTokens).error = none} 3 := by
  obtain ⟨free, -, -, -, -, -, -, h⟩ := parseTokens_limit '$' productTokens
  exact h (by decide) (by decide) 128 productTree (by decide +kernel)

/-- The second group is counted around the first operand, whose token is the same. -/
def repeatedTokens : List Token :=
  [⟨.openParen, ['('], 1, false⟩, ⟨.ident, ['a'], 2, false⟩, ⟨.closeParen, [')'], 3, false⟩,
    ⟨.plus, ['+'], 5, false⟩, ⟨.openParen, ['('], 6, false⟩, ⟨.ident, ['a'], 2, false⟩,
    ⟨.closeParen, [')'], 8, false⟩, ⟨.finish, [], 8, false⟩]

def repeatedTree : Tree :=
  .binary ⟨.plus, ['+'], 5, false⟩ 0 .plus
    (.atom ⟨.ident, ['a'], 2, false⟩ 1 (.identifier ['a']))
    (.atom ⟨.ident, ['a'], 2, false⟩ 2 (.identifier ['a']))

theorem not_isLeast_limit_repeatedTokens :
    Token.Uncurried repeatedTokens ∧
      parseTokens ⟨'$', 128⟩ repeatedTokens = { tree := some repeatedTree, error := none } ∧
      ¬ IsLeast {m | (parseTokens ⟨'$', m⟩ repeatedTokens).error = none}
        (max repeatedTree.height repeatedTree.nesting) := by
  refine ⟨by decide, by decide +kernel, fun h => ?_⟩
  have hthree : (parseTokens ⟨'$', 3⟩ repeatedTokens).error = none := by decide +kernel
  exact absurd (h.2 hthree) (by decide)

end RuleLang
