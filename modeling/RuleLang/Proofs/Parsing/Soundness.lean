import RuleLang.Proofs.Parsing.Fits

namespace RuleLang

namespace Parser

structure Ready (p : Parser) : Prop where
  nodup : p.cursor.rest.Nodup
  uncurried : Token.Uncurried p.cursor.rest
  fresh : ∀ u ∈ p.cursor.rest, p.groupsAround u = 0

def ClosesIn (p : Parser) (ts : List Token) (q : Parser) : Prop :=
  ∀ u, u ∉ ts → q.groupsAround u ≤ p.groupsAround u

variable {o : ParseOptions} {room n : Nat} {p q r : Parser} {t u : Tree} {ts us : List Token}
  {sub : Precedence → Parse Tree} {min : Precedence} {xs : List Tree}

theorem ClosesIn.trans (h : p.ClosesIn ts q) (h' : q.ClosesIn us r) : p.ClosesIn (ts ++ us) r := by
  intro u hu
  rw [List.mem_append, not_or] at hu
  exact (h' u hu.2).trans (h u hu.1)

theorem ClosesIn.mono (h : p.ClosesIn ts q) (hs : ts ⊆ us) : p.ClosesIn us q :=
  fun u hu => h u fun hm => hu (hs hm)

namespace Ready

theorem within (h : p.Ready) : p.within.Ready :=
  ⟨h.nodup, h.uncurried, h.fresh⟩

theorem onward (h : p.Ready) (ha : p.cursor.ahead ≠ []) : p.onward.Ready where
  nodup := by
    rw [cursor_onward, Cursor.rest_bump ha]
    exact h.nodup.of_cons
  uncurried := by
    rw [cursor_onward, Cursor.rest_bump ha]
    exact h.uncurried.tail
  fresh u hu := by
    rw [cursor_onward, Cursor.rest_bump ha] at hu
    exact h.fresh u (List.mem_cons_of_mem _ hu)

theorem behind (h : p.Ready) (hr : p.cursor.Reads ts q.cursor) (hc : p.ClosesIn ts q)
    (ha : q.cursor.ahead ≠ []) : q.onward.Ready where
  nodup := by
    rw [cursor_onward, Cursor.rest_bump ha]
    exact h.nodup.sublist hr.ahead_suffix.sublist
  uncurried := by
    rw [cursor_onward, Cursor.rest_bump ha]
    exact h.uncurried.suffix hr.ahead_suffix
  fresh u hu := by
    rw [cursor_onward, Cursor.rest_bump ha] at hu
    have hle := hc u (hr.notMem h.nodup hu)
    have hz := h.fresh u (hr.ahead_suffix.subset hu)
    rw [groupsAround_onward]
    omega

theorem here_notMem (h : p.Ready) (ha : p.cursor.ahead ≠ []) :
    p.cursor.here ∉ p.cursor.bump.rest := by
  rw [Cursor.rest_bump ha]
  exact (List.nodup_cons.mp h.nodup).1

theorem untouched (h : p.Ready) {u : Token} (hu : u ∈ p.cursor.rest) (hc : p.ClosesIn ts q)
    (hn : u ∉ ts) : q.groupsAround u = 0 := by
  have hle := hc u hn
  have hz := h.fresh u hu
  omega

end Ready

structure Makes (o : ParseOptions) (room : Nat) (min : Precedence) (p q : Parser)
    (ts : List Token) (t : Tree) : Prop where
  fits : Fits o room min p.cursor q.cursor ts t
  closes : p.ClosesIn ts q
  groups : q.groupsAround t.token = t.brackets

structure Sound (o : ParseOptions) (room : Nat) (sub : Precedence → Parse Tree) : Prop where
  admits {min : Precedence} {p q : Parser} {t : Tree} (h : sub min p = .ok t q) : p.Admits
  starts {min : Precedence} {p q : Parser} {t : Tree} (h : sub min p = .ok t q) :
    p.cursor.here.kind ∉ [Kind.comma, .closeParen]
  makes {min : Precedence} {p q : Parser} {t : Tree} (hm : min ≤ .unary) (hp : p.Ready)
    (h : sub min p = .ok t q) (hd : q.deferred = none) :
    ∃ ts, Makes o room min p q ts t ∧ q.cursor.peek.kind.precedence ≤ min

theorem group_sound (hsub : Sound o room sub) (hp : p.Ready)
    (hk : p.cursor.here.kind = .openParen) (h : group (sub .lowest) p = .ok t q)
    (hd : q.deferred = none) : ∃ ts, Makes o (room + 1) min p q ts t := by
  obtain ⟨ha, -, u, r, hx, hc, rfl, rfl⟩ := group_eq_ok.mp h
  have hne : p.cursor.ahead ≠ [] := ahead_ne_nil_of_admits ha (by simp [hk])
  obtain ⟨ts, ⟨hf, -, hb⟩, -⟩ := hsub.makes (by decide) (hp.onward hne) hx hd
  have hm : u.token ∈ ts := hf.spells.token_mem
  rw [hb]
  refine ⟨_, .group hne hk ha.2 hf hc, ?_, ?_⟩
  · intro v hv
    simp only [List.mem_cons, List.mem_append, not_or] at hv
    have hvu : v ≠ u.token := fun h => hv.2.1 (h ▸ hm)
    rw [groupsAround_onward, groupsAround_grouped_of_ne hvu]
    exact Nat.zero_le _
  · rw [groupsAround_onward, Tree.token_withBrackets, Tree.brackets_withBrackets,
      groupsAround_grouped_self, hb]

theorem unary_sound {op : Operator} (hsub : Sound o room sub) (hp : p.Ready) (ha : p.Admits)
    (ho : op = .minus ∨ op = .bang) (hk : p.cursor.here.kind = op.kind)
    (h : unary op (sub .unary) p = .ok t q) (hd : q.deferred = none) (hh : t.height ≤ o.maxDepth) :
    ∃ ts, Makes o (room + 1) min p q ts t := by
  obtain ⟨-, r, hx, rfl⟩ := unary_eq_ok.mp h
  have hne : p.cursor.ahead ≠ [] := by
    apply ahead_ne_nil_of_admits ha
    obtain rfl | rfl := ho <;> simp [hk, Operator.kind]
  obtain ⟨ts, ⟨hf, hc, -⟩, hs⟩ := hsub.makes (by decide) (hp.onward hne) hx hd
  have hn : p.cursor.here ∉ ts := fun hm => hp.here_notMem hne (hf.reads.subset hm)
  exact ⟨_, .unary hne ho hk ha.2 hf hs hh, hc.mono (List.subset_cons_self ..),
    hp.untouched List.mem_cons_self hc hn⟩

theorem operand_sound (hsub : Sound o room sub) (hp : p.Ready) (ha : p.Admits)
    (h : operand o sub p = .ok t q) (hd : q.deferred = none) (hh : t.height ≤ o.maxDepth) :
    ∃ ts, Makes o (room + 1) min p q ts t := by
  obtain ⟨a, hl, rfl, rfl⟩ | ⟨hk, hg⟩ | ⟨op, ho, hk, hu⟩ := operand_cases h hd
  · exact ⟨_, .leaf hl ha.2 hh, fun _ _ => le_refl _, hp.fresh _ List.mem_cons_self⟩
  · exact group_sound hsub hp hk hg hd
  · exact unary_sound hsub hp ha ho hk hu hd hh

theorem deferred_of_moreArguments {x : Parse Tree} (hx : ∀ p t q, x p = .ok t q → p.Admits)
    (h : moreArguments x n p = .ok xs q) (hd : q.deferred = none) : p.deferred = none := by
  cases n with
  | zero =>
      obtain ⟨-, rfl⟩ := moreArguments_zero_eq_ok.mp h
      exact hd
  | succ n =>
      rw [moreArguments_succ_eq_ok] at h
      split at h
      · obtain ⟨t, r, ts, ht, -⟩ := h
        exact (hx _ _ _ ht).1
      · obtain ⟨-, rfl⟩ := h
        exact hd

theorem moreArguments_sound (hsub : Sound o room sub) (hp : p.Ready)
    (ht : sub .lowest p = .ok t q) (h : moreArguments (sub .lowest) n q = .ok xs r)
    (hd : r.deferred = none) :
    ∃ ts, FitsAll o room p.cursor r.cursor ts (t :: xs) ∧ p.ClosesIn ts r := by
  induction n generalizing p t q xs with
  | zero =>
      obtain ⟨rfl, rfl⟩ := moreArguments_zero_eq_ok.mp h
      obtain ⟨ts, ⟨hf, hc, -⟩, -⟩ := hsub.makes (by decide) hp ht hd
      exact ⟨ts, .one hf, hc⟩
  | succ n ih =>
      have hq := deferred_of_moreArguments (fun _ _ _ => hsub.admits) h hd
      obtain ⟨ts, ⟨hf, hc, -⟩, -⟩ := hsub.makes (by decide) hp ht hq
      rw [moreArguments_succ_eq_ok] at h
      split at h
      · rename_i hk
        obtain ⟨u, q', us, hu, hus, rfl⟩ := h
        have hne : q.cursor.ahead ≠ [] := Cursor.ahead_ne_nil_of_peek (by simp [hk])
        -- The comma is not the last token: otherwise an expression would start with it.
        have hne' : q.cursor.bump.ahead ≠ [] := by
          intro hn
          apply hsub.starts hu
          rw [cursor_onward, cursor_onward, Cursor.bump_of_nil hn, Cursor.bump_here hne, hk]
          decide
        have hp' := hp.behind hf.reads hc hne
        obtain ⟨vs, hv, hcv⟩ := ih (hp'.onward hne') hu hus
        refine ⟨ts ++ q.cursor.peek :: vs, .more hf hk hne' hv, hc.trans ?_⟩
        exact hcv.mono (List.subset_cons_self ..)
      · obtain ⟨rfl, rfl⟩ := h
        exact ⟨ts, .one hf, hc⟩

theorem arguments_sound (hsub : Sound o room sub) (hp : p.Ready) (ha : p.Admits)
    (hk : p.cursor.here.kind = .openParen) (h : arguments (sub .lowest) p = .ok xs q)
    (hd : q.deferred = none) :
    ∃ ts, Encloses o room p.cursor q.cursor ts xs ∧ p.ClosesIn ts q := by
  have hne : p.cursor.ahead ≠ [] := ahead_ne_nil_of_admits ha (by simp [hk])
  rw [arguments_eq_ok] at h
  split at h
  · rename_i hc
    obtain ⟨ha', rfl, rfl⟩ := h
    exact ⟨[], .none hne hk hc ha'.2, fun _ _ => le_refl _⟩
  · obtain ⟨t, r, us, q', ht, hm, hc, ha', rfl, rfl⟩ := h
    obtain ⟨ts, hf, hcl⟩ := moreArguments_sound hsub (hp.onward hne) ht hm hd
    exact ⟨ts, .some hne hk ha.2 hf hc ha'.2, hcl⟩

theorem Ready.peek_untouched (h : p.Ready) (hr : p.cursor.Reads ts q.cursor)
    (ha : q.cursor.ahead ≠ []) (hc : p.ClosesIn (ts ++ us) r) (hn : q.cursor.peek ∉ us) :
    r.groupsAround q.cursor.peek = 0 := by
  have hm := Cursor.peek_mem ha
  apply h.untouched (hr.ahead_suffix.subset hm) hc
  rw [List.mem_append, not_or]
  exact ⟨hr.notMem h.nodup hm, hn⟩

theorem binary_sound {op : Operator} (hsub : Sound o room sub) (hp : p.Ready)
    (ht : Makes o (room + 1) min p q ts t) (ho : op ≠ .bang)
    (hk : q.cursor.peek.kind = op.kind) (hlt : min < op.precedence)
    (hn : q.cursor.bump.peek.kind ≠ .finish) (h : binary op sub t q.onward = .ok u r)
    (hd : r.deferred = none) (hh : u.height ≤ o.maxDepth) :
    ∃ us, us ≠ [] ∧ Makes o (room + 1) min p r (ts ++ us) u := by
  obtain ⟨hf, hcl, -⟩ := ht
  have hne : q.cursor.ahead ≠ [] := Cursor.ahead_ne_nil_of_peek (hk ▸ op.kind_ne_finish)
  have hne' : q.cursor.bump.ahead ≠ [] := Cursor.ahead_ne_nil_of_peek hn
  have hq : q.onward.Ready := hp.behind hf.reads hcl hne
  have hhere : q.onward.cursor.here = q.cursor.peek := Cursor.bump_here hne
  obtain ⟨ha, v, hv, rfl⟩ := binary_eq_ok.mp h
  have hm := ha.2
  rw [hhere] at hv hm ⊢
  rw [hk] at hv
  obtain ⟨us, ⟨hr, hcr, -⟩, hs⟩ := hsub.makes (Precedence.le_of_lt op.precedence_lt_unary)
    (hq.onward hne') hv hd
  have hnr : q.cursor.peek ∉ us :=
    fun hmem => hq.here_notMem hne' (hr.reads.subset (hhere ▸ hmem))
  refine ⟨q.cursor.peek :: us, List.cons_ne_nil _ _, .binary hf ho hk hlt hne' hm hr hs hh, ?_, ?_⟩
  · exact hcl.trans (hcr.mono (List.subset_cons_self ..))
  · exact hp.peek_untouched hf.reads hne (hcl.trans hcr) hnr

theorem call_sound (hsub : Sound o room sub) (hp : p.Ready)
    (ht : Makes o (room + 1) min p q ts t) (hk : q.cursor.peek.kind = .openParen)
    (h : call (sub .lowest) t q.onward = .ok u r) (hd : r.deferred = none)
    (hh : u.height ≤ o.maxDepth) :
    ∃ us, us ≠ [] ∧ Makes o (room + 1) min p r (ts ++ us) u := by
  obtain ⟨hf, hcl, -⟩ := ht
  have hne : q.cursor.ahead ≠ [] := Cursor.ahead_ne_nil_of_peek (by simp [hk])
  have hq : q.onward.Ready := hp.behind hf.reads hcl hne
  have hhere : q.onward.cursor.here = q.cursor.peek := Cursor.bump_here hne
  obtain ⟨ha, xs, hx, rfl⟩ := call_eq_ok.mp h
  obtain ⟨us, he, hcx⟩ := arguments_sound hsub hq ha (by rw [hhere, hk]) hx hd
  have hnx : q.cursor.peek ∉ us := by
    have hnd := hq.nodup
    rw [he.reads.eq_append, List.cons_append, List.nodup_cons, hhere] at hnd
    exact fun hmem => hnd.1 (by simp [hmem])
  rw [hhere] at hh ⊢
  refine ⟨q.cursor.peek :: (us ++ [r.cursor.here]), List.cons_ne_nil _ _,
    .call hf hp.uncurried he hne hh, ?_, ?_⟩
  · exact hcl.trans (hcx.mono fun v hv => by simp [hv])
  · exact hp.peek_untouched hf.reads hne (hcl.trans hcx) hnx

theorem following?_eq_some {c : Continuation} (h : p.following? min = some c) :
    p.deferred = none ∧ min < p.cursor.peek.kind.precedence ∧
      Continuation.ofKind? p.cursor.peek.kind = some c := by
  unfold following? at h
  split at h
  · rename_i hm
    exact ⟨hm.1, hm.2, h⟩
  · simp at h

theorem ofKind?_eq_some {k : Kind} {c : Continuation} (h : Continuation.ofKind? k = some c) :
    (k = .openParen ∧ c = .call) ∨ ∃ op, op ≠ .bang ∧ k = op.kind ∧ c = .operator op := by
  unfold Continuation.ofKind? at h
  split at h
  · rename_i hk
    exact .inl ⟨hk, (Option.some.inj h).symm⟩
  · obtain ⟨op, ho, rfl⟩ := Option.map_eq_some_iff.mp h
    obtain ⟨hk, hb⟩ := Option.filter_eq_some_iff.mp ho
    exact .inr ⟨op, by simpa using hb, Operator.ofKind?_eq_some_iff.mp hk, rfl⟩

theorem extend_sound {c : Continuation} (hsub : Sound o room sub) (hp : p.Ready)
    (ht : Makes o (room + 1) min p q ts t) (hc : q.following? min = some c)
    (hn : q.onward.cursor.peek.kind ≠ .finish) (h : extend sub t c q.onward = .ok u r)
    (hd : r.deferred = none) (hh : u.height ≤ o.maxDepth) :
    ∃ us, us ≠ [] ∧ Makes o (room + 1) min p r (ts ++ us) u := by
  obtain ⟨-, hlt, hgo⟩ := following?_eq_some hc
  obtain ⟨hk, rfl⟩ | ⟨op, ho, hk, rfl⟩ := ofKind?_eq_some hgo
  · exact call_sound hsub hp ht hk h hd hh
  · rw [hk] at hlt
    exact binary_sound hsub hp ht ho hk hlt hn h hd hh

theorem deferred_of_chain (h : chain o sub min n t p = .ok u q) (hd : q.deferred = none) :
    p.deferred = none := by
  cases n with
  | zero =>
      obtain ⟨-, rfl⟩ := chain_zero_eq_ok.mp h
      exact hd
  | succ n =>
      cases hc : p.following? min with
      | none =>
          obtain ⟨-, rfl⟩ := (chain_succ_of_none hc).mp h
          exact hd
      | some c => exact (following?_eq_some hc).1

theorem precedence_le_of_following? (hd : p.deferred = none) (h : p.following? min = none) :
    p.cursor.peek.kind.precedence ≤ min := by
  apply Precedence.not_lt.mp
  intro hlt
  rw [following?, if_pos ⟨hd, hlt⟩] at h
  have hlow : p.cursor.peek.kind.precedence = .lowest := by
    revert h
    cases p.cursor.peek.kind <;> decide
  rw [hlow] at hlt
  exact absurd hlt (Nat.not_lt_zero _)

theorem peek_precedence_of_nil (h : p.cursor.ahead = []) :
    p.cursor.peek.kind.precedence = .lowest := by
  simp [Cursor.peek, h, Token.finish, Kind.precedence]

theorem chain_sound (hsub : Sound o room sub) (hp : p.Ready)
    (ht : Makes o (room + 1) min p q ts t) (h : chain o sub min n t q = .ok u r)
    (hd : r.deferred = none) :
    ∃ us, Makes o (room + 1) min p r us u ∧
      (q.cursor.ahead.length ≤ n → r.cursor.peek.kind.precedence ≤ min) := by
  induction n generalizing q t ts with
  | zero =>
      obtain ⟨rfl, rfl⟩ := chain_zero_eq_ok.mp h
      refine ⟨ts, ht, fun hn => ?_⟩
      rw [peek_precedence_of_nil (List.length_eq_zero_iff.mp (Nat.le_zero.mp hn))]
      exact Precedence.lowest_le min
  | succ n ih =>
      cases hc : q.following? min with
      | none =>
          obtain ⟨rfl, rfl⟩ := (chain_succ_of_none hc).mp h
          exact ⟨ts, ht, fun _ => precedence_le_of_following? hd hc⟩
      | some c =>
          obtain ⟨hne, v, q', hv, hh, hrest⟩ := (chain_succ_of_some hc).mp h
          have hd' := deferred_of_chain hrest hd
          obtain ⟨us, hus, hv'⟩ := extend_sound hsub hp ht hc hne hv hd' hh
          obtain ⟨vs, hvs, hstop⟩ := ih hv' hrest
          refine ⟨vs, hvs, fun hn => hstop ?_⟩
          have hl := ht.fits.reads.length_le
          have hl' := hv'.fits.reads.length_le
          have hpos := List.length_pos_of_ne_nil hus
          rw [List.length_append] at hl'
          omega

theorem run_sound {first : Tree} (hsub : Sound o room sub) (hp : p.Ready) (ha : p.Admits)
    (hx : operand o sub p = .ok first q) (hh : first.height ≤ o.maxDepth)
    (h : chain o sub min n first q = .ok t r) (hd : r.deferred = none) :
    ∃ ts, Makes o (room + 1) min p r ts t ∧
      (q.cursor.ahead.length ≤ n → r.cursor.peek.kind.precedence ≤ min) := by
  obtain ⟨ts, hf⟩ := operand_sound hsub hp ha hx (deferred_of_chain h hd) hh
  exact chain_sound hsub hp hf h hd

theorem expression_sound (o : ParseOptions) (room : Nat) : Sound o room (expression o room) := by
  induction room with
  | zero =>
      exact ⟨fun h => absurd h expression_zero_ne_ok, fun h => absurd h expression_zero_ne_ok,
        fun _ _ h => absurd h expression_zero_ne_ok⟩
  | succ room ih =>
      refine ⟨fun h => (expression_succ_eq_ok.mp h).1, fun h hk => ?_, fun hm hp h hd => ?_⟩
      · obtain ⟨-, u, q, r, hx, -⟩ := expression_succ_eq_ok.mp h
        rw [operand, current_bind, cursor_within] at hx
        simp only [List.mem_cons, List.not_mem_nil, or_false] at hk
        obtain hk | hk := hk <;> exact throw_ne_ok (hk ▸ hx)
      · obtain ⟨ha, u, q, r, hx, hh, hc, rfl⟩ := expression_succ_eq_ok.mp h
        obtain ⟨ts, ⟨hf, hcl, hb⟩, hstop⟩ := run_sound ih hp.within ha hx hh hc hd
        exact ⟨ts, ⟨hf, hcl, hb⟩, hstop (le_refl _)⟩

end Parser

end RuleLang
