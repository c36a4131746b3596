import RuleLang.Proofs.Parsing.Soundness

namespace RuleLang

namespace Parser

variable {o : ParseOptions} {room n : Nat} {p q r : Parser} {t u : Tree} {ts us : List Token}
  {sub : Precedence → Parse Tree} {min : Precedence} {xs : List Tree} {c d e : Cursor}

def Complete (o : ParseOptions) (room : Nat) (sub : Precedence → Parse Tree) : Prop :=
  ∀ {min : Precedence} {p : Parser} {d : Cursor} {ts : List Token} {t : Tree}, min ≤ .unary →
    p.Ready → p.deferred = none → Fits o room min p.cursor d ts t →
      d.peek.kind.precedence ≤ min → Kind.mayPrecede .closeParen d.peek.kind = true →
        ∃ q, sub min p = .ok t q ∧ q.cursor = d ∧ q.deferred = none

theorem group_complete (hsub : Sound o room sub) (hcom : Complete o room sub) (hp : p.Ready)
    (hd : p.deferred = none)
    (hm : p.cursor.here.kind.mayPrecede p.cursor.peek.kind = true) (hne : p.cursor.ahead ≠ [])
    (hf : Fits o room .lowest p.cursor.bump d ts t) (hc : d.peek.kind = .closeParen) :
    ∃ q, group (sub .lowest) p = .ok (t.withBrackets (t.brackets + 1)) q ∧ q.cursor = d.bump ∧
      q.deferred = none := by
  obtain ⟨q, hx, rfl, hqd⟩ := hcom (by decide) (hp.onward hne) hd hf (by rw [hc]; decide)
    (by rw [hc]; rfl)
  have hnc : p.cursor.peek.kind ≠ .closeParen := by
    intro hk
    apply hsub.starts hx
    rw [cursor_onward, Cursor.bump_here hne, hk]
    decide
  obtain ⟨-, ⟨-, -, hb⟩, -⟩ := hsub.makes (by decide) (hp.onward hne) hx hqd
  exact ⟨_, group_eq_ok.mpr ⟨⟨hd, hm⟩, hnc, t, q, hx, hc, rfl, by rw [hb]⟩, rfl, hqd⟩

theorem unary_complete {op : Operator} (hsub : Sound o room sub) (hcom : Complete o room sub)
    (hp : p.Ready) (hd : p.deferred = none) (hne : p.cursor.ahead ≠ [])
    (hf : Fits o room .unary p.cursor.bump d ts t) (hs : d.peek.kind.precedence ≤ .unary)
    (hn : Kind.mayPrecede .closeParen d.peek.kind = true) :
    ∃ q, unary op (sub .unary) p = .ok (.unary p.cursor.here 0 op t) q ∧ q.cursor = d ∧
      q.deferred = none := by
  obtain ⟨q, hx, hq, hqd⟩ := hcom (by decide) (hp.onward hne) hd hf hs hn
  exact ⟨q, unary_eq_ok.mpr ⟨hsub.admits hx, t, hx, rfl⟩, hq, hqd⟩

theorem moreArguments_of_ne_comma {x : Parse Tree} (h : p.cursor.peek.kind ≠ .comma) :
    moreArguments x n p = .ok [] p := by
  cases n with
  | zero => exact moreArguments_zero_eq_ok.mpr ⟨rfl, rfl⟩
  | succ n =>
      rw [moreArguments_succ_eq_ok, if_neg h]
      exact ⟨rfl, rfl⟩

theorem moreArguments_complete (hsub : Sound o room sub) (hcom : Complete o room sub)
    (hp : p.Ready) (hd : p.deferred = none) (hc : d.peek.kind = .closeParen)
    (hs : SpellsAll o ts (t :: xs)) (h : FitsAll o room p.cursor d ts (t :: xs)) :
    ∃ q r, sub .lowest p = .ok t q ∧ q.cursor.ahead.length ≤ p.cursor.ahead.length ∧
      r.cursor = d ∧ r.deferred = none ∧
        ∀ n, q.cursor.ahead.length ≤ n → moreArguments (sub .lowest) n q = .ok xs r := by
  induction hs using SpellsAll.argument_induction generalizing p with
  | one ht =>
      obtain ⟨q, hx, rfl, hqd⟩ := hcom (by decide) hp hd (h.of_one hc ht) (by rw [hc]; decide)
        (by rw [hc]; rfl)
      have hl := h.reads.length_le
      have hpos := List.length_pos_of_ne_nil h.reads.ne_nil
      exact ⟨q, q, hx, by omega, rfl, hqd, fun n _ => moreArguments_of_ne_comma (by simp [hc])⟩
  | more ht hk hs ih =>
      obtain ⟨e, hf, hke, hne', hrest⟩ := h.of_more (by rw [hc]; rfl) hk ht hs
      have hne : e.ahead ≠ [] := Cursor.ahead_ne_nil_of_peek (by simp [hke])
      obtain ⟨q, hx, rfl, hqd⟩ := hcom (by decide) hp hd hf (by rw [hke]; decide)
        (by rw [hke]; rfl)
      obtain ⟨us, ⟨hf', hcl, -⟩, -⟩ := hsub.makes (by decide) hp hx hqd
      have hq := (hp.behind hf'.reads hcl hne).onward hne'
      obtain ⟨q', r, hx', hl', hrc, hrd, hmore⟩ := ih hq hqd hrest
      have hl := hf.reads.length_le
      have hpos := List.length_pos_of_ne_nil hf.reads.ne_nil
      have hb := Cursor.length_bump hne
      have hb' := Cursor.length_bump hne'
      rw [cursor_onward, cursor_onward] at hl'
      refine ⟨q, r, hx, by omega, hrc, hrd, fun n hn => ?_⟩
      obtain ⟨m, rfl⟩ : ∃ m, n = m + 1 := ⟨n - 1, by omega⟩
      rw [moreArguments_succ_eq_ok, if_pos hke]
      exact ⟨_, q', _, hx', hmore m (by omega), rfl⟩

theorem arguments_complete (hsub : Sound o room sub) (hcom : Complete o room sub) (hp : p.Ready)
    (hd : p.deferred = none) (h : Encloses o room p.cursor d ts xs) :
    ∃ q, arguments (sub .lowest) p = .ok xs q ∧ q.cursor = d ∧ q.deferred = none := by
  have hlast := h.last
  cases xs with
  | nil =>
      obtain rfl : ts = [] := by
        cases h.spells
        rfl
      obtain ⟨hne, hk, rfl⟩ := h.of_none
      refine ⟨p.onward, ?_, rfl, hd⟩
      rw [arguments_eq_ok, if_pos hk]
      exact ⟨⟨hd, hlast⟩, rfl, rfl⟩
  | cons t xs =>
      obtain ⟨hne, e, hf, hk, rfl⟩ := h.of_some h.spells.ne_nil
      obtain ⟨q, r, hx, -, rfl, hrd, hmore⟩ :=
        moreArguments_complete hsub hcom (hp.onward hne) hd hk h.spells hf
      have hnc : p.cursor.peek.kind ≠ .closeParen := by
        intro hk
        apply hsub.starts hx
        rw [cursor_onward, Cursor.bump_here hne, hk]
        decide
      refine ⟨r.onward, ?_, rfl, hrd⟩
      rw [arguments_eq_ok, if_neg hnc]
      exact ⟨t, q, xs, r, hx, hmore _ (le_refl _), hk, ⟨hrd, hlast⟩, rfl, rfl⟩

theorem binary_complete {op : Operator} {v : Tree} (hcom : Complete o room sub)
    (hq : q.onward.Ready) (hd : q.deferred = none) (hk : q.cursor.peek.kind = op.kind)
    (hm : q.cursor.peek.kind.mayPrecede q.cursor.bump.peek.kind = true)
    (hne : q.cursor.bump.ahead ≠ []) (hf : Fits o room op.precedence q.cursor.bump.bump d ts v)
    (hs : d.peek.kind.precedence ≤ op.precedence)
    (hn : Kind.mayPrecede .closeParen d.peek.kind = true) :
    ∃ r, binary op sub t q.onward = .ok (.binary q.cursor.peek 0 op t v) r ∧ r.cursor = d ∧
      r.deferred = none := by
  have hhere : q.onward.cursor.here = q.cursor.peek :=
    Cursor.bump_here (Cursor.ahead_ne_nil_of_peek (hk ▸ op.kind_ne_finish))
  obtain ⟨r, hx, hr⟩ := hcom (Precedence.le_of_lt op.precedence_lt_unary) (hq.onward hne) hd hf hs hn
  refine ⟨r, binary_eq_ok.mpr ?_, hr⟩
  rw [hhere, hk]
  exact ⟨⟨hd, by rw [hhere]; exact hm⟩, v, hx, rfl⟩

theorem call_complete (hsub : Sound o room sub) (hcom : Complete o room sub) (hq : q.onward.Ready)
    (hd : q.deferred = none) (hne : q.cursor.ahead ≠ [])
    (h : Encloses o room q.cursor.bump d ts xs) :
    ∃ r, call (sub .lowest) t q.onward =
        .ok (.call q.cursor.peek 0 (.atom t.token 0 (.function (calleeName t))) xs) r ∧
      r.cursor = d ∧ r.deferred = none := by
  obtain ⟨r, hx, hr⟩ := arguments_complete hsub hcom hq hd h
  refine ⟨r, call_eq_ok.mpr ⟨⟨hd, h.first⟩, xs, hx, ?_⟩, hr⟩
  rw [cursor_onward, Cursor.bump_here hne]

theorem following?_operator {op : Operator} (hd : p.deferred = none)
    (hk : p.cursor.peek.kind = op.kind) (ho : op ≠ .bang) (hlt : min < op.precedence) :
    p.following? min = some (.operator op) := by
  have hgo : Continuation.ofKind? op.kind = some (.operator op) := by
    cases op <;> first | rfl | exact absurd rfl ho
  rw [following?, hk, if_pos ⟨hd, hlt⟩, hgo]

theorem following?_call (hd : p.deferred = none) (hk : p.cursor.peek.kind = .openParen)
    (hm : min ≤ .unary) : p.following? min = some .call := by
  have hlt : min < Kind.precedence .openParen := Nat.lt_succ_of_le hm
  rw [following?, hk, if_pos ⟨hd, hlt⟩]
  rfl

theorem exists_chain (hsub : Sound o room sub) (hcom : Complete o room sub) (hm : min ≤ .unary)
    (hp : p.Ready) (hd : p.deferred = none) (h : Spells o ts t)
    (hf : Fits o (room + 1) min p.cursor d ts t)
    (hn : Kind.mayPrecede .closeParen d.peek.kind = true) :
    ∃ first q r k, operand o sub p = .ok first q ∧ first.height ≤ o.maxDepth ∧
      r.cursor = d ∧ r.deferred = none ∧ k + d.ahead.length ≤ q.cursor.ahead.length ∧
        ∀ {n u r'}, chain o sub min n t r = .ok u r' →
          chain o sub min (n + k) first q = .ok u r' := by
  induction h using Spells.operand_induction generalizing d with
  | leaf h =>
      obtain ⟨rfl, rfl⟩ := hf.reads.of_singleton
      exact ⟨_, p, p, 0, operand_of_leaf h, hf.height, rfl, hd, by omega, id⟩
  | group ho hc h ih =>
      have hfirst := hf.first hn
      have hh := hf.height
      obtain ⟨rfl, -, -⟩ := hf.reads.of_cons (by simp)
      obtain ⟨hne, e, hin, hce, rfl⟩ := hf.of_group hn h hc
      obtain ⟨q, hq, hqc, hqd⟩ := group_complete hsub hcom hp hd hfirst hne hin hce
      exact ⟨_, q, q, 0, (operand_of_openParen ho).trans hq, hh, hqc, hqd, by rw [hqc]; omega, id⟩
  | unary ho hk h ih =>
      have hh := hf.height
      obtain ⟨rfl, hne, hin, hs⟩ := hf.of_unary hn h
      obtain ⟨q, hq, hqc, hqd⟩ := unary_complete hsub hcom hp hd hne hin hs hn
      exact ⟨_, q, q, 0, (operand_of_unary ho hk).trans hq, hh, hqc, hqd, by rw [hqc]; omega, id⟩
  | @binary v op ls rs l w ho hk hl hr ih ihr =>
      have hh := hf.height
      have hlt : min < op.precedence := hf.tighter op.precedence rfl
      have hlen := hf.reads.length_le
      obtain ⟨e, hfl, rfl, hne', hop, hfr, hs⟩ := hf.of_binary hn hk hl hr
      have hne : e.ahead ≠ [] := Cursor.ahead_ne_nil_of_peek (hk ▸ op.kind_ne_finish)
      have hfin : e.bump.peek.kind ≠ .finish := by
        intro hfin
        rw [hfin, hk] at hop
        cases op <;> simp [Operator.kind, Kind.mayPrecede] at hop
      obtain ⟨first, q, r, k, hx, hfh, rfl, hrd, hlen', hchain⟩ :=
        ih hfl (by rw [hk]; cases op <;> rfl)
      -- The run over the left operand is sound, which leaves the parser ready for the right one.
      have hrun : chain o sub min (0 + k) first q = .ok _ r :=
        hchain (chain_zero_eq_ok.mpr ⟨rfl, rfl⟩)
      obtain ⟨us, ⟨hfu, hcl, -⟩, -⟩ := run_sound hsub hp ⟨hd, hf.first hn⟩ hx hfh hrun hrd
      obtain ⟨r', hb, rfl, hrd'⟩ := binary_complete hcom (hp.behind hfu.reads hcl hne) hrd hk hop
        hne' hfr hs hn
      have hlen'' := hfl.reads.length_le
      rw [List.length_append, List.length_cons] at hlen
      refine ⟨first, q, r', k + 1, hx, hfh, rfl, hrd', by omega, fun {n u r''} h => ?_⟩
      rw [Nat.add_left_comm, Nat.add_comm k]
      refine hchain ((chain_succ_of_some (following?_operator hrd hk ho hlt)).mpr ?_)
      exact ⟨hfin, _, r', hb, hh, h⟩
  | call hcal ho hc h =>
      have hh := hf.height
      have hlen := hf.reads.length_le
      obtain ⟨rfl, hne, rfl, he⟩ := hf.of_call hn ho hc h
      obtain ⟨a, ha⟩ := exists_leaf_of_callee o hcal
      have hfin : p.cursor.bump.peek.kind ≠ .finish := by
        intro hfin
        have hm := he.first
        rw [hfin, he.opening] at hm
        simp [Kind.mayPrecede] at hm
      obtain ⟨r, hx, rfl, hrd⟩ :=
        call_complete (t := .atom p.cursor.here 0 a) hsub hcom (hp.onward hne) hd hne he
      rw [Tree.token, ha.calleeName_eq] at hx
      simp only [List.length_cons] at hlen
      refine ⟨_, p, r, 1, operand_of_leaf ha, ?_, rfl, hrd, by omega, fun {n u r'} h => ?_⟩
      · simp only [Tree.height] at hh ⊢
        omega
      · refine (chain_succ_of_some (following?_call hd ho hm)).mpr ?_
        exact ⟨hfin, _, r, hx, hh, h⟩

theorem following?_of_precedence_le (h : p.cursor.peek.kind.precedence ≤ min) :
    p.following? min = none :=
  if_neg fun hc => Precedence.not_lt.mpr h hc.2

theorem chain_of_precedence_le (h : p.cursor.peek.kind.precedence ≤ min) :
    chain o sub min n t p = .ok t p := by
  cases n with
  | zero => exact chain_zero_eq_ok.mpr ⟨rfl, rfl⟩
  | succ n => exact (chain_succ_of_none (following?_of_precedence_le h)).mpr ⟨rfl, rfl⟩

theorem expression_complete (o : ParseOptions) (room : Nat) :
    Complete o room (expression o room) := by
  induction room with
  | zero =>
      intro min p d ts t hm hp hd hf hs hn
      have hpos : 0 < t.nesting := t.nesting_pos
      have hle := hf.nesting
      omega
  | succ room ih =>
      intro min p d ts t hm hp hd hf hs hn
      obtain ⟨first, q, r, k, hx, hh, rfl, hrd, hlen, hchain⟩ :=
        exists_chain (expression_sound o room) ih hm hp.within hd hf.spells hf hn
      have hstop : chain o (expression o room) min (q.cursor.ahead.length - k) t r = .ok t r :=
        chain_of_precedence_le hs
      have hrun := hchain hstop
      rw [Nat.sub_add_cancel (by omega)] at hrun
      refine ⟨r.out, expression_succ_eq_ok.mpr ?_, rfl, hrd⟩
      exact ⟨⟨hd, hf.first hn⟩, first, q, r, hx, hh, hrun, rfl⟩

end Parser

end RuleLang
