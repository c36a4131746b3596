import RuleLang.Proofs.Lexing.Cover
import RuleLang.Proofs.Parsing.Acceptance
import RuleLang.Proofs.Typing.Depth

namespace RuleLang

def Kind.punctuation : List Kind :=
  [.openParen, .closeParen, .comma]

namespace Tree

def Named (tokens : List Token) : Tree → Prop
  | .atom t _ (.function name) => t ∈ tokens ∧ t.kind ∈ Kind.callees ∧ name = t.literal
  | _ => True

variable {tokens more : List Token} {t : Tree} {n : Nat}

theorem named_withBrackets : (t.withBrackets n).Named tokens ↔ t.Named tokens := by
  cases t with
  | atom _ _ a => cases a <;> rfl
  | _ => rfl

theorem Named.mono (h : t.Named tokens) (hs : tokens ⊆ more) : t.Named more := by
  cases t with
  | atom _ _ a =>
      cases a with
      | function name => exact ⟨hs h.1, h.2⟩
      | _ => trivial
  | _ => trivial

theorem exists_postorder (t : Tree) (n : Nat) :
    ∃ parts, t.postorder = parts ++ [t] ∧
      (t.withBrackets n).postorder = parts ++ [t.withBrackets n] := by
  cases t with
  | atom => exact ⟨[], rfl, rfl⟩
  | unary => exact ⟨_, rfl, rfl⟩
  | binary => exact ⟨_, (List.append_assoc ..).symm, (List.append_assoc ..).symm⟩
  | call => exact ⟨_, (List.append_assoc ..).symm, (List.append_assoc ..).symm⟩

end Tree

structure Accounts (tokens : List Token) (nodes : List Tree) : Prop where
  present : ∀ u ∈ tokens, u.kind ∉ Kind.punctuation → u ∈ nodes.map Tree.token
  named : ∀ v ∈ nodes, v.Named tokens

namespace Accounts

variable {ts us : List Token} {vs ws : List Tree} {u : Token} {v : Tree}

theorem nil : Accounts [] [] :=
  ⟨List.forall_mem_nil _, List.forall_mem_nil _⟩

theorem mark (h : u.kind ∈ Kind.punctuation) : Accounts [u] [] where
  present w hw hk := by
    obtain rfl := List.mem_singleton.mp hw
    exact absurd h hk
  named := List.forall_mem_nil _

theorem node (ht : v.token = u) (h : v.Named [u]) : Accounts [u] [v] where
  present w hw _ := by simpa [ht] using hw
  named := by simpa using h

theorem append (h : Accounts ts vs) (h' : Accounts us ws) : Accounts (ts ++ us) (vs ++ ws) where
  present u hu hk := by
    rw [List.map_append, List.mem_append]
    exact (List.mem_append.mp hu).imp (h.present u · hk) (h'.present u · hk)
  named v hv := by
    rcases List.mem_append.mp hv with hv | hv
    · exact (h.named v hv).mono (List.subset_append_left ..)
    · exact (h'.named v hv).mono (List.subset_append_right ..)

theorem perm (h : Accounts ts vs) (hp : vs.Perm ws) : Accounts ts ws where
  present u hu hk := (hp.map Tree.token).mem_iff.mp (h.present u hu hk)
  named v hv := h.named v (hp.mem_iff.mpr hv)

theorem withBrackets (h : Accounts ts v.postorder) (n : Nat) :
    Accounts ts (v.withBrackets n).postorder := by
  obtain ⟨parts, hv, hn⟩ := v.exists_postorder n
  rw [hv] at h
  rw [hn]
  refine ⟨fun u hu hk => ?_, fun w hw => ?_⟩
  · simpa using h.present u hu hk
  · rcases List.mem_append.mp hw with hw | hw
    · exact h.named w (List.mem_append_left _ hw)
    · obtain rfl := List.mem_singleton.mp hw
      exact Tree.named_withBrackets.mpr (h.named v (by simp))

end Accounts

variable {o : ParseOptions}

theorem Leaf.named {u : Token} {a : Atom} {n : Nat} {ts : List Token} (h : Leaf o u a) :
    (Tree.atom u n a).Named ts := by
  cases h <;> trivial

mutual

theorem Spells.accounts {ts : List Token} {t : Tree} : Spells o ts t → Accounts ts t.postorder
  | .leaf h => .node rfl h.named
  | .group ho hc h => by
      have hopening := Accounts.mark (by rw [ho]; decide)
      have hclosing := Accounts.mark (by rw [hc]; decide)
      simpa using hopening.append ((h.accounts.withBrackets _).append hclosing)
  | @Spells.unary _ t op _ r ho hk h => by
      have hroot : Accounts [t] [.unary t 0 op r] := .node rfl trivial
      exact (hroot.append h.accounts).perm List.perm_append_comm
  | @Spells.binary _ t op _ _ l r ho hk hl hr => by
      have hroot : Accounts [t] [.binary t 0 op l r] := .node rfl trivial
      exact (hl.accounts.append (hroot.append hr.accounts)).perm
        (List.perm_append_comm.append_left _)
  | @Spells.call _ callee opening closing _ xs hf ho hc h => by
      have hcallee : Accounts [callee] [.atom callee 0 (.function callee.literal)] :=
        .node rfl ⟨List.mem_singleton_self _, hf, rfl⟩
      have hroot : Accounts [opening]
          [.call opening 0 (.atom callee 0 (.function callee.literal)) xs] := .node rfl trivial
      have hclosing := Accounts.mark (by rw [hc]; decide)
      have harguments := hroot.append (h.accounts.append hclosing)
      rw [List.append_nil] at harguments
      exact hcallee.append (harguments.perm List.perm_append_comm)

theorem SpellsAll.accounts {ts : List Token} {xs : List Tree} :
    SpellsAll o ts xs → Accounts ts (Tree.listPostorder xs)
  | .none => .nil
  | .one h => by simpa [Tree.listPostorder] using h.accounts
  | .more h hc hs => by
      have hcomma := Accounts.mark (by rw [hc]; decide)
      exact h.accounts.append (hcomma.append hs.accounts)

end

theorem Token.mem_body {ts : List Token} {u : Token}
    (hf : ts.Pairwise fun t _ => t.kind ≠ .finish) (hu : u ∈ ts) (hk : u.kind ≠ .finish) :
    u ∈ Token.body ts := by
  induction ts with
  | nil => cases hu
  | cons t ts ih =>
      obtain ⟨hfirst, hf⟩ := List.pairwise_cons.mp hf
      obtain rfl | hu := List.mem_cons.mp hu
      · simp [Token.body, hk]
      · have hm := ih hf hu
        rw [Token.body] at hm ⊢
        rw [List.takeWhile_cons_of_pos (by simpa using hfirst u hu)]
        exact List.mem_cons_of_mem _ hm

theorem typable_of_valid {s : Scope} {t : Tree} (h : (validate s t).valid = true) :
    ∀ v ∈ t.postorder, Typable s v := by
  obtain ⟨r, hv, hr⟩ := Infer.value_ends s t 0
  rw [validate_of_value hv] at h
  have hh : t.height ≤ s.maxDepth := by
    by_contra hlt
    obtain ⟨e, rfl⟩ := hr (by omega)
    cases h
  rcases typable_or_blames (s := s) t with hall | ⟨e, he⟩
  · exact hall
  · rw [Infer.value_eq_infer s t 0 (by omega), infer_of_blames t he] at hv
    cases r with
    | ok v => simp [Infer.settle] at hv
    | error e => cases h

theorem lex_parse_accounts (l : LexOptions) (p : ParseOptions) (source : Text) (t : Tree)
    (hl : (lex l source).error = none)
    (ht : parseTokens p (lex l source).tokens = { tree := some t, error := none })
    (hu : Token.Uncurried (lex l source).tokens) :
    (∀ u ∈ (lex l source).tokens, u.kind ∉ .finish :: Kind.punctuation →
      ∃ v ∈ t.postorder, v.token = u) ∧
    (∀ u n name, .atom u n (.function name) ∈ t.postorder →
      u ∈ (lex l source).tokens ∧ u.kind ∈ Kind.callees ∧ name = u.literal) ∧
    ∀ s, (validate s t).valid = true → ∀ v ∈ t.postorder, Typable s v := by
  have hne : (lex l source).tokens ≠ [] := by
    intro hn
    rw [hn] at ht
    cases ht
  have hnodup : (lex l source).tokens.Nodup := (lex_pairwise l source).imp And.right
  have hfinish : (lex l source).tokens.Pairwise fun t _ => t.kind ≠ .finish := by
    obtain ⟨-, hx⟩ | hs := lex_cases l source
    · simp [hx] at hl
    · exact hs.finish_last
  obtain ⟨hpresent, hnamed⟩ := ((parseTokens_iff hne hnodup hu).mp ht).1.spells.accounts
  refine ⟨fun u hu hk => ?_, fun u n name hv => ?_, fun s => typable_of_valid⟩
  · rw [List.mem_cons, not_or] at hk
    exact List.mem_map.mp (hpresent u (Token.mem_body hfinish hu hk.1) hk.2)
  · obtain ⟨hu, hk, hn⟩ := hnamed _ hv
    exact ⟨(List.takeWhile_sublist _).subset hu, hk, hn⟩

theorem lex_parse_accounts_callAndOne :
    (lex {} ['f', '(', 'x', ')', ' ', '+', ' ', '1']).error = none ∧
      parseTokens {} (lex {} ['f', '(', 'x', ')', ' ', '+', ' ', '1']).tokens =
        { tree := some callAndOne, error := none } ∧
      Token.Uncurried (lex {} ['f', '(', 'x', ')', ' ', '+', ' ', '1']).tokens ∧
      ∀ v ∈ callAndOne.postorder, Typable lengthScope v := by
  have hl : (lex {} ['f', '(', 'x', ')', ' ', '+', ' ', '1']).error = none := by decide +kernel
  have ht : parseTokens {} (lex {} ['f', '(', 'x', ')', ' ', '+', ' ', '1']).tokens =
      { tree := some callAndOne, error := none } := by decide +kernel
  have hu : Token.Uncurried (lex {} ['f', '(', 'x', ')', ' ', '+', ' ', '1']).tokens := by
    decide +kernel
  have hall := (lex_parse_accounts {} {} _ callAndOne hl ht hu).2.2 lengthScope (by decide +kernel)
  exact ⟨hl, ht, hu, hall⟩

/-- The tree of `f(1)(2)`. -/
def curriedTree : Tree :=
  .call ⟨.openParen, ['('], 5, false⟩ 0 (.atom ⟨.openParen, ['('], 2, false⟩ 0 (.function ['(']))
    [.atom ⟨.numeric, ['2'], 6, false⟩ 0 (.number (some ⟨0x4000000000000000⟩))]

/-- The name and the first argument are in no node, and the function goes by a parenthesis. -/
theorem curriedTree_loses_callee :
    (lex {} ['f', '(', '1', ')', '(', '2', ')']).error = none ∧
      parseTokens {} (lex {} ['f', '(', '1', ')', '(', '2', ')']).tokens =
        { tree := some curriedTree, error := none } ∧
      (∃ u ∈ (lex {} ['f', '(', '1', ')', '(', '2', ')']).tokens,
        u.kind = .ident ∧ ∀ v ∈ curriedTree.postorder, v.token ≠ u) ∧
      (∃ u ∈ (lex {} ['f', '(', '1', ')', '(', '2', ')']).tokens,
        u.kind = .numeric ∧ ∀ v ∈ curriedTree.postorder, v.token ≠ u) ∧
      ∃ u n name, .atom u n (.function name) ∈ curriedTree.postorder ∧ u.kind ∉ Kind.callees := by
  refine ⟨by decide +kernel, by decide +kernel, ?_, ?_, ?_⟩
  · exact ⟨⟨.ident, ['f'], 1, false⟩, by decide +kernel, rfl, by decide⟩
  · exact ⟨⟨.numeric, ['1'], 3, false⟩, by decide +kernel, rfl, by decide⟩
  · exact ⟨_, _, _, List.mem_cons_self, by decide⟩

end RuleLang
