import RuleLang.Proofs.Lexing.Blame
import RuleLang.Proofs.Parsing.Course
import RuleLang.Proofs.Parsing.Limit
import RuleLang.Proofs.Reporting.Stages

namespace RuleLang

section Lexing

variable {o : LexOptions} {source : Text} {t : Token} {e : LexError}

theorem stop_le_of_mem_lex (h : t ∈ (lex o source).tokens) : t.span.stop ≤ source.length := by
  rcases lex_cases o source with ⟨-, hl⟩ | hscan
  · simp [hl] at h
  · obtain ⟨spans, hspans⟩ := hscan.exists_covers [] rfl
    obtain ⟨a, -, ha⟩ := exists_occupies_of_mem hspans.occupied h
    rw [← ha.eq_span]
    exact ha.inside

theorem inside_of_mem_lex (h : t ∈ (lex o source).tokens) :
    0 ≤ (t.offset : Int) ∧ (t.offset : Int) ≤ source.length :=
  ⟨Int.natCast_nonneg _, Int.ofNat_le.mpr ((Nat.le_add_right _ _).trans (stop_le_of_mem_lex h))⟩

theorem offset_le_of_lex_error (h : (lex o source).error = some e) : e.offset ≤ source.length := by
  rcases lex_cases o source with ⟨-, hl⟩ | hscan
  · rw [hl] at h
    cases h
    exact Nat.zero_le _
  · rcases hscan.wellformed_or_blames [] rfl with ⟨hn, -⟩ | ⟨e', front, u, back, he, hu, hblames⟩
    · simp [hn] at h
    · obtain rfl : e' = e := Option.some.inj (he.symm.trans h)
      have hmem : u ∈ (lex o source).tokens := by simp [hu]
      exact hblames.near.2.trans (stop_le_of_mem_lex hmem)

theorem tokens_ne_nil_of_error_eq_none (h : (lex o source).error = none) :
    (lex o source).tokens ≠ [] := by
  obtain ⟨u, hu, -⟩ := (scans_of_error_eq_none h).exists_last
  intro hnil
  simp [hnil] at hu

end Lexing

namespace Parsed

variable {made : Tree → Prop} {p : Parser} {x : EStateM.Result ParseError Parser Tree} {t : Tree}
  {e : ParseError}

theorem made_of_goes (h : Parser.Goes made p x) (ht : (ofResult x).tree = some t) : made t := by
  cases x with
  | ok u q =>
      obtain rfl := Option.some.inj ht
      exact h.2
  | error e q => cases ht

theorem cited_of_goes (h : Parser.Goes made p x) (hp : p.deferred = none)
    (he : (ofResult x).error = some e) :
    ∃ t ∈ p.cursor.tokens, e.diagnostic.offset = t.offset := by
  cases x with
  | ok u q =>
      rcases h.1.deferred e he with hd | ⟨t, ht, rfl⟩
      · simp [hp] at hd
      · exact ⟨t, ht, rfl⟩
  | error e' q =>
      obtain rfl : e' = e := Option.some.inj he
      rcases h.2.2 with hd | ⟨t, ht, v, hv, ho⟩
      · simp [hp] at hd
      · exact ⟨t, ht, by simp [ParseError.diagnostic, hv, ho]⟩

end Parsed

section Parsing

variable {o : ParseOptions} {tokens : List Token} {t : Tree} {e : ParseError}

theorem exists_token_of_parse_error (hne : tokens ≠ []) (h : (parseTokens o tokens).error = some e) :
    ∃ t ∈ tokens, e.diagnostic.offset = t.offset := by
  obtain ⟨u, us, rfl⟩ := List.exists_cons_of_ne_nil hne
  rw [parseTokens_cons] at h
  have hcited := Parsed.cited_of_goes (Parser.goes_parse o (Parser.start u us)) rfl h
  rwa [Parser.marked, Parser.tokens_start] at hcited

theorem drawnFrom_of_parseTokens (h : (parseTokens o tokens).tree = some t) :
    t.DrawnFrom tokens := by
  cases tokens with
  | nil => cases h
  | cons u us =>
      rw [parseTokens_cons] at h
      have hmade := Parsed.made_of_goes (Parser.goes_parse o (Parser.start u us)) h
      rwa [Parser.tokens_start] at hmade

end Parsing

theorem check_error_points (l : LexOptions) (p : ParseOptions) (s : Scope) (source : Text)
    (e : StageError) (h : (check l p s source).error = some e) :
    ((0 ≤ e.diagnostic.offset ∧ e.diagnostic.offset ≤ source.length) ∨
        (e.diagnostic.offset = -1 ∧ e = TypeFault.notNumeric.staged)) ∧
      (e.stage = .parsing →
        ∃ t ∈ (check l p s source).tokens, e.diagnostic.offset = t.offset) ∧
      (e.stage = .validation → e.diagnostic.offset ≠ -1 →
        ∃ t, (check l p s source).tree = some t ∧ Tree.PlacedAt t.postorder e.diagnostic.offset) := by
  have hreports := check_reports l p s source
  generalize check l p s source = r at h hreports ⊢
  cases hreports with
  | @lexing e' he =>
      cases h
      have hle : e'.staged.diagnostic.offset ≤ source.length :=
        Int.ofNat_le.mpr (offset_le_of_lex_error he)
      exact ⟨.inl ⟨Int.natCast_nonneg _, hle⟩, nofun, nofun⟩
  | @parsing e' hl he =>
      cases h
      obtain ⟨t, ht, ho⟩ := exists_token_of_parse_error (tokens_ne_nil_of_error_eq_none hl) he
      refine ⟨.inl ?_, fun _ => ⟨t, ht, ho⟩, nofun⟩
      change 0 ≤ e'.diagnostic.offset ∧ e'.diagnostic.offset ≤ source.length
      rw [ho]
      exact inside_of_mem_lex ht
  | @validation t hl ht =>
      obtain ⟨fault, hf, rfl⟩ := Option.map_eq_some_iff.mp h
      rcases validate_error_cases hf with rfl | hplaced
      · exact ⟨.inr ⟨rfl, rfl⟩, nofun, fun _ hne => absurd rfl hne⟩
      · obtain ⟨v, hv, ho⟩ := hplaced
        have hmem : v.token ∈ (lex l source).tokens :=
          drawnFrom_of_parseTokens (by rw [ht]) v hv
        refine ⟨.inl ?_, nofun, fun _ _ => ⟨t, rfl, v, hv, ho⟩⟩
        change 0 ≤ fault.diagnostic.offset ∧ fault.diagnostic.offset ≤ source.length
        rw [ho]
        exact inside_of_mem_lex hmem

theorem check_error_points_unknownName :
    (check {} {} {} ['1', '+', 'x']).error = some (TypeFault.unknownName ['x'] 3).staged ∧
      ∃ t, (check {} {} {} ['1', '+', 'x']).tree = some t ∧ Tree.PlacedAt t.postorder 3 := by
  have herror : (check {} {} {} ['1', '+', 'x']).error =
      some (TypeFault.unknownName ['x'] 3).staged := by decide +kernel
  obtain ⟨-, -, hplaced⟩ := check_error_points {} {} {} _ _ herror
  exact ⟨herror, hplaced rfl (by decide)⟩

end RuleLang
