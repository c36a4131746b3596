import RuleLang.CommandLine.Program
import RuleLang.Proofs.Catalog.RoundTrip
import RuleLang.Proofs.Pattern.Matching
import RuleLang.Proofs.Reporting.Arguments
import RuleLang.Proofs.Reporting.Documents
import RuleLang.Proofs.Reporting.Stages

namespace RuleLang

open Json (Document)

def Json.Document.member? (name : String) : Document → Option Document
  | .object members => members.lookup name.toList
  | _ => none

theorem Diagnostic.document_ne_null (d : Diagnostic) : d.document ≠ .null :=
  nofun

theorem StageError.document_ne_null (e : StageError) : e.document ≠ .null :=
  nofun

theorem Json.option_eq_null_iff {α : Type} {f : α → Document} (hf : ∀ a, f a ≠ .null)
    {x : Option α} : Json.option f x = .null ↔ x = none := by
  cases x with
  | none => exact iff_of_true rfl rfl
  | some a => exact iff_of_false (hf a) nofun

theorem Json.IsText.append {d : Document} {t w : Text} (h : IsText d t) (hw : Blanks w) :
    IsText d (t ++ w) := by
  obtain ⟨v, u, v', hv, hd, hv', rfl⟩ := h
  refine ⟨v, u, v' ++ w, hv, hd, fun c hc => ?_, by simp⟩
  rcases List.mem_append.mp hc with hc | hc
  · exact hv' c hc
  · exact hw c hc

namespace CommandLine

structure Environment.Lawful (e : Environment) : Prop where
  asks : ∀ r : Request, r.Sayable → e.ask r.words = .request r
  usual : e.compile NameRule.usualPattern = some NameRule.usual.accepts
  reads : Json.ReadsTexts e.read
  /-- A document that has a text is written as one of its texts. -/
  writes : ∀ {d : Document} {t : Text}, Json.Writes d t → Json.IsText d (e.write d)

theorem Environment.lawful_standard (help : Text) (file : Text → Option Text) :
    (standard help file).Lawful where
  asks _ hr := ask_words help hr
  usual := Pattern.compile?_usualPattern
  reads := Json.readsTexts_read
  writes h := (h.printable.pretty 0).isText

variable {e : Environment} {i : Input} {r : References} {k : Catalog}

theorem Environment.Lawful.lexOptions_of_no_pattern (he : e.Lawful) (hp : i.pattern = none) :
    i.lexOptions? e.compile =
      some { allowHan := i.allowHan, allowEmpty := i.allowEmpty, boundary := i.boundary } := by
  simp [Input.lexOptions?, NameRule.compiled?, hp, he.usual]

theorem Environment.Lawful.exists_lexOptions (he : e.Lawful)
    (h : ∀ p ∈ i.pattern, ∃ accepts, e.compile p = some accepts) :
    ∃ l, i.lexOptions? e.compile = some l := by
  cases hp : i.pattern with
  | none => exact ⟨_, he.lexOptions_of_no_pattern hp⟩
  | some p =>
      obtain ⟨accepts, haccepts⟩ := h p hp
      simp [Input.lexOptions?, NameRule.compiled?, hp, haccepts]

theorem Environment.Lawful.catalog_of_written (he : e.Lawful) {path t : Text}
    (hpath : r.catalogPath = some path) (hfile : e.file path = some t) (hk : k.Loadable)
    (ht : Json.IsText k.document t) : e.catalog? r = some k := by
  simp [Environment.catalog?, hpath, hfile, Catalog.load_of_document he.reads hk ht]

namespace Result

def error : Result → Document
  | .lexed _ e | .parsed _ e => Json.option Diagnostic.document e
  | .checked report => Json.option StageError.document report.error

theorem member?_error (x : Result) : x.document.member? "error" = some x.error := by
  cases x <;> rfl

end Result

/-- The exit code tells whether the error printed is null. -/
structure Outcome.Shows (o : Outcome) (x : Result) : Prop where
  output : Json.IsText x.document o.output
  reported : x.document.member? "error" = some x.error
  passes : x.error = .null → o.exitCode = 0
  fails : x.error ≠ .null → o.exitCode = 1

section Outcomes

variable {l : LexOptions} {p : ParseOptions} {s : Scope} {source : Text} {x : Result}

theorem Environment.Lawful.shows_outcome (he : e.Lawful)
    (hx : x.failed = true ↔ x.error ≠ .null) : (e.outcome x).Shows x where
  output := by
    have hblank : Json.Blanks ['\n'] := by
      intro c hc
      rw [List.mem_singleton.mp hc]
      rfl
    exact (he.writes x.printable_document.compact).append hblank
  reported := x.member?_error
  passes h := if_neg fun hf => hx.mp hf h
  fails h := if_pos (hx.mpr h)

theorem isSome_iff_printed {error : Option Diagnostic} :
    error.isSome = true ↔ Json.option Diagnostic.document error ≠ .null := by
  rw [ne_eq, Json.option_eq_null_iff Diagnostic.document_ne_null, Option.isSome_iff_ne_none]

theorem Result.failed_ofCheck :
    (ofCheck l p s source).failed = true ↔ (ofCheck l p s source).error ≠ .null := by
  have hvalid := (check_reports l p s source).valid_iff_error
  rw [ofCheck, Result.error, ne_eq, Json.option_eq_null_iff StageError.document_ne_null, ← hvalid]
  simp [Result.failed]

theorem Environment.Lawful.shows_lex {args : List Text} (he : e.Lawful)
    (hargs : e.ask args = .request (.lex i)) (hl : i.lexOptions? e.compile = some l) :
    (e.run args).Shows (.ofLexing l i.expression) := by
  have hrun : e.run args = e.outcome (.ofLexing l i.expression) := by
    simp [run, hargs, result?, hl]
  rw [hrun]
  exact he.shows_outcome isSome_iff_printed

theorem Environment.Lawful.shows_parse {args : List Text} (he : e.Lawful)
    (hargs : e.ask args = .request (.parse i)) (hl : i.lexOptions? e.compile = some l) :
    (e.run args).Shows (.ofParsing l i.parseOptions i.expression) := by
  have hrun : e.run args = e.outcome (.ofParsing l i.parseOptions i.expression) := by
    simp [run, hargs, result?, hl]
  rw [hrun]
  exact he.shows_outcome isSome_iff_printed

theorem Environment.Lawful.shows_check {args : List Text} (he : e.Lawful)
    (hargs : e.ask args = .request (.check i r)) (hl : i.lexOptions? e.compile = some l)
    (hk : e.catalog? r = some k) :
    (e.run args).Shows (.ofCheck l i.parseOptions (r.scope k) i.expression) := by
  have hrun : e.run args = e.outcome (.ofCheck l i.parseOptions (r.scope k) i.expression) := by
    simp [run, hargs, result?, hl, hk]
  rw [hrun]
  exact he.shows_outcome Result.failed_ofCheck

end Outcomes

end CommandLine

end RuleLang
