import Mathlib.Data.List.Forall2
import RuleLang.Catalog.Basic
import RuleLang.Proofs.Json.Texts

namespace RuleLang

open Json (Document)

structure Entry where
  name : Text
  written : Document → Prop
  omissible : Prop

/-- Each member gives a field, no two give the same one, and no field is missed. -/
structure Fills (entries : List Entry) (ms : List (Text × Document)) : Prop where
  distinct : (ms.map Prod.fst).Nodup
  written : ∀ m ∈ ms, ∃ e ∈ entries, m.1 = e.name ∧ e.written m.2
  complete : ∀ e ∈ entries, e.name ∈ ms.map Prod.fst ∨ e.omissible

def RecordOf (entries : List Entry) (d : Document) : Prop :=
  ∃ ms, d = .object ms ∧ Fills entries ms

def ArrayOf {α : Type} (form : α → Document → Prop) (xs : List α) (d : Document) : Prop :=
  ∃ ds, d = .array ds ∧ List.Forall₂ form xs ds

def Keyword.entries (k : Keyword) : List Entry :=
  [⟨"name".toList, (· = .string k.name), False⟩,
    ⟨"type".toList, (· = k.type.document), False⟩,
    ⟨"desc".toList, (· = .string k.description), k.description = []⟩]

def Keyword.Form (k : Keyword) : Document → Prop :=
  RecordOf k.entries

def Parameter.entries (p : Parameter) : List Entry :=
  [⟨"index".toList, (· = Json.natural p.index), False⟩,
    ⟨"type".toList, (· = p.type.document), False⟩,
    ⟨"name".toList, (· = .string p.name), False⟩]

def Parameter.Form (p : Parameter) : Document → Prop :=
  RecordOf p.entries

def Signature.entries (f : Signature) : List Entry :=
  [⟨"name".toList, (· = .string f.name), False⟩,
    ⟨"description".toList, (· = .string f.description), f.description = []⟩,
    ⟨"tag".toList, (· = .string f.tag), f.tag = []⟩,
    ⟨"returnType".toList, (· = f.returnType.document), False⟩,
    ⟨"params".toList, ArrayOf Parameter.Form f.parameters, f.parameters = []⟩,
    ⟨"uncertainParam".toList, (· = .boolean f.variadic), f.variadic = false⟩]

def Signature.Form (f : Signature) : Document → Prop :=
  RecordOf f.entries

def Functions.Form (fs : Functions) (d : Document) : Prop :=
  ∃ ms, d = .object ms ∧
    List.Forall₂ (fun (f : Text × Signature) m => m.1 = f.1 ∧ f.2.Form m.2) fs ms

def Catalog.entries (c : Catalog) : List Entry :=
  [⟨"keywords".toList, ArrayOf Keyword.Form c.keywords, c.keywords = []⟩,
    ⟨"functions".toList, c.functions.Form, c.functions = []⟩]

def Catalog.Form (c : Catalog) (d : Document) : Prop :=
  ∃ fs : Functions, fs.Perm c.functions ∧ RecordOf { c with functions := fs }.entries d

variable {entries : List Entry} {ms : List (Text × Document)} {d : Document}

theorem exists_of_forall₂ {α β : Type} {p : α → β → Prop} {xs : List α} {ys : List β} {y : β}
    (h : List.Forall₂ p xs ys) (hy : y ∈ ys) : ∃ x ∈ xs, p x y := by
  induction h with
  | nil => cases hy
  | cons hp h ih =>
      rcases List.mem_cons.mp hy with rfl | hy
      · exact ⟨_, List.mem_cons_self, hp⟩
      · obtain ⟨x, hx, hp⟩ := ih hy
        exact ⟨x, List.mem_cons_of_mem _ hx, hp⟩

theorem RecordOf.of_forall₂ (hms : (ms.map Prod.fst).Nodup)
    (h : List.Forall₂ (fun e m => m.1 = e.name ∧ e.written m.2) entries ms) :
    RecordOf entries (.object ms) := by
  refine ⟨ms, rfl, hms, fun m hm => exists_of_forall₂ h hm, fun e he => .inl ?_⟩
  obtain ⟨m, hm, hname, -⟩ := exists_of_forall₂ h.flip he
  exact List.mem_map.mpr ⟨m, hm, hname⟩

theorem arrayOf_list {α : Type} {form : α → Document → Prop} {f : α → Document} (xs : List α)
    (h : ∀ a, form a (f a)) : ArrayOf form xs (Json.list f xs) :=
  ⟨xs.map f, rfl, List.forall₂_map_right_iff.mpr (List.forall₂_same.mpr fun a _ => h a)⟩

theorem Keyword.form_document (k : Keyword) : k.Form k.document :=
  .of_forall₂ (by simp) (by simp [entries])

theorem Parameter.form_document (p : Parameter) : p.Form p.document :=
  .of_forall₂ (by simp) (by simp [entries])

theorem Signature.form_document (f : Signature) : f.Form f.document :=
  .of_forall₂ (by simp) (by simp [entries, arrayOf_list, Parameter.form_document])

theorem Functions.form_document (fs : Functions) : fs.Form fs.document :=
  ⟨_, rfl, List.forall₂_map_right_iff.mpr
    (List.forall₂_same.mpr fun f _ => ⟨rfl, f.2.form_document⟩)⟩

theorem Catalog.recordOf_document (c : Catalog) : RecordOf c.entries c.document :=
  .of_forall₂ (by simp)
    (by simp [entries, arrayOf_list, Keyword.form_document, Functions.form_document])

theorem Catalog.form_document (c : Catalog) : c.Form c.document :=
  ⟨c.functions, .refl _, c.recordOf_document⟩

theorem RecordOf.printable (h : RecordOf entries d)
    (hw : ∀ e ∈ entries, ∀ d, e.written d → d.Printable) : d.Printable := by
  obtain ⟨ms, rfl, hms⟩ := h
  refine Document.printable_object fun m hm => ?_
  obtain ⟨e, he, -, hwritten⟩ := hms.written m hm
  exact hw e he m.2 hwritten

theorem ArrayOf.printable {α : Type} {form : α → Document → Prop} {xs : List α}
    (h : ArrayOf form xs d) (hform : ∀ a d, form a d → d.Printable) : d.Printable := by
  obtain ⟨ds, rfl, hds⟩ := h
  refine Document.printable_array fun d hd => ?_
  obtain ⟨a, -, hwritten⟩ := exists_of_forall₂ hds hd
  exact hform a d hwritten

theorem Keyword.Form.printable {k : Keyword} (h : k.Form d) : d.Printable := by
  refine RecordOf.printable h ?_
  simp [entries, DataType.document, Document.printable_string]

theorem Parameter.Form.printable {p : Parameter} (h : p.Form d) : d.Printable := by
  refine RecordOf.printable h ?_
  simp [entries, DataType.document, Document.printable_string, Document.printable_natural]

theorem Signature.Form.printable {f : Signature} (h : f.Form d) : d.Printable := by
  refine RecordOf.printable h ?_
  have hparameters : ∀ d, ArrayOf Parameter.Form f.parameters d → d.Printable :=
    fun d hd => hd.printable fun _ _ => Parameter.Form.printable
  simpa [entries, DataType.document, Document.printable_string, Document.printable_boolean] using
    hparameters

theorem Functions.Form.printable {fs : Functions} (h : fs.Form d) : d.Printable := by
  obtain ⟨ms, rfl, hms⟩ := h
  refine Document.printable_object fun m hm => ?_
  obtain ⟨f, -, -, hf⟩ := exists_of_forall₂ hms hm
  exact hf.printable

theorem Catalog.Form.printable {c : Catalog} (h : c.Form d) : d.Printable := by
  obtain ⟨fs, -, hrecord⟩ := h
  refine hrecord.printable ?_
  have hkeywords : ∀ d, ArrayOf Keyword.Form c.keywords d → d.Printable :=
    fun d hd => hd.printable fun _ _ => Keyword.Form.printable
  simpa [entries] using And.intro hkeywords fun d (hd : fs.Form d) => hd.printable

end RuleLang
