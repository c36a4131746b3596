import RuleLang.Proofs.Catalog.Loaded

namespace RuleLang

open Json (Document Reading Ending)

namespace Functions

variable {fs fs' : Functions} {name : Text} {f : Signature}

theorem mem_of_find? (h : fs.find? name = some f) : (name, f) ∈ fs := by
  induction fs with
  | nil => cases h
  | cons g fs ih =>
      rw [find?] at h
      split at h
      · rename_i heq
        cases h
        exact heq ▸ List.mem_cons_self
      · exact List.mem_cons_of_mem _ (ih h)

theorem find?_of_mem (hfs : (fs.map Prod.fst).Nodup) (h : (name, f) ∈ fs) :
    fs.find? name = some f := by
  induction fs with
  | nil => cases h
  | cons g fs ih =>
      obtain ⟨hnew, hrest⟩ := List.nodup_cons.mp hfs
      rcases List.mem_cons.mp h with rfl | h
      · exact if_pos rfl
      · have hmem : name ∈ fs.map Prod.fst := List.mem_map.mpr ⟨_, h, rfl⟩
        have hne : g.1 ≠ name := fun heq => hnew (heq ▸ hmem)
        rw [find?, if_neg hne]
        exact ih hrest h

theorem find?_of_perm (hfs : (fs.map Prod.fst).Nodup) (h : fs'.Perm fs) (name : Text) :
    fs'.find? name = fs.find? name := by
  have hfs' : (fs'.map Prod.fst).Nodup := (h.map Prod.fst).nodup_iff.mpr hfs
  refine Option.ext fun f => ⟨fun hf => ?_, fun hf => ?_⟩
  · exact find?_of_mem hfs (h.mem_iff.mp (mem_of_find? hf))
  · exact find?_of_mem hfs' (h.mem_iff.mpr (mem_of_find? hf))

end Functions

namespace Catalog

variable {read : Text → Reading × Option Text} {c : Catalog} {d : Document} {t : Text}

theorem load_of_form (hr : Json.ReadsTexts read) (hc : c.Loadable) (hd : c.Form d)
    (ht : Json.IsText d t) :
    ∃ fs : Functions, fs.Perm c.functions ∧ (∀ name, fs.find? name = c.functions.find? name) ∧
      load read t = .ok { c with functions := fs } := by
  obtain ⟨fs, hperm, hrecord⟩ := hd
  have hfs : fs.Loadable :=
    ⟨(hperm.map Prod.fst).nodup_iff.mpr hc.distinct,
      fun f hf => hc.signatures f (hperm.mem_iff.mp hf)⟩
  exact ⟨fs, hperm, Functions.find?_of_perm hc.distinct hperm, load_of_recordOf hr hfs hrecord ht⟩

theorem load_of_document (hr : Json.ReadsTexts read) (hc : c.Loadable)
    (ht : Json.IsText c.document t) : load read t = .ok c :=
  load_of_recordOf hr hc c.recordOf_document ht

theorem ofText_of_written (c : Catalog) :
    (c.Loadable → ∀ d t, c.Form d → Json.IsText d t →
      ∃ fs : Functions, fs.Perm c.functions ∧ (∀ name, fs.find? name = c.functions.find? name) ∧
        ofText t = .ok { c with functions := fs }) ∧
    ∀ s, ofText s = .ok c → c.Loadable ∧ ofText (Json.compact c.document) = .ok c ∧
      ofText (Json.pretty 0 c.document) = .ok c := by
  refine ⟨fun hc _ _ hd ht => load_of_form Json.readsTexts_read hc hd ht, fun s hs => ?_⟩
  have hc := loadable_of_load hs
  have hprintable := c.form_document.printable
  exact ⟨hc, load_of_document Json.readsTexts_read hc hprintable.compact.isText,
    load_of_document Json.readsTexts_read hc (hprintable.pretty 0).isText⟩

def pair : Catalog :=
  { functions :=
      [(['f'], { name := ['f'], returnType := .bytes }),
        (['g'], { name := ['g'], returnType := .null, parameters := [⟨7, .json, ['x']⟩] })] }

def bytesDocument : Document :=
  .object [("returnType".toList, DataType.bytes.document), ("name".toList, .string ['f'])]

def parameterDocument : Document :=
  .object
    [("name".toList, .string ['x']), ("type".toList, DataType.json.document),
      ("index".toList, Json.natural 7)]

def nullDocument : Document :=
  .object
    [("params".toList, .array [parameterDocument]),
      ("returnType".toList, DataType.null.document), ("name".toList, .string ['g'])]

/-- The functions the other way round, the fields in another order, and none with its default. -/
def pairDocument : Document :=
  .object [("functions".toList, .object [(['g'], nullDocument), (['f'], bytesDocument)])]

theorem ofText_of_written_pair :
    pair.Loadable ∧ pair.Form pairDocument ∧
      ∃ fs : Functions, fs.Perm pair.functions ∧ ofText (Json.compact pairDocument) =
        .ok { pair with functions := fs } := by
  have hc : pair.Loadable := ⟨by decide, by simp [pair, Signature.Loadable]; decide⟩
  have hparameter : Parameter.Form ⟨7, .json, ['x']⟩ parameterDocument :=
    ⟨_, rfl, by simp, by simp [Parameter.entries],
      by simp [Parameter.entries]⟩
  have hbytes : Signature.Form { name := ['f'], returnType := .bytes } bytesDocument :=
    ⟨_, rfl, by simp, by simp [Signature.entries],
      by simp [Signature.entries]⟩
  have hparameters : ArrayOf Parameter.Form [⟨7, .json, ['x']⟩] (.array [parameterDocument]) :=
    ⟨_, rfl, .cons hparameter .nil⟩
  have hnull : Signature.Form
      { name := ['g'], returnType := .null, parameters := [⟨7, .json, ['x']⟩] } nullDocument :=
    ⟨_, rfl, by simp,
      by simp [Signature.entries, hparameters],
      by simp [Signature.entries]⟩
  have hfunctions : Functions.Form pair.functions.reverse
      (.object [(['g'], nullDocument), (['f'], bytesDocument)]) :=
    ⟨_, rfl, .cons ⟨rfl, hnull⟩ (.cons ⟨rfl, hbytes⟩ .nil)⟩
  have hform : pair.Form pairDocument :=
    ⟨pair.functions.reverse, List.reverse_perm _, _, rfl, by simp,
      by simp [entries, hfunctions], by simp [entries, pair]⟩
  obtain ⟨fs, hperm, -, htext⟩ :=
    (ofText_of_written pair).1 hc pairDocument _ hform hform.printable.compact.isText
  exact ⟨hc, hform, fs, hperm, htext⟩

end Catalog

end RuleLang
