import Mathlib.Data.List.Nodup
import Mathlib.Data.List.TakeWhile
import RuleLang.Catalog.Reader
import RuleLang.Proofs.Catalog.Forms
import RuleLang.Proofs.Json.Recovery

namespace RuleLang

open Json (Document Reading)

def Signature.Loadable (f : Signature) : Prop :=
  ∀ p ∈ f.parameters, p.index < Catalog.Decoder.indexLimit

structure Functions.Loadable (fs : Functions) : Prop where
  distinct : (fs.map Prod.fst).Nodup
  signatures : ∀ f ∈ fs, f.2.Loadable

def Catalog.Loadable (c : Catalog) : Prop :=
  c.functions.Loadable

namespace Catalog

variable {α δ : Type} {a b : α} {d : Document} {ds : List Document} {ms : List (Text × Document)}
  {entries : List Entry} {name other : Text} {names : List Text}

def known (names : List Text) (name : Text) (a : α) : Option α :=
  if name ∈ names then some a else none

theorem known_of_mem (h : name ∈ names) : known names name a = some a :=
  if_pos h

theorem isSome_known_of_not_mem (names : List Text) (h : name ∉ names) :
    (known names name a).isSome = false := by
  rw [known, if_neg h]
  rfl

theorem known_cons_self : known (name :: names) name a = some a :=
  if_pos List.mem_cons_self

theorem known_cons_of_ne (h : name ≠ other) :
    known (other :: names) name a = known names name a := by
  simp [known, h]

theorem getD_known (h : name ∈ names ∨ a = b) : (known names name a).getD b = a := by
  unfold known
  split
  · rfl
  · exact (h.resolve_left ‹_›).symm

namespace Decoder

def Reads (fields : List (Field δ)) (draft : List Text → δ) (e : Entry) : Prop :=
  ∃ f, fields.find? (fun f => f.name = e.name) = some f ∧ ∀ names,
    (e.name ∉ names → f.isSet (draft names) = false) ∧
    ∀ d, e.written d → f.read (draft names) (.ofDocument d) = .ok (draft (e.name :: names))

variable {fields : List (Field δ)} {draft : List Text → δ} {make? : δ → Option α}

theorem namedFields_of_reads (names : List Text) (hreads : ∀ e ∈ entries, Reads fields draft e)
    (hdistinct : (ms.map Prod.fst).Nodup) (hnew : ∀ m ∈ ms, m.1 ∉ names)
    (hwritten : ∀ m ∈ ms, ∃ e ∈ entries, m.1 = e.name ∧ e.written m.2) :
    namedFields fields (Reading.ofMembers ms) (draft names) =
      .ok (draft ((ms.map Prod.fst).reverse ++ names)) := by
  induction ms generalizing names with
  | nil => rfl
  | cons m ms ih =>
      obtain ⟨key, d⟩ := m
      obtain ⟨hkey, hothers⟩ := List.nodup_cons.mp hdistinct
      obtain ⟨e, he, rfl, hd⟩ := hwritten _ List.mem_cons_self
      obtain ⟨f, hf, hread⟩ := hreads e he
      obtain ⟨hset, hread⟩ := hread names
      have hfresh : ∀ m ∈ ms, m.1 ∉ e.name :: names := by
        intro m hm hmem
        rcases List.mem_cons.mp hmem with heq | hmem
        · exact hkey (List.mem_map.mpr ⟨m, hm, heq⟩)
        · exact hnew m (List.mem_cons_of_mem _ hm) hmem
      have hrest := ih (e.name :: names) hothers hfresh fun m hm =>
        hwritten m (List.mem_cons_of_mem _ hm)
      have hunset := hset (hnew _ List.mem_cons_self)
      simp only [Reading.ofMembers, namedFields, hf, hunset, hread d hd]
      have hnames : (((e.name, d) :: ms).map Prod.fst).reverse ++ names =
          (ms.map Prod.fst).reverse ++ e.name :: names := by simp
      rw [hnames]
      exact hrest

theorem record_of_recordOf (draft : List Text → δ) (hreads : ∀ e ∈ entries, Reads fields draft e)
    (hmake : ∀ names, (∀ e ∈ entries, e.name ∈ names ∨ e.omissible) →
      make? (draft names) = some a)
    (h : RecordOf entries d) : record (draft []) fields make? (.ofDocument d) = .ok a := by
  obtain ⟨ms, rfl, hms⟩ := h
  have hfields := namedFields_of_reads [] hreads hms.distinct (by simp) hms.written
  have ha := hmake ((ms.map Prod.fst).reverse ++ []) (by simpa using hms.complete)
  simp only [record, Reading.ofDocument, hfields, bind, Except.bind, ensure, Json.Ending.fault?, ha]

theorem items_of_forall₂ {decode : Decoder α} {form : α → Document → Prop} {xs : List α}
    (hdecode : ∀ a ∈ xs, ∀ d, form a d → decode (.ofDocument d) = .ok a)
    (h : List.Forall₂ form xs ds) : items decode (Reading.ofItems ds) = .ok xs := by
  induction h with
  | nil => rfl
  | cons hd _ ih =>
      obtain ⟨hhead, htail⟩ := List.forall_mem_cons.mp hdecode
      rw [Reading.ofItems, items, hhead _ hd, ih htail]
      rfl

theorem list_of_arrayOf {decode : Decoder α} {form : α → Document → Prop} {xs : List α}
    (hdecode : ∀ a ∈ xs, ∀ d, form a d → decode (.ofDocument d) = .ok a)
    (h : ArrayOf form xs d) : list decode (.ofDocument d) = .ok xs := by
  obtain ⟨ds, rfl, hds⟩ := h
  rw [Reading.ofDocument, list, items_of_forall₂ hdecode hds]
  rfl

theorem dataType_of_eq {t : DataType} (d : Document) (h : d = t.document) :
    dataType (.ofDocument d) = .ok t := by
  rw [h, DataType.document, Reading.ofDocument, dataType, typeName,
    DataType.ofSpelling?_spelling]

theorem digitsValue_toDigits (n : Nat) : Text.digitsValue (Nat.toDigits 10 n) = n :=
  Nat.ofDigitChars_ten_toDigits

theorem index_of_eq {n : Nat} (hn : n < indexLimit) (d : Document) (h : d = Json.natural n) :
    Decoder.index (.ofDocument d) = .ok n := by
  have hdigits : (Nat.toDigits 10 n).all Char.isDigit = true :=
    List.all_eq_true.mpr fun _ => Json.isDigit_of_mem_toDigits
  rw [h, Json.natural, Reading.ofDocument, Decoder.index, digitsValue_toDigits]
  exact if_pos (by simp [hdigits, hn])

theorem text_of_eq {t : Text} (d : Document) (h : d = .string t) :
    text (.ofDocument d) = .ok t := by
  rw [h]
  rfl

theorem flag_of_eq {b : Bool} (d : Document) (h : d = .boolean b) :
    flag (.ofDocument d) = .ok b := by
  rw [h]
  rfl

theorem Reads.of_set {e : Entry} {f : Field δ} {set : δ → α → δ} {decode : Decoder α}
    (hfind : fields.find? (fun f => f.name = e.name) = some f)
    (hread : f.read = fun d r => do return set d (← decode r))
    (hunset : ∀ names, e.name ∉ names → f.isSet (draft names) = false)
    (hdecode : ∀ d, e.written d → decode (.ofDocument d) = .ok a)
    (hdraft : ∀ names, set (draft names) a = draft (e.name :: names)) : Reads fields draft e := by
  refine ⟨f, hfind, fun names => ⟨hunset names, fun d hd => ?_⟩⟩
  rw [hread]
  dsimp only
  rw [hdecode d hd, ← hdraft names]
  rfl

end Decoder

open Decoder

def keywordDraft (k : Keyword) (names : List Text) : KeywordDraft where
  name := known names "name".toList k.name
  type := known names "type".toList k.type
  description := known names "desc".toList k.description

theorem keyword_of_form {k : Keyword} (h : k.Form d) :
    keyword (.ofDocument d) = .ok k := by
  refine record_of_recordOf (keywordDraft k) ?_ ?_ h
  · intro e he
    simp only [Keyword.entries, List.mem_cons, List.not_mem_nil, or_false] at he
    rcases he with rfl | rfl | rfl
    · exact .of_set rfl rfl isSome_known_of_not_mem text_of_eq fun _ => by
        simp (disch := decide) only [keywordDraft, known_cons_self, known_cons_of_ne]
    · exact .of_set rfl rfl isSome_known_of_not_mem dataType_of_eq fun _ => by
        simp (disch := decide) only [keywordDraft, known_cons_self, known_cons_of_ne]
    · exact .of_set rfl rfl isSome_known_of_not_mem text_of_eq fun _ => by
        simp (disch := decide) only [keywordDraft, known_cons_self, known_cons_of_ne]
  · intro names hn
    simp only [Keyword.entries, List.forall_mem_cons, or_false] at hn
    obtain ⟨hname, htype, hdescription, -⟩ := hn
    simp only [keywordDraft, known_of_mem hname, known_of_mem htype, getD_known hdescription]
    rfl

def parameterDraft (p : Parameter) (names : List Text) : ParameterDraft where
  index := known names "index".toList p.index
  type := known names "type".toList p.type
  name := known names "name".toList p.name

theorem parameter_of_form {p : Parameter} (hindex : p.index < indexLimit) (h : p.Form d) :
    parameter (.ofDocument d) = .ok p := by
  refine record_of_recordOf (parameterDraft p) ?_ ?_ h
  · intro e he
    simp only [Parameter.entries, List.mem_cons, List.not_mem_nil, or_false] at he
    rcases he with rfl | rfl | rfl
    · exact .of_set rfl rfl isSome_known_of_not_mem (index_of_eq hindex) fun _ => by
        simp (disch := decide) only [parameterDraft, known_cons_self, known_cons_of_ne]
    · exact .of_set rfl rfl isSome_known_of_not_mem dataType_of_eq fun _ => by
        simp (disch := decide) only [parameterDraft, known_cons_self, known_cons_of_ne]
    · exact .of_set rfl rfl isSome_known_of_not_mem text_of_eq fun _ => by
        simp (disch := decide) only [parameterDraft, known_cons_self, known_cons_of_ne]
  · intro names hn
    simp only [Parameter.entries, List.forall_mem_cons, or_false] at hn
    obtain ⟨hindex, htype, hname, -⟩ := hn
    simp only [parameterDraft, known_of_mem hindex, known_of_mem htype, known_of_mem hname]
    rfl

def signatureDraft (f : Signature) (names : List Text) : SignatureDraft where
  name := known names "name".toList f.name
  description := known names "description".toList f.description
  tag := known names "tag".toList f.tag
  returnType := known names "returnType".toList f.returnType
  parameters := known names "params".toList f.parameters
  variadic := known names "uncertainParam".toList f.variadic

theorem signature_of_form {f : Signature} (hf : f.Loadable) (h : f.Form d) :
    signature (.ofDocument d) = .ok f := by
  have hparameters : ∀ d, ArrayOf Parameter.Form f.parameters d →
      list parameter (.ofDocument d) = .ok f.parameters :=
    fun _ => list_of_arrayOf fun p hp _ => parameter_of_form (hf p hp)
  refine record_of_recordOf (signatureDraft f) ?_ ?_ h
  · intro e he
    simp only [Signature.entries, List.mem_cons, List.not_mem_nil, or_false] at he
    rcases he with rfl | rfl | rfl | rfl | rfl | rfl
    · exact .of_set rfl rfl isSome_known_of_not_mem text_of_eq fun _ => by
        simp (disch := decide) only [signatureDraft, known_cons_self, known_cons_of_ne]
    · exact .of_set rfl rfl isSome_known_of_not_mem text_of_eq fun _ => by
        simp (disch := decide) only [signatureDraft, known_cons_self, known_cons_of_ne]
    · exact .of_set rfl rfl isSome_known_of_not_mem text_of_eq fun _ => by
        simp (disch := decide) only [signatureDraft, known_cons_self, known_cons_of_ne]
    · exact .of_set rfl rfl isSome_known_of_not_mem dataType_of_eq fun _ => by
        simp (disch := decide) only [signatureDraft, known_cons_self, known_cons_of_ne]
    · exact .of_set rfl rfl isSome_known_of_not_mem hparameters fun _ => by
        simp (disch := decide) only [signatureDraft, known_cons_self, known_cons_of_ne]
    · exact .of_set rfl rfl isSome_known_of_not_mem flag_of_eq fun _ => by
        simp (disch := decide) only [signatureDraft, known_cons_self, known_cons_of_ne]
  · intro names hn
    simp only [Signature.entries, List.forall_mem_cons, or_false] at hn
    obtain ⟨hname, hdescription, htag, htype, hparameters, hvariadic, -⟩ := hn
    simp only [signatureDraft, known_of_mem hname, known_of_mem htype, getD_known hdescription,
      getD_known htag, getD_known hparameters, getD_known hvariadic]
    rfl

theorem insert_of_not_mem {fs : Functions} {f : Signature} (h : name ∉ fs.map Prod.fst) :
    fs.insert name f = fs ++ [(name, f)] := by
  induction fs with
  | nil => rfl
  | cons g fs ih =>
      obtain ⟨hne, hrest⟩ := not_or.mp (List.mem_cons.not.mp h)
      rw [Functions.insert, if_neg (Ne.symm hne), ih hrest]
      rfl

theorem functionMembers_of_forall₂ {fs : Functions} (before : Functions)
    (hdistinct : ((before ++ fs).map Prod.fst).Nodup) (hfs : ∀ f ∈ fs, f.2.Loadable)
    (h : List.Forall₂ (fun (f : Text × Signature) m => m.1 = f.1 ∧ f.2.Form m.2) fs ms) :
    functionMembers (Reading.ofMembers ms) before = .ok (before ++ fs) := by
  induction h generalizing before with
  | nil => rw [List.append_nil]; rfl
  | @cons f m fs ms hm _ ih =>
      obtain ⟨key, d⟩ := m
      obtain ⟨rfl, hf⟩ := hm
      obtain ⟨hhead, hrest⟩ := List.forall_mem_cons.mp hfs
      have hnew : f.1 ∉ before.map Prod.fst := by
        rw [List.map_append, List.map_cons, List.nodup_middle] at hdistinct
        exact fun hmem => (List.nodup_cons.mp hdistinct).1 (List.mem_append_left _ hmem)
      have hmembers := ih (before ++ [f]) (by simpa using hdistinct) hrest
      rw [Reading.ofMembers, functionMembers, signature_of_form hhead hf]
      simp only [bind, Except.bind, insert_of_not_mem hnew]
      simpa using hmembers

theorem functionTable_of_form {fs : Functions} (hfs : fs.Loadable) (h : fs.Form d) :
    functionTable (.ofDocument d) = .ok fs := by
  obtain ⟨ms, rfl, hms⟩ := h
  have hmembers := functionMembers_of_forall₂ [] hfs.distinct hfs.signatures hms
  rw [Reading.ofDocument, functionTable, hmembers]
  rfl

def catalogDraft (c : Catalog) (names : List Text) : Draft where
  keywords := known names "keywords".toList c.keywords
  functions := known names "functions".toList c.functions

theorem ofReading_of_recordOf {c : Catalog} (hc : c.Loadable) (h : RecordOf c.entries d) :
    ofReading (.ofDocument d) = .ok c := by
  have hkeywords : ∀ d, ArrayOf Keyword.Form c.keywords d →
      list keyword (.ofDocument d) = .ok c.keywords :=
    fun _ => list_of_arrayOf fun _ _ _ => keyword_of_form
  have hfunctions : ∀ d, c.functions.Form d → functionTable (.ofDocument d) = .ok c.functions :=
    fun _ => functionTable_of_form hc
  refine record_of_recordOf (catalogDraft c) ?_ ?_ h
  · intro e he
    simp only [entries, List.mem_cons, List.not_mem_nil, or_false] at he
    rcases he with rfl | rfl
    · exact .of_set rfl rfl isSome_known_of_not_mem hkeywords fun _ => by
        simp (disch := decide) only [catalogDraft, known_cons_self, known_cons_of_ne]
    · exact .of_set rfl rfl isSome_known_of_not_mem hfunctions fun _ => by
        simp (disch := decide) only [catalogDraft, known_cons_self, known_cons_of_ne]
  · intro names hn
    simp only [entries, List.forall_mem_cons] at hn
    obtain ⟨hkeywords, hfunctions, -⟩ := hn
    simp only [catalogDraft, getD_known hkeywords, getD_known hfunctions]

theorem load_of_recordOf {read : Text → Reading × Option Text} {c : Catalog} {t : Text}
    (hr : Json.ReadsTexts read) (hc : c.Loadable) (h : RecordOf c.entries d)
    (ht : Json.IsText d t) : load read t = .ok c := by
  obtain ⟨w, hw, hread⟩ := hr ht
  have hblank : Json.skipBlanks w = [] := List.dropWhile_eq_nil_iff.mpr hw
  rw [load, hread]
  simp only [ofReading_of_recordOf hc h, bind, Except.bind, Option.map_some, hblank, if_true]
  rfl

end Catalog

end RuleLang
