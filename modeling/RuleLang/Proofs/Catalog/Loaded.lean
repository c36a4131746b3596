import RuleLang.Proofs.Catalog.Decoding

namespace RuleLang.Catalog

open Json (Reading Ending)

namespace Decoder

variable {α β δ : Type} {P : δ → Prop} {Q : α → Prop} {fields : List (Field δ)} {ending : Ending}
  {rs : List Reading} {ms : List (Option Text × Reading)} {r : Reading} {d d' empty : δ} {a : α}

theorem bind_eq_ok {x : Except CatalogFault α} {f : α → Except CatalogFault β} {b : β} :
    x >>= f = .ok b ↔ ∃ a, x = .ok a ∧ f a = .ok b := by
  cases x with
  | error e => exact ⟨nofun, nofun⟩
  | ok a => exact ⟨fun h => ⟨a, rfl, h⟩, fun ⟨_, rfl, h⟩ => h⟩

def Keeps (P : δ → Prop) (f : Field δ) : Prop :=
  ∀ d r d', P d → f.read d r = .ok d' → P d'

theorem Keeps.of_set {f : Field δ} {set : δ → β → δ} {decode : Decoder β}
    (hf : f.read = fun d r => do return set d (← decode r))
    (hset : ∀ d r b, decode r = .ok b → P d → P (set d b)) : Keeps P f := by
  intro d r d' hd h
  rw [hf] at h
  obtain ⟨b, hb, h⟩ := bind_eq_ok.mp h
  cases h
  exact hset d r b hb hd

theorem positions_keeps (hkeeps : ∀ f ∈ fields, Keeps P f) (hd : P d)
    (h : positions ending fields rs d = .ok d') : P d' := by
  induction fields generalizing rs d with
  | nil =>
      cases rs with
      | nil =>
          cases ending <;> cases h
          exact hd
      | cons r rs => cases h
  | cons f fields ih =>
      obtain ⟨hf, hfields⟩ := List.forall_mem_cons.mp hkeeps
      cases rs with
      | nil =>
          obtain ⟨-, -, h⟩ := bind_eq_ok.mp h
          split at h
          · exact ih hfields hd h
          · cases h
      | cons r rs =>
          obtain ⟨d₁, hread, h⟩ := bind_eq_ok.mp h
          exact ih hfields (hf d r d₁ hd hread) h

theorem namedFields_keeps (hkeeps : ∀ f ∈ fields, Keeps P f) (hd : P d)
    (h : namedFields fields ms d = .ok d') : P d' := by
  induction ms generalizing d with
  | nil =>
      cases h
      exact hd
  | cons m ms ih =>
      obtain ⟨_ | key, r⟩ := m
      · cases h
      · rw [namedFields] at h
        split at h
        · rename_i f hfind
          split at h
          · cases h
          · obtain ⟨d₁, hread, h⟩ := bind_eq_ok.mp h
            exact ih (hkeeps f (List.mem_of_find?_eq_some hfind) d r d₁ hd hread) h
        · obtain ⟨-, -, h⟩ := bind_eq_ok.mp h
          exact ih hd h

theorem record_keeps {make? : δ → Option α} (P : δ → Prop) (Q : α → Prop)
    (hkeeps : ∀ f ∈ fields, Keeps P f) (hempty : P empty)
    (hmake : ∀ d a, P d → make? d = some a → Q a)
    (h : record empty fields make? r = .ok a) : Q a := by
  -- Only the two forms of a record get as far as a draft.
  have hdraft : ∃ d, P d ∧ make? d = some a := by
    cases r with
    | array rs ending =>
        obtain ⟨d, hread, h⟩ := bind_eq_ok.mp h
        refine ⟨d, positions_keeps hkeeps hempty hread, ?_⟩
        dsimp only at h
        split at h <;> cases h
        assumption
    | object ms ending =>
        obtain ⟨d, hread, h⟩ := bind_eq_ok.mp h
        obtain ⟨-, -, h⟩ := bind_eq_ok.mp h
        refine ⟨d, namedFields_keeps hkeeps hempty hread, ?_⟩
        dsimp only at h
        split at h <;> cases h
        assumption
    | _ => cases h
  obtain ⟨d, hd, ha⟩ := hdraft
  exact hmake d a hd ha

theorem items_forall {decode : Decoder α} {xs : List α} (hQ : ∀ r a, decode r = .ok a → Q a)
    (h : items decode rs = .ok xs) : ∀ a ∈ xs, Q a := by
  induction rs generalizing xs with
  | nil =>
      cases h
      exact nofun
  | cons r rs ih =>
      obtain ⟨a, ha, h⟩ := bind_eq_ok.mp h
      obtain ⟨as, has, h⟩ := bind_eq_ok.mp h
      cases h
      exact List.forall_mem_cons.mpr ⟨hQ r a ha, ih has⟩

theorem list_forall {decode : Decoder α} {xs : List α} (hQ : ∀ r a, decode r = .ok a → Q a)
    (h : list decode r = .ok xs) : ∀ a ∈ xs, Q a := by
  unfold list at h
  split at h
  · obtain ⟨ys, hys, h⟩ := bind_eq_ok.mp h
    obtain ⟨-, -, h⟩ := bind_eq_ok.mp h
    cases h
    exact items_forall hQ hys
  · cases h

theorem lt_of_index {n : Nat} (h : Decoder.index r = .ok n) : n < indexLimit := by
  unfold Decoder.index at h
  split at h
  · split at h
    · rename_i hn
      cases h
      exact of_decide_eq_true (Bool.and_eq_true_iff.mp hn).2
    · cases h
  · cases h

end Decoder

open Decoder

variable {r : Reading}

theorem index_lt_of_parameter {p : Parameter} (h : parameter r = .ok p) : p.index < indexLimit := by
  refine record_keeps (fun d : ParameterDraft => ∀ n, d.index = some n → n < indexLimit)
    (fun p => p.index < indexLimit) ?_ (by simp) ?_ h
  · intro f hf
    simp only [List.mem_cons, List.not_mem_nil, or_false] at hf
    rcases hf with rfl | rfl | rfl
    · refine .of_set rfl fun d r n hn _ => ?_
      rintro _ ⟨⟩
      exact lt_of_index hn
    · exact .of_set rfl fun _ _ _ _ hd => hd
    · exact .of_set rfl fun _ _ _ _ hd => hd
  · intro d p hd hp
    obtain ⟨n, hn, hp⟩ := Option.bind_eq_some_iff.mp hp
    obtain ⟨t, -, hp⟩ := Option.bind_eq_some_iff.mp hp
    obtain ⟨name, -, hp⟩ := Option.bind_eq_some_iff.mp hp
    cases hp
    exact hd n hn

theorem loadable_of_signature {f : Signature} (h : signature r = .ok f) : f.Loadable := by
  refine record_keeps
    (fun d : SignatureDraft => ∀ p ∈ d.parameters.getD [], p.index < indexLimit)
    Signature.Loadable ?_ (by simp) ?_ h
  · intro f hf
    simp only [List.mem_cons, List.not_mem_nil, or_false] at hf
    rcases hf with rfl | rfl | rfl | rfl | rfl | rfl
    case inr.inr.inr.inr.inl =>
      exact .of_set rfl fun d r ps hps _ => list_forall (fun _ _ => index_lt_of_parameter) hps
    all_goals exact .of_set rfl fun _ _ _ _ hd => hd
  · intro d f hd hf
    obtain ⟨name, -, hf⟩ := Option.bind_eq_some_iff.mp hf
    obtain ⟨t, -, hf⟩ := Option.bind_eq_some_iff.mp hf
    cases hf
    exact hd

theorem names_insert_of_mem {name : Text} {f : Signature} {fs : Functions}
    (h : name ∈ fs.map Prod.fst) : (fs.insert name f).map Prod.fst = fs.map Prod.fst := by
  induction fs with
  | nil => cases h
  | cons g fs ih =>
      by_cases hg : g.1 = name
      · simp [Functions.insert, hg]
      · have hrest := (List.mem_cons.mp h).resolve_left (Ne.symm hg)
        rw [Functions.insert, if_neg hg, List.map_cons, ih hrest]
        rfl

theorem forall_mem_insert {p : Signature → Prop} {name : Text} {f : Signature} {fs : Functions}
    (hf : p f) (h : ∀ g ∈ fs, p g.2) : ∀ g ∈ fs.insert name f, p g.2 := by
  induction fs with
  | nil => simpa [Functions.insert] using hf
  | cons g fs ih =>
      obtain ⟨hg, hfs⟩ := List.forall_mem_cons.mp h
      rw [Functions.insert]
      split
      · exact List.forall_mem_cons.mpr ⟨hf, hfs⟩
      · exact List.forall_mem_cons.mpr ⟨hg, ih hfs⟩

theorem loadable_nil : Functions.Loadable [] :=
  ⟨List.nodup_nil, by simp⟩

theorem loadable_insert {name : Text} {f : Signature} {fs : Functions} (hf : f.Loadable)
    (h : fs.Loadable) : (fs.insert name f).Loadable where
  distinct := by
    by_cases hname : name ∈ fs.map Prod.fst
    · rw [names_insert_of_mem hname]
      exact h.distinct
    · rw [insert_of_not_mem hname, List.map_append]
      exact h.distinct.append (List.nodup_singleton name) (by simpa using hname)
  signatures := forall_mem_insert hf h.signatures

theorem loadable_of_functionMembers {ms : List (Option Text × Reading)} {fs fs' : Functions}
    (hfs : fs.Loadable) (h : functionMembers ms fs = .ok fs') : fs'.Loadable := by
  induction ms generalizing fs with
  | nil =>
      cases h
      exact hfs
  | cons m ms ih =>
      obtain ⟨_ | key, r⟩ := m
      · cases h
      · obtain ⟨f, hf, h⟩ := bind_eq_ok.mp h
        exact ih (loadable_insert (loadable_of_signature hf) hfs) h

theorem loadable_of_functionTable {fs : Functions} (h : functionTable r = .ok fs) :
    fs.Loadable := by
  unfold functionTable at h
  split at h
  · obtain ⟨fs', hmembers, h⟩ := bind_eq_ok.mp h
    obtain ⟨-, -, h⟩ := bind_eq_ok.mp h
    cases h
    exact loadable_of_functionMembers loadable_nil hmembers
  · cases h

theorem loadable_of_ofReading {c : Catalog} (h : ofReading r = .ok c) : c.Loadable := by
  refine record_keeps (fun d : Draft => Functions.Loadable (d.functions.getD [])) Loadable
    ?_ ?_ ?_ h
  · intro f hf
    simp only [List.mem_cons, List.not_mem_nil, or_false] at hf
    rcases hf with rfl | rfl
    · exact .of_set rfl fun _ _ _ _ hd => hd
    · exact .of_set rfl fun _ _ _ hfs _ => loadable_of_functionTable hfs
  · exact loadable_nil
  · intro d c hd hc
    cases hc
    exact hd

theorem loadable_of_load {read : Text → Reading × Option Text} {t : Text} {c : Catalog}
    (h : load read t = .ok c) : c.Loadable := by
  unfold load at h
  generalize read t = x at h
  obtain ⟨c', hc, h⟩ := bind_eq_ok.mp h
  split at h
  · cases h
    exact loadable_of_ofReading hc
  · cases h

end RuleLang.Catalog
