import RuleLang.Text.Basic

namespace RuleLang.Text

variable {s t u : String} {byte start stop : Nat}

theorem exists_place_iff :
    (∃ p, place s byte = .ok p ∧ p.Splits t u) ↔ s = t ++ u ∧ t.utf8ByteSize = byte := by
  constructor
  · rintro ⟨p, hp, hsplits⟩
    rw [place] at hp
    split at hp
    · cases hp
      exact ⟨hsplits.eq_append, congrArg String.Pos.Raw.byteIdx hsplits.offset_eq_rawEndPos.symm⟩
    · cases hp
  · rintro ⟨rfl, rfl⟩
    have hvalid : String.Pos.Raw.IsValid (t ++ u) ⟨t.utf8ByteSize⟩ :=
      String.Pos.Raw.isValid_iff_exists_append.mpr ⟨t, u, rfl, rfl⟩
    exact ⟨⟨_, hvalid⟩, dif_pos hvalid, rfl, rfl⟩

theorem cut_eq_ok_iff {cut : s.Pos → String} :
    (do return cut (← place s byte)) = Except.ok u ↔ ∃ p, place s byte = .ok p ∧ cut p = u := by
  cases place s byte <;> simp [bind, Except.bind, pure, Except.pure]

theorem sliceFrom_eq_ok_iff :
    sliceFrom s byte = .ok u ↔ ∃ t, s = t ++ u ∧ t.utf8ByteSize = byte := by
  rw [sliceFrom, cut_eq_ok_iff]
  simp only [String.copy_sliceFrom_eq_iff_exists_splits, ← exists_and_left, ← exists_place_iff]
  exact exists_comm

theorem sliceTo_eq_ok_iff :
    sliceTo s byte = .ok t ↔ ∃ u, s = t ++ u ∧ t.utf8ByteSize = byte := by
  rw [sliceTo, cut_eq_ok_iff]
  simp only [String.copy_sliceTo_eq_iff_exists_splits, ← exists_and_left, ← exists_place_iff]
  exact exists_comm

example : (sliceFrom "7温" 1).toOption = some "温" ∧ (sliceFrom "7温" 2).toOption = none := by
  decide +kernel

theorem utf8ByteSize_of_single {front : Text} (h : ∀ c ∈ front, c.utf8Size = 1) :
    (String.ofList front).utf8ByteSize = front.length := by
  induction front with
  | nil => rfl
  | cons c front ih =>
      rw [List.forall_mem_cons] at h
      rw [String.ofList_cons, String.utf8ByteSize_append, String.utf8ByteSize_singleton, h.1,
        ih h.2, List.length_cons, Nat.add_comm]

theorem slice_eq_ok_iff :
    slice s start stop = .ok u ↔
      ∃ t v, s = t ++ u ++ v ∧ t.utf8ByteSize = start ∧ (t ++ u).utf8ByteSize = stop := by
  have hbind : slice s start stop = .ok u ↔
      ∃ w, sliceTo s stop = .ok w ∧ sliceFrom w start = .ok u := by
    unfold slice
    cases sliceTo s stop <;> simp [bind, Except.bind]
  simp only [hbind, sliceTo_eq_ok_iff, sliceFrom_eq_ok_iff]
  constructor
  · rintro ⟨w, ⟨v, rfl, hstop⟩, t, rfl, hstart⟩
    exact ⟨t, v, rfl, hstart, hstop⟩
  · rintro ⟨t, v, rfl, hstart, hstop⟩
    exact ⟨t ++ u, ⟨v, rfl, hstop⟩, t, rfl, hstart⟩

theorem slice_ofList (t : Text) (i k : Nat) :
    slice (.ofList t) (String.ofList (t.take i)).utf8ByteSize
        (String.ofList (t.take (i + k))).utf8ByteSize =
      .ok (.ofList ((t.drop i).take k)) := by
  refine slice_eq_ok_iff.mpr ⟨.ofList (t.take i), .ofList ((t.drop i).drop k), ?_, rfl, ?_⟩
  · rw [← String.ofList_append, ← String.ofList_append, List.append_assoc,
      List.take_append_drop, List.take_append_drop]
  · rw [← String.ofList_append, List.take_add]

theorem length_located (byte : Nat) (t : Text) : (located byte t).length = t.length := by
  induction t generalizing byte with
  | nil => rfl
  | cons c t ih => rw [located, List.length_cons, ih, List.length_cons]

theorem getElem?_located (byte : Nat) (t : Text) (i : Nat) :
    (located byte t)[i]? =
      t[i]?.map fun c => (byte + (String.ofList (t.take i)).utf8ByteSize, c) := by
  induction t generalizing byte i with
  | nil => rfl
  | cons c t ih =>
      cases i with
      | zero => rfl
      | succ i =>
          simp only [located, List.getElem?_cons_succ, ih, List.take_succ_cons, String.ofList_cons,
            String.utf8ByteSize_append, String.utf8ByteSize_singleton, Nat.add_assoc]

end RuleLang.Text
