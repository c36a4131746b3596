import RuleLang.CommandLine.Output
import RuleLang.Proofs.Json.Texts

namespace RuleLang

open Json (Document Digits WholeDigits Fraction Exponent Numbers)

namespace Layout

variable {n : Nat} {e : Int} {t : Text}

def Unsigned (t : Text) : Prop :=
  ∃ whole fraction e, WholeDigits whole ∧ Fraction fraction ∧ Exponent e e ∧
    t = whole ++ (fraction ++ e)

theorem Unsigned.signed (h : Unsigned t) (x : Binary64) :
    Numbers (Layout.signed x t) (Layout.signed x t) := by
  obtain ⟨whole, fraction, e, hw, hf, he, rfl⟩ := h
  unfold Layout.signed
  split
  · exact Numbers.of (.inr rfl) hw hf he
  · exact Numbers.of (.inl rfl) hw hf he

theorem wholeDigits_zero : WholeDigits ['0'] :=
  Json.wholeDigits_toDigits 0

theorem digits_append_zeros {ds : Text} (h : Digits ds) (k : Nat) : Digits (ds ++ zeros k) := by
  refine ⟨by simp [h.1], fun c hc => ?_⟩
  rcases List.mem_append.mp hc with hc | hc
  · exact h.2 c hc
  · rw [List.eq_of_mem_replicate hc]
    rfl

theorem digits_zeros_append {ds : Text} (h : Digits ds) (k : Nat) : Digits (zeros k ++ ds) := by
  refine ⟨by simp [h.1], fun c hc => ?_⟩
  rcases List.mem_append.mp hc with hc | hc
  · rw [List.eq_of_mem_replicate hc]
    rfl
  · exact h.2 c hc

theorem head?_digitChars (hn : n ≠ 0) : (digitChars n).head? ≠ some '0' :=
  fun h => hn (Json.eq_zero_of_head?_toDigits h)

theorem wholeDigits_of_head? (h : Digits t) (hzero : t.head? ≠ some '0') : WholeDigits t :=
  ⟨h, fun h => absurd h hzero⟩

theorem exponent_exponentText (e : Int) : Exponent ('e' :: exponentText e) ('e' :: exponentText e) := by
  refine Exponent.marked (.inl rfl) ?_ (Json.digits_toDigits e.natAbs)
  split
  · exact .inr (.inl rfl)
  · exact .inr (.inr rfl)

theorem unsigned_dotted {whole ds e : Text} (hw : WholeDigits whole) (hds : Digits ds)
    (he : Exponent e e) : Unsigned (whole ++ ('.' :: ds ++ e)) :=
  ⟨whole, '.' :: ds, e, hw, .inr ⟨ds, hds, rfl⟩, he, rfl⟩

theorem unsigned_zero : Unsigned ['0', '.', '0'] :=
  unsigned_dotted wholeDigits_zero wholeDigits_zero.1 .absent

theorem unsigned_point_whole {p : Nat} (hn : n ≠ 0) (hp : (digitChars n).length ≤ p) :
    Unsigned (point (digitChars n) p ++ ['.', '0']) := by
  have hpoint : point (digitChars n) p = digitChars n ++ zeros (p - (digitChars n).length) :=
    if_pos hp
  obtain ⟨c, u, hu⟩ := List.exists_cons_of_ne_nil (Json.digits_toDigits n).1
  rw [hpoint]
  refine unsigned_dotted (wholeDigits_of_head? ?_ ?_) wholeDigits_zero.1 .absent
  · exact digits_append_zeros (Json.digits_toDigits n) _
  · have hhead := head?_digitChars hn
    rw [digitChars, hu] at hhead ⊢
    exact hhead

theorem unsigned_point_inside {p : Nat} (hn : n ≠ 0) (hp : p < (digitChars n).length) :
    Unsigned (point (digitChars n) p) := by
  have hpoint : point (digitChars n) p =
      (digitChars n).take p ++ (if p = 0 then ['0'] else []) ++ '.' :: (digitChars n).drop p :=
    if_neg (Nat.not_le.mpr hp)
  have hdigits := Json.digits_toDigits n
  have hdrop : Digits ((digitChars n).drop p) :=
    ⟨by simpa using hp, fun c hc => hdigits.2 c (List.mem_of_mem_drop hc)⟩
  rw [hpoint]
  cases p with
  | zero => simpa using unsigned_dotted wholeDigits_zero hdrop .absent
  | succ p =>
      have hhead := head?_digitChars hn
      obtain ⟨c, u, hu⟩ := List.exists_cons_of_ne_nil hdigits.1
      have hwhole : WholeDigits ((digitChars n).take (p + 1)) := by
        refine wholeDigits_of_head? ⟨?_, fun c hc => hdigits.2 c (List.mem_of_mem_take hc)⟩ ?_
        · simp [digitChars, hu]
        · rw [digitChars, hu] at hhead ⊢
          exact hhead
      simpa using unsigned_dotted hwhole hdrop .absent

theorem unsigned_point_before (p : Nat) : Unsigned (point (digitChars n) (.negSucc p)) := by
  have hdigits := digits_zeros_append (Json.digits_toDigits n) (p + 1)
  simpa [point, digitChars] using unsigned_dotted wholeDigits_zero hdigits .absent

theorem unsigned_point {places : Int} (hn : n ≠ 0) (hp : places < (digitChars n).length) :
    Unsigned (point (digitChars n) places) := by
  cases places with
  | ofNat p => exact unsigned_point_inside hn (Int.ofNat_lt.mp hp)
  | negSucc p => exact unsigned_point_before p

theorem numbers_scientific (x : Binary64) : Numbers (scientific x) (scientific x) := by
  refine Unsigned.signed ?_ x
  generalize Shortest.decimal .toEven x = d
  dsimp only
  split
  · exact unsigned_zero
  · rename_i hn
    split
    · rename_i hwhole
      simp only [Bool.and_eq_true, decide_eq_true_eq] at hwhole
      obtain ⟨e, he⟩ := Int.eq_ofNat_of_zero_le hwhole.1
      rw [he, ← Int.natCast_add]
      exact unsigned_point_whole hn (Nat.le_add_right _ _)
    · split
      · rename_i hwhole hplaces
        simp only [Bool.and_eq_true, decide_eq_true_eq] at hwhole hplaces
        exact unsigned_point hn (by omega)
      · have hdigits := Json.digits_toDigits d.digits
        change Digits (digitChars d.digits) at hdigits
        split
        · rename_i c heq
          rw [heq] at hdigits
          exact ⟨[c], [], _, ⟨hdigits, by simp⟩, .inl rfl, exponent_exponentText _, rfl⟩
        · rename_i c rest hrest heq
          rw [heq] at hdigits
          obtain ⟨hc, hds⟩ := List.forall_mem_cons.mp hdigits.2
          have hwhole : WholeDigits [c] := ⟨⟨by simp, by simpa using hc⟩, by simp⟩
          simpa using unsigned_dotted hwhole ⟨hrest, hds⟩ (exponent_exponentText _)
        · rename_i heq
          exact absurd heq hdigits.1

end Layout

theorem Json.printable_option {α : Type} {f : α → Document} (hf : ∀ a, (f a).Printable)
    (x : Option α) : (Json.option f x).Printable := by
  cases x with
  | none => exact ⟨.null, fun _ => .null⟩
  | some a => exact hf a

theorem Json.printable_list {α : Type} {f : α → Document} (hf : ∀ a, (f a).Printable)
    (xs : List α) : (Json.list f xs).Printable := by
  refine Document.printable_array fun d hd => ?_
  obtain ⟨a, -, rfl⟩ := List.mem_map.mp hd
  exact hf a

theorem Diagnostic.printable_document (d : Diagnostic) : d.document.Printable :=
  Document.printable_object <| by
    simp [Document.printable_string, Document.printable_integer]

theorem StageError.printable_document (e : StageError) : e.document.Printable :=
  Document.printable_object <| by
    simp [Document.printable_string, e.diagnostic.printable_document]

theorem Token.printable_document (t : Token) : t.document.Printable := by
  refine Document.printable_object ?_
  cases t.delimited <;>
    simp [Document.printable_string, Document.printable_natural, Document.printable_boolean]

theorem Binary64.printable_document (x : Binary64) : x.document.Printable := by
  unfold Binary64.document
  split
  · exact Document.printable_number (Layout.numbers_scientific x)
  · exact ⟨.null, fun _ => .null⟩

theorem Atom.printable_node (a : Atom) : a.node.2.Printable := by
  cases a with
  | identifier | string | function => exact Document.printable_string _
  | number value => exact Json.printable_option Binary64.printable_document value
  | boolean value => exact Document.printable_boolean value

theorem Tree.printable_nodeDocument {t : Token} {brackets : Nat} {node : Text}
    {fields : List (Text × Document)} (h : ∀ m ∈ fields, m.2.Printable) :
    (nodeDocument t brackets node fields).Printable := by
  refine Document.printable_object ?_
  split <;>
    simpa [t.printable_document, Document.printable_natural, Document.printable_string] using h

mutual

theorem Tree.printable_document : ∀ t : Tree, t.document.Printable
  | .atom t n a => by
      rw [document]
      exact printable_nodeDocument (by simpa using a.printable_node)
  | .unary t n op r => by
      rw [document]
      exact printable_nodeDocument (by simp [Document.printable_string, r.printable_document])
  | .binary t n op l r => by
      rw [document]
      exact printable_nodeDocument <| by
        simp [Document.printable_string, l.printable_document, r.printable_document]
  | .call t n f xs => by
      rw [document]
      refine printable_nodeDocument ?_
      simpa [f.printable_document] using Document.printable_array (printable_documents xs)

theorem Tree.printable_documents : ∀ ts : List Tree, ∀ d ∈ documents ts, d.Printable
  | [] => nofun
  | t :: ts => List.forall_mem_cons.mpr ⟨t.printable_document, printable_documents ts⟩

end

theorem CommandLine.Result.printable_document (x : Result) : x.document.Printable := by
  have htokens := Json.printable_list Token.printable_document
  have htree := Json.printable_option Tree.printable_document
  have herror := Json.printable_option Diagnostic.printable_document
  have hstaged := Json.printable_option StageError.printable_document
  cases x <;> refine Document.printable_object ?_ <;>
    simp [htokens, htree, herror, hstaged, Document.printable_boolean]

end RuleLang
