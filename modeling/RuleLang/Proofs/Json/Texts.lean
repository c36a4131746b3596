import RuleLang.Json.Reading

namespace RuleLang.Json

def Blanks (w : Text) : Prop :=
  ∀ c ∈ w, isBlank c = true

def HexOf (n : Nat) (ds : Text) : Prop :=
  ds.map hexValue? = [some (n / 4096), some (n / 256 % 16), some (n / 16 % 16), some (n % 16)]

inductive Spells : Text → Text → Prop where
  | nil : Spells [] []
  | plain {c : Char} {s t : Text} (hq : c ≠ '"') (hb : c ≠ '\\') (hc : 0x20 ≤ c.toNat)
      (h : Spells s t) : Spells (c :: s) (c :: t)
  | mark {c x : Char} {s t : Text} (hx : simpleEscape? x = some c) (h : Spells s t) :
      Spells (c :: s) ('\\' :: x :: t)
  | unit {n : Nat} {u s t : Text} (hn : HexOf n u) (hh : Unit16.isHigh n = false)
      (hl : Unit16.isLow n = false) (h : Spells s t) :
      Spells (Char.ofNat n :: s) ('\\' :: 'u' :: (u ++ t))
  | pair {n m : Nat} {u w s t : Text} (hn : HexOf n u) (hm : HexOf m w)
      (hh : Unit16.isHigh n = true) (hl : Unit16.isLow m = true) (h : Spells s t) :
      Spells (Unit16.paired n m :: s) ('\\' :: 'u' :: (u ++ '\\' :: 'u' :: (w ++ t)))

def Digits (t : Text) : Prop :=
  t ≠ [] ∧ ∀ c ∈ t, c.isDigit = true

def WholeDigits (t : Text) : Prop :=
  Digits t ∧ (t.head? = some '0' → t = ['0'])

def Fraction (t : Text) : Prop :=
  t = [] ∨ ∃ ds, Digits ds ∧ t = '.' :: ds

/-- An exponent is read with a small letter, and its text may have a capital one. -/
inductive Exponent : Text → Text → Prop where
  | absent : Exponent [] []
  | marked {mark : Char} {sign ds : Text} (hm : mark = 'e' ∨ mark = 'E')
      (hs : sign = [] ∨ sign = ['+'] ∨ sign = ['-']) (hd : Digits ds) :
      Exponent ('e' :: (sign ++ ds)) (mark :: (sign ++ ds))

inductive Numbers : Text → Text → Prop where
  | of {sign whole fraction e e' : Text} (hs : sign = [] ∨ sign = ['-'])
      (hw : WholeDigits whole) (hf : Fraction fraction) (he : Exponent e e') :
      Numbers (sign ++ (whole ++ (fraction ++ e))) (sign ++ (whole ++ (fraction ++ e')))

def Separates (first : Bool) (b : Text) : Prop :=
  if first then Blanks b else ∃ w w', Blanks w ∧ Blanks w' ∧ b = w ++ ',' :: w'

mutual

/-- The text starts and ends with the value: no blanks stand around it. -/
inductive Writes : Document → Text → Prop where
  | null : Writes .null ['n', 'u', 'l', 'l']
  | yes : Writes (.boolean true) ['t', 'r', 'u', 'e']
  | no : Writes (.boolean false) ['f', 'a', 'l', 's', 'e']
  | number {n t : Text} (h : Numbers n t) : Writes (.number n) t
  | string {s t : Text} (h : Spells s t) : Writes (.string s) ('"' :: (t ++ ['"']))
  | array {ds : List Document} {t : Text} (h : WritesItems true ds t) :
      Writes (.array ds) ('[' :: t)
  | object {ms : List (Text × Document)} {t : Text} (h : WritesMembers true ms t) :
      Writes (.object ms) ('\x7b' :: t)

inductive WritesItems : Bool → List Document → Text → Prop where
  | close {first : Bool} {w : Text} (hw : Blanks w) : WritesItems first [] (w ++ [']'])
  | item {first : Bool} {d : Document} {ds : List Document} {b t u : Text}
      (hb : Separates first b) (hd : Writes d t) (hu : WritesItems false ds u) :
      WritesItems first (d :: ds) (b ++ (t ++ u))

inductive WritesMembers : Bool → List (Text × Document) → Text → Prop where
  | close {first : Bool} {w : Text} (hw : Blanks w) : WritesMembers first [] (w ++ ['\x7d'])
  | member {first : Bool} {d : Document} {ms : List (Text × Document)} {k b s w w' t u : Text}
      (hb : Separates first b) (hk : Spells k s) (hw : Blanks w) (hw' : Blanks w')
      (hd : Writes d t) (hu : WritesMembers false ms u) :
      WritesMembers first ((k, d) :: ms)
        (b ++ '"' :: (s ++ '"' :: (w ++ ':' :: (w' ++ (t ++ u)))))

end

def IsText (d : Document) (s : Text) : Prop :=
  ∃ w t w', Blanks w ∧ Writes d t ∧ Blanks w' ∧ s = w ++ (t ++ w')

variable {d : Document} {ds : List Document} {ms : List (Text × Document)} {s t w : Text}

theorem blanks_nil : Blanks [] :=
  nofun

theorem blanks_indentation (depth : Nat) : Blanks (indentation depth) := by
  intro c hc
  rcases List.mem_cons.mp hc with rfl | hc
  · rfl
  · rw [List.eq_of_mem_replicate hc]
    rfl

theorem separates_true (hw : Blanks w) : Separates true w :=
  hw

theorem separates_comma (hw : Blanks w) : Separates false (',' :: w) :=
  ⟨[], w, blanks_nil, hw, rfl⟩

theorem isDigit_of_mem_toDigits {c : Char} {n : Nat} (hc : c ∈ Nat.toDigits 10 n) :
    c.isDigit = true :=
  Nat.isDigit_of_mem_toDigits (by decide) (by decide) hc

theorem digits_toDigits (n : Nat) : Digits (Nat.toDigits 10 n) :=
  ⟨Nat.toDigits_ne_nil, fun _ => isDigit_of_mem_toDigits⟩

theorem eq_zero_of_head?_toDigits {n : Nat} (h : (Nat.toDigits 10 n).head? = some '0') :
    n = 0 := by
  induction n using Nat.strongRecOn with
  | ind n ih =>
      rw [Nat.toDigits_eq_if (by decide)] at h
      split at h
      · simpa using h
      · rename_i hn
        obtain ⟨c, u, hu⟩ := List.exists_cons_of_ne_nil (Nat.toDigits_ne_nil (n := n / 10) (b := 10))
        have hdiv : n / 10 = 0 := ih (n / 10) (by omega) (by rw [hu] at h ⊢; exact h)
        omega

theorem wholeDigits_toDigits (n : Nat) : WholeDigits (Nat.toDigits 10 n) := by
  refine ⟨digits_toDigits n, fun h => ?_⟩
  rw [eq_zero_of_head?_toDigits h]
  rfl

theorem numbers_whole {t : Text} (h : WholeDigits t) : Numbers t t := by
  simpa using Numbers.of (.inl rfl) h (.inl rfl) .absent

theorem numbers_negative {t : Text} (h : WholeDigits t) : Numbers ('-' :: t) ('-' :: t) := by
  simpa using Numbers.of (.inr rfl) h (.inl rfl) .absent

theorem Numbers.self {n t : Text} (h : Numbers n t) : Numbers n n := by
  obtain ⟨hs, hw, hf, he⟩ := h
  cases he with
  | absent => exact .of hs hw hf .absent
  | marked _ hsign hd => exact .of hs hw hf (.marked (.inl rfl) hsign hd)

theorem Writes.isText (h : Writes d t) : IsText d t :=
  ⟨[], t, [], blanks_nil, h, blanks_nil, by simp⟩

theorem hexOf_hexDigits4 : ∀ n < 0x20, HexOf n (hexDigits4 n) := by
  unfold HexOf
  decide +kernel

theorem Spells.control {c : Char} (hc : c.toNat < 0x20) (h : Spells s t) :
    Spells (c :: s) ('\\' :: 'u' :: (hexDigits4 c.toNat ++ t)) := by
  have hh : Unit16.isHigh c.toNat = false := by simp [Unit16.isHigh]; omega
  have hl : Unit16.isLow c.toNat = false := by simp [Unit16.isLow]; omega
  have hunit := Spells.unit (hexOf_hexDigits4 _ hc) hh hl h
  rwa [Char.ofNat_toNat] at hunit

theorem Spells.escape (c : Char) (h : Spells s t) : Spells (c :: s) (escape c ++ t) := by
  unfold Json.escape
  split
  case h_8 hq hb _ _ _ _ _ =>
    by_cases hc : c.toNat < 0x20
    · rw [if_pos hc]
      exact .control hc h
    · rw [if_neg hc]
      exact .plain hq hb (Nat.not_lt.mp hc) h
  all_goals exact .mark rfl h

theorem spells_flatMap_escape : ∀ s : Text, Spells s (s.flatMap escape)
  | [] => .nil
  | c :: s => .escape c (spells_flatMap_escape s)

theorem writes_quoted (s : Text) : Writes (.string s) (quoted s) :=
  .string (spells_flatMap_escape s)

structure Document.Printable (d : Document) : Prop where
  compact : Writes d (compact d)
  pretty : ∀ depth, Writes d (pretty depth d)

theorem Document.printable_boolean (b : Bool) : (Document.boolean b).Printable := by
  cases b with
  | true => exact ⟨.yes, fun _ => .yes⟩
  | false => exact ⟨.no, fun _ => .no⟩

theorem Document.printable_number {n : Text} (h : Numbers n n) : (Document.number n).Printable :=
  ⟨.number h, fun _ => .number h⟩

theorem Document.printable_natural (n : Nat) : (natural n).Printable :=
  printable_number (numbers_whole (wholeDigits_toDigits n))

theorem Document.printable_integer (i : Int) : (integer i).Printable := by
  cases i with
  | ofNat n => exact printable_natural n
  | negSucc n => exact printable_number (numbers_negative (wholeDigits_toDigits (n + 1)))

theorem Document.printable_string (s : Text) : (Document.string s).Printable :=
  ⟨writes_quoted s, fun _ => writes_quoted s⟩

theorem writesItems_compactItems (h : ∀ d ∈ ds, d.Printable) :
    WritesItems false ds (compactItems ds ++ [']']) := by
  induction ds with
  | nil => exact .close blanks_nil
  | cons d ds ih =>
      have hrest := ih fun e he => h e (List.mem_cons_of_mem _ he)
      have hitem := WritesItems.item (separates_comma blanks_nil)
        (h d List.mem_cons_self).compact hrest
      simpa [compactItems] using hitem

theorem writesItems_prettyItems (depth outer : Nat) (h : ∀ d ∈ ds, d.Printable) :
    WritesItems false ds (prettyItems depth ds ++ (indentation outer ++ [']'])) := by
  induction ds with
  | nil => exact .close (blanks_indentation outer)
  | cons d ds ih =>
      have hrest := ih fun e he => h e (List.mem_cons_of_mem _ he)
      have hitem := WritesItems.item (separates_comma (blanks_indentation depth))
        ((h d List.mem_cons_self).pretty depth) hrest
      simpa [prettyItems] using hitem

theorem Document.printable_array (h : ∀ d ∈ ds, d.Printable) : (Document.array ds).Printable := by
  cases ds with
  | nil => exact ⟨.array (.close blanks_nil), fun _ => .array (.close blanks_nil)⟩
  | cons d ds =>
      have hd := h d List.mem_cons_self
      have hds : ∀ e ∈ ds, e.Printable := fun e he => h e (List.mem_cons_of_mem _ he)
      constructor
      · have hitems := WritesItems.item (separates_true blanks_nil) hd.compact
          (writesItems_compactItems hds)
        simpa [Json.compact] using Writes.array hitems
      · intro depth
        have hitems := WritesItems.item (separates_true (blanks_indentation (depth + 1)))
          (hd.pretty (depth + 1)) (writesItems_prettyItems (depth + 1) depth hds)
        simpa [Json.pretty] using Writes.array hitems

theorem writesMembers_compactMembers (h : ∀ m ∈ ms, m.2.Printable) :
    WritesMembers false ms (compactMembers ms ++ ['\x7d']) := by
  induction ms with
  | nil => exact .close blanks_nil
  | cons m ms ih =>
      have hrest := ih fun e he => h e (List.mem_cons_of_mem _ he)
      have hmember := WritesMembers.member (separates_comma blanks_nil)
        (spells_flatMap_escape m.1) blanks_nil blanks_nil (h m List.mem_cons_self).compact hrest
      simpa [compactMembers, quoted] using hmember

theorem blanks_space : Blanks [' '] := by
  intro c hc
  rw [List.mem_singleton.mp hc]
  rfl

theorem writesMembers_prettyMembers (depth outer : Nat) (h : ∀ m ∈ ms, m.2.Printable) :
    WritesMembers false ms (prettyMembers depth ms ++ (indentation outer ++ ['\x7d'])) := by
  induction ms with
  | nil => exact .close (blanks_indentation outer)
  | cons m ms ih =>
      have hrest := ih fun e he => h e (List.mem_cons_of_mem _ he)
      have hmember := WritesMembers.member (separates_comma (blanks_indentation depth))
        (spells_flatMap_escape m.1) blanks_nil blanks_space
        ((h m List.mem_cons_self).pretty depth) hrest
      simpa [prettyMembers, quoted] using hmember

theorem Document.printable_object (h : ∀ m ∈ ms, m.2.Printable) :
    (Document.object ms).Printable := by
  cases ms with
  | nil => exact ⟨.object (.close blanks_nil), fun _ => .object (.close blanks_nil)⟩
  | cons m ms =>
      have hm := h m List.mem_cons_self
      have hms : ∀ e ∈ ms, e.2.Printable := fun e he => h e (List.mem_cons_of_mem _ he)
      have hk := spells_flatMap_escape m.1
      constructor
      · have hmembers := WritesMembers.member (separates_true blanks_nil) hk blanks_nil
          blanks_nil hm.compact (writesMembers_compactMembers hms)
        simpa [Json.compact, quoted] using Writes.object hmembers
      · intro depth
        have hmembers := WritesMembers.member (separates_true (blanks_indentation (depth + 1)))
          hk blanks_nil blanks_space (hm.pretty (depth + 1))
          (writesMembers_prettyMembers (depth + 1) depth hms)
        simpa [Json.pretty, quoted] using Writes.object hmembers

mutual

theorem Writes.printable : ∀ {d : Document} {t : Text}, Writes d t → d.Printable
  | _, _, .null => ⟨.null, fun _ => .null⟩
  | _, _, .yes => Document.printable_boolean true
  | _, _, .no => Document.printable_boolean false
  | _, _, .number h => Document.printable_number h.self
  | _, _, .string _ => Document.printable_string _
  | _, _, .array h => Document.printable_array h.printable
  | _, _, .object h => Document.printable_object h.printable

theorem WritesItems.printable :
    ∀ {first : Bool} {ds : List Document} {t : Text}, WritesItems first ds t →
      ∀ d ∈ ds, d.Printable
  | _, _, _, .close _ => nofun
  | _, _, _, .item _ hd hu => List.forall_mem_cons.mpr ⟨hd.printable, hu.printable⟩

theorem WritesMembers.printable :
    ∀ {first : Bool} {ms : List (Text × Document)} {t : Text}, WritesMembers first ms t →
      ∀ m ∈ ms, m.2.Printable
  | _, _, _, .close _ => nofun
  | _, _, _, .member _ _ _ _ hd hu => List.forall_mem_cons.mpr ⟨hd.printable, hu.printable⟩

end

end RuleLang.Json
