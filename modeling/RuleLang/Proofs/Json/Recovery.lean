import RuleLang.Proofs.Json.Texts

namespace RuleLang.Json

mutual

def Reading.ofDocument : Document → Reading
  | .null => .null
  | .boolean b => .boolean b
  | .number numeral => .number numeral
  | .string t => .string (some t)
  | .array ds => .array (ofItems ds) .closed
  | .object ms => .object (ofMembers ms) .closed

def Reading.ofItems : List Document → List Reading
  | [] => []
  | d :: ds => ofDocument d :: ofItems ds

def Reading.ofMembers : List (Text × Document) → List (Option Text × Reading)
  | [] => []
  | (k, d) :: ms => (some k, ofDocument d) :: ofMembers ms

end

def Unextended (t : Text) : Prop :=
  ∀ c ∈ t.head?, c.isDigit = false ∧ c ≠ '.' ∧ c ≠ 'e' ∧ c ≠ 'E'

def StartsValue (t : Text) : Prop :=
  ∃ c u, t = c :: u ∧ isBlank c = false ∧ c ≠ ']'

theorem Unextended.noDigit {t : Text} (h : Unextended t) : t.head?.all (!·.isDigit) = true := by
  cases t with
  | nil => rfl
  | cons c t => simp [(h c rfl).1]

variable {c : Char} {d : Document} {ds : List Document} {ms : List (Text × Document)}
  {b k s t u w w' rest : Text} {n m : Nat} {first : Bool} {r : Reading}

theorem hexUnit_of_hexOf (h : HexOf n u) : hexUnit (u ++ t) = .ok (n, t) := by
  have hsum : ((n / 4096 * 16 + n / 256 % 16) * 16 + n / 16 % 16) * 16 + n % 16 = n := by omega
  simp only [HexOf, List.map_eq_cons_iff, List.map_eq_nil_iff] at h
  obtain ⟨p, _, rfl, hp, q, _, rfl, hq, x, _, rfl, hx, y, _, rfl, hy, rfl⟩ := h
  simp [hexUnit, List.mapM_cons, hp, hq, hx, hy, hsum]

theorem Unit16.text?_unit {us : List Unit16} (hh : isHigh n = false) (hl : isLow n = false) :
    text? (.escaped n :: us) = (text? us).map (Char.ofNat n :: ·) := by
  rw [text?.eq_def]
  simp [hh, hl]

theorem Unit16.text?_pair {us : List Unit16} (hh : isHigh n = true) (hl : isLow m = true) :
    text? (.escaped n :: .escaped m :: us) = (text? us).map (paired n m :: ·) := by
  rw [text?.eq_def]
  simp [hh, hl]

theorem units_plain (hq : c ≠ '"') (hb : c ≠ '\\') (hc : 0x20 ≤ c.toNat) :
    units (n + 1) (c :: t) = (.character c :: (units n t).1, (units n t).2) := by
  rw [units, if_neg (Nat.not_lt.mpr hc)]
  · exact hq
  all_goals simp [hb]

theorem units_mark {x : Char} (hx : simpleEscape? x = some c) :
    units (n + 1) ('\\' :: x :: t) = (.character c :: (units n t).1, (units n t).2) := by
  have hu : x ≠ 'u' := by
    rintro rfl
    cases hx
  rw [units, hx]
  simpa using hu

theorem units_escaped (h : hexUnit u = .ok (m, t)) :
    units (n + 1) ('\\' :: 'u' :: u) = (.escaped m :: (units n t).1, (units n t).2) := by
  rw [units, h]

theorem units_of_spells (rest : Text) (h : Spells s t) (hn : t.length < n) :
    (units n (t ++ '"' :: rest)).2 = .ok rest ∧
      Unit16.text? (units n (t ++ '"' :: rest)).1 = some s := by
  induction h generalizing n with
  | nil =>
      obtain ⟨m, rfl⟩ := Nat.exists_eq_add_one_of_ne_zero (Nat.ne_zero_of_lt hn)
      exact ⟨rfl, rfl⟩
  | plain hq hb hc h ih =>
      obtain ⟨m, rfl⟩ := Nat.exists_eq_add_one_of_ne_zero (Nat.ne_zero_of_lt hn)
      obtain ⟨hrest, hs⟩ := ih (Nat.lt_of_succ_lt_succ hn)
      rw [List.cons_append, units_plain hq hb hc, Unit16.text?, hs]
      exact ⟨hrest, rfl⟩
  | mark hx h ih =>
      obtain ⟨m, rfl⟩ := Nat.exists_eq_add_one_of_ne_zero (Nat.ne_zero_of_lt hn)
      simp only [List.length_cons] at hn
      obtain ⟨hrest, hs⟩ := ih (n := m) (by omega)
      rw [List.cons_append, List.cons_append, units_mark hx, Unit16.text?, hs]
      exact ⟨hrest, rfl⟩
  | unit hu hh hl h ih =>
      obtain ⟨m, rfl⟩ := Nat.exists_eq_add_one_of_ne_zero (Nat.ne_zero_of_lt hn)
      simp only [List.length_cons, List.length_append] at hn
      obtain ⟨hrest, hs⟩ := ih (n := m) (by omega)
      simp only [List.cons_append, List.append_assoc]
      rw [units_escaped (hexUnit_of_hexOf hu), Unit16.text?_unit hh hl, hs]
      exact ⟨hrest, rfl⟩
  | pair hu hm hh hl h ih =>
      simp only [List.length_cons, List.length_append] at hn
      obtain ⟨m, rfl⟩ : ∃ m, n = m + 2 := ⟨n - 2, by omega⟩
      obtain ⟨hrest, hs⟩ := ih (n := m) (by omega)
      simp only [List.cons_append, List.append_assoc]
      rw [units_escaped (hexUnit_of_hexOf hu), units_escaped (hexUnit_of_hexOf hm),
        Unit16.text?_pair hh hl, hs]
      exact ⟨hrest, rfl⟩

theorem stringValue_of_spells (rest : Text) (h : Spells s t) :
    stringValue (t ++ '"' :: rest) = (.string (some s), some rest) := by
  have hfuel : t.length < (t ++ '"' :: rest).length + 1 := by
    rw [List.length_append]
    omega
  obtain ⟨hrest, hs⟩ := units_of_spells rest h hfuel
  unfold stringValue
  split
  case h_1 us behind heq =>
    rw [heq] at hrest hs
    cases hrest
    rw [← hs]
  case h_2 us f heq =>
    rw [heq] at hrest
    cases hrest

theorem digits_append (hu : Digits u) (ht : t.head?.all (!·.isDigit)) :
    digits (u ++ t) = (u, t) := by
  unfold digits
  rw [List.takeWhile_append_of_pos hu.2, List.dropWhile_append_of_pos hu.2]
  cases t with
  | nil => simp
  | cons c t => simp_all

theorem wholePart_append (hu : WholeDigits u) (ht : t.head?.all (!·.isDigit)) :
    wholePart (u ++ t) = .ok (u, t) := by
  unfold wholePart
  rw [digits_append hu.1 ht]
  split
  case h_1 heq => exact absurd (congrArg Prod.fst heq) hu.1.1
  case h_2 heq =>
    have hzero := congrArg Prod.fst heq
    dsimp only at hzero
    subst hzero
    cases hu.2 rfl
  case h_3 heq =>
    cases heq
    rfl

theorem fractionPart_append (hu : Fraction u) (ht : t.head?.all (!·.isDigit))
    (hdot : t.head? ≠ some '.') : fractionPart (u ++ t) = .ok (u, t) := by
  rcases hu with rfl | ⟨ds, hds, rfl⟩
  · rw [List.nil_append, fractionPart.eq_def]
    split
    · exact absurd rfl hdot
    · rfl
  · rw [List.cons_append, fractionPart, digits_append hds ht]
    split
    · rename_i heq
      exact absurd (congrArg Prod.fst heq) hds.1
    · rename_i heq
      cases heq
      rfl

theorem signPart_append {sign : Text} (hs : sign = [] ∨ sign = ['+'] ∨ sign = ['-'])
    (hu : Digits u) : signPart (sign ++ (u ++ t)) = (sign, u ++ t) := by
  obtain ⟨c, v, rfl⟩ := List.exists_cons_of_ne_nil hu.1
  have hc := hu.2 c List.mem_cons_self
  rcases hs with rfl | rfl | rfl
  · rw [List.nil_append, List.cons_append]
    unfold signPart
    split
    · rename_i heq
      cases heq
      cases hc
    · rename_i heq
      cases heq
      cases hc
    · rfl
  · rfl
  · rfl

theorem exponentPart_append (he : Exponent u s) (hr : Unextended rest) :
    exponentPart (s ++ rest) = .ok (u, rest) := by
  cases he with
  | absent =>
      rw [List.nil_append, exponentPart.eq_def]
      split
      case h_1 c t => rw [if_neg (by simpa using (hr c rfl).2.2)]
      case h_2 => rfl
  | @marked mark sign ds hm hs hd =>
      rw [List.cons_append, List.append_assoc, exponentPart, if_pos hm]
      simp only [signPart_append hs hd, digits_append hd hr.noDigit]
      split
      · rename_i heq
        exact absurd (congrArg Prod.fst heq) hd.1
      · rename_i heq
        cases heq
        rfl

theorem head?_exponent (he : Exponent u s) (hr : Unextended rest) :
    (s ++ rest).head?.all (!·.isDigit) = true ∧ (s ++ rest).head? ≠ some '.' := by
  cases he with
  | absent => exact ⟨hr.noDigit, fun h => (hr '.' h).2.1 rfl⟩
  | marked hm => rcases hm with rfl | rfl <;> exact ⟨rfl, by simp⟩

theorem head?_fraction {f : Text} (hf : Fraction f) (he : Exponent u s) (hr : Unextended rest) :
    (f ++ (s ++ rest)).head?.all (!·.isDigit) = true := by
  rcases hf with rfl | ⟨ds, -, rfl⟩
  · exact (head?_exponent he hr).1
  · rfl

theorem numberValue_of_numbers (h : Numbers u t) (hr : Unextended rest) :
    numberValue (t ++ rest) = (.number u, some rest) := by
  obtain @⟨sign, whole, fraction, e, e', hs, hw, hf, he⟩ := h
  obtain ⟨hdigit, hdot⟩ := head?_exponent he hr
  have hwhole := wholePart_append hw (head?_fraction hf he hr)
  have hfraction := fractionPart_append hf hdigit hdot
  have hexponent := exponentPart_append he hr
  have hnumeral : numeral (sign ++ (whole ++ (fraction ++ (e' ++ rest)))) =
      .ok (sign ++ (whole ++ (fraction ++ e)), rest) := by
    obtain ⟨c, v, rfl⟩ := List.exists_cons_of_ne_nil hw.1.1
    have hc := hw.1.2 c List.mem_cons_self
    unfold numeral
    rcases hs with rfl | rfl
    · have hsign : c ≠ '-' := by
        rintro rfl
        cases hc
      rw [List.cons_append] at hwhole
      simp [hsign, hwhole, hfraction, hexponent, bind, Except.bind, pure, Except.pure]
    · rw [List.cons_append] at hwhole
      simp [hwhole, hfraction, hexponent, bind, Except.bind, pure, Except.pure]
  simp only [List.append_assoc]
  rw [numberValue, hnumeral]

theorem skipBlanks_append (hw : Blanks w) : skipBlanks (w ++ t) = skipBlanks t :=
  List.dropWhile_append_of_pos hw

theorem value_append (hw : Blanks w) : value n (w ++ t) = value n t := by
  cases n with
  | zero => simp only [value]
  | succ n => simp only [value, skipBlanks_append hw]

theorem StartsValue.append (ht : StartsValue t) : StartsValue (t ++ u) := by
  obtain ⟨c, v, rfl, hc⟩ := ht
  exact ⟨c, v ++ u, rfl, hc⟩

theorem eq_of_isBlank (hc : isBlank c = true) : c = ' ' ∨ c = '\n' ∨ c = '\t' ∨ c = '\r' := by
  simpa [isBlank, or_assoc] using hc

theorem startsValue_of_isDigit (hc : c.isDigit = true) : StartsValue (c :: t) := by
  refine ⟨c, t, rfl, Bool.eq_false_iff.mpr fun hb => ?_, ?_⟩
  · rcases eq_of_isBlank hb with rfl | rfl | rfl | rfl <;> cases hc
  · rintro rfl
    cases hc

def StartsNumber (t : Text) : Prop :=
  ∃ c u, t = c :: u ∧ (c = '-' ∨ c.isDigit = true)

theorem Numbers.startsNumber (h : Numbers u t) : StartsNumber t := by
  obtain ⟨hs, hw, -, -⟩ := h
  obtain ⟨c, v, rfl⟩ := List.exists_cons_of_ne_nil hw.1.1
  rcases hs with rfl | rfl
  · exact ⟨c, _, rfl, .inr (hw.1.2 c List.mem_cons_self)⟩
  · exact ⟨'-', _, rfl, .inl rfl⟩

theorem StartsNumber.append (h : StartsNumber t) : StartsNumber (t ++ u) := by
  obtain ⟨c, v, rfl, hc⟩ := h
  exact ⟨c, v ++ u, rfl, hc⟩

theorem StartsNumber.startsValue (h : StartsNumber t) : StartsValue t := by
  obtain ⟨c, u, rfl, rfl | hc⟩ := h
  · exact ⟨_, _, rfl, by decide⟩
  · exact startsValue_of_isDigit hc

theorem Writes.startsValue (h : Writes d t) : StartsValue t := by
  cases h with
  | number h => exact h.startsNumber.startsValue
  | _ => exact ⟨_, _, rfl, by decide⟩

theorem StartsValue.skipBlanks_eq (ht : StartsValue t) : skipBlanks t = t := by
  obtain ⟨c, u, rfl, hc, -⟩ := ht
  exact List.dropWhile_cons_of_neg (by simp [hc])

theorem value_of_startsNumber (h : StartsNumber t) : value (n + 1) t = numberValue t := by
  rw [value, h.startsValue.skipBlanks_eq]
  obtain ⟨c, u, rfl, hc⟩ := h
  split
  case h_8 heq =>
    cases heq
    exact if_pos hc
  all_goals
    rename_i heq
    cases heq
  all_goals
    rcases hc with hc | hc <;> cases hc

theorem word_append (r : Reading) : ∀ u, word r u (u ++ rest) = (r, some rest)
  | [] => rfl
  | c :: u => by
      rw [List.cons_append, word, if_pos rfl]
      exact word_append r u

theorem items_close (hw : Blanks w) :
    items (n + 1) first (w ++ (']' :: rest)) = ([], .closed, some rest) := by
  rw [items.eq_def]
  simp only [skipBlanks_append hw]
  rfl

theorem members_close (hw : Blanks w) :
    members (n + 1) first (w ++ ('\x7d' :: rest)) = ([], .closed, some rest) := by
  rw [members.eq_def]
  simp only [skipBlanks_append hw]
  rfl

theorem skipBlanks_comma (hw : Blanks w) : skipBlanks (w ++ ',' :: t) = ',' :: t :=
  skipBlanks_append hw

theorem items_item (hb : Separates first b) (ht : StartsValue t) (hv : value n t = (r, some u)) :
    items (n + 1) first (b ++ t) =
      (r :: (items n false u).1, (items n false u).2.1, (items n false u).2.2) := by
  obtain ⟨hs, c, v, rfl, -, hbracket⟩ := And.intro ht.skipBlanks_eq ht
  cases first with
  | true =>
      rw [items.eq_def]
      simp only [skipBlanks_append hb, hs]
      simp [hbracket, hv]
  | false =>
      obtain ⟨w, w', hw, hw', rfl⟩ := hb
      rw [items.eq_def, List.append_assoc, List.cons_append]
      simp only [skipBlanks_comma hw, skipBlanks_append hw', hs]
      simp [hbracket, hv]

theorem members_member (hb : Separates first b) (hk : Spells k s) (hw : Blanks w)
    (hv : value n t = (r, some u)) :
    members (n + 1) first (b ++ '"' :: (s ++ '"' :: (w ++ ':' :: t))) =
      ((some k, r) :: (members n false u).1, (members n false u).2.1,
        (members n false u).2.2) := by
  have hkey := stringValue_of_spells (w ++ ':' :: t) hk
  have hcolon : skipBlanks (w ++ ':' :: t) = ':' :: t := skipBlanks_append hw
  have hquote : ∀ v, skipBlanks ('"' :: v) = '"' :: v := fun _ => rfl
  cases first with
  | true =>
      rw [members.eq_def]
      simp only [skipBlanks_append hb, hquote]
      simp [hkey, hcolon, hv]
  | false =>
      obtain ⟨x, x', hx, hx', rfl⟩ := hb
      rw [members.eq_def, List.append_assoc, List.cons_append]
      simp only [skipBlanks_comma hx, skipBlanks_append hx', hquote]
      simp [hkey, hcolon, hv]

theorem Unextended.blanks (hw : Blanks w) (ht : Unextended t) : Unextended (w ++ t) := by
  cases w with
  | nil => exact ht
  | cons c w =>
      rintro _ ⟨⟩
      rcases eq_of_isBlank (hw c List.mem_cons_self) with rfl | rfl | rfl | rfl <;> decide

theorem Unextended.separates (hb : Separates false b) : Unextended (b ++ t) := by
  obtain ⟨w, w', hw, -, rfl⟩ := hb
  have hcomma : Unextended (',' :: (w' ++ t)) := by
    rintro _ ⟨⟩
    decide
  simpa using hcomma.blanks hw

theorem WritesItems.unextended (h : WritesItems false ds u) : Unextended (u ++ rest) := by
  cases h with
  | close hw =>
      have hbracket : Unextended (']' :: rest) := by
        rintro _ ⟨⟩
        decide
      simpa using hbracket.blanks hw
  | item hb => simpa using Unextended.separates hb

theorem WritesMembers.unextended (h : WritesMembers false ms u) : Unextended (u ++ rest) := by
  cases h with
  | close hw =>
      have hbrace : Unextended ('\x7d' :: rest) := by
        rintro _ ⟨⟩
        decide
      simpa using hbrace.blanks hw
  | member hb => simpa using Unextended.separates hb

theorem StartsValue.length_pos (ht : StartsValue t) : 0 < t.length := by
  obtain ⟨c, u, rfl, -⟩ := ht
  exact Nat.succ_pos _

theorem WritesItems.length_pos (h : WritesItems first ds t) : 0 < t.length := by
  cases h with
  | close hw => simp
  | item hb hd hu =>
      have hlength := hd.startsValue.length_pos
      simp only [List.length_append]
      omega

theorem exists_fuel (ht : t ≠ []) (hn : 2 * t.length ≤ n + 1) : ∃ m, n = m + 1 := by
  have hlength := List.length_pos_iff.mpr ht
  exact ⟨n - 1, by omega⟩

mutual

-- Recursion on how the text is written. A mark takes one unit of fuel and an item two at most, so
-- the rest of an array or object can do with one unit less than twice its length.
theorem value_of_writes {n : Nat} (rest : Text) :
    ∀ {d : Document} {t : Text}, Writes d t → 2 * t.length ≤ n → Unextended rest →
      value n (t ++ rest) = (.ofDocument d, some rest)
  | _, _, .null, hn, _ => by
      obtain ⟨m, rfl⟩ := exists_fuel (by simp) (Nat.le_succ_of_le hn)
      exact word_append .null ['u', 'l', 'l']
  | _, _, .yes, hn, _ => by
      obtain ⟨m, rfl⟩ := exists_fuel (by simp) (Nat.le_succ_of_le hn)
      exact word_append (.boolean true) ['r', 'u', 'e']
  | _, _, .no, hn, _ => by
      obtain ⟨m, rfl⟩ := exists_fuel (by simp) (Nat.le_succ_of_le hn)
      exact word_append (.boolean false) ['a', 'l', 's', 'e']
  | _, _, .number hu, hn, hr => by
      have hstarts := hu.startsNumber
      obtain ⟨m, rfl⟩ := exists_fuel (List.length_pos_iff.mp hstarts.startsValue.length_pos)
        (Nat.le_succ_of_le hn)
      rw [value_of_startsNumber hstarts.append]
      exact numberValue_of_numbers hu hr
  | _, _, .string hs, hn, _ => by
      obtain ⟨m, rfl⟩ := exists_fuel (by simp) (Nat.le_succ_of_le hn)
      rw [List.cons_append, List.append_assoc]
      exact stringValue_of_spells _ hs
  | _, _, .array (t := u) hi, hn, _ => by
      obtain ⟨m, rfl⟩ := exists_fuel (by simp) (Nat.le_succ_of_le hn)
      have hitems := items_of_writes (n := m) rest hi (by simp at hn; omega)
      have hv : value (m + 1) ('[' :: (u ++ rest)) = (.array (items m true (u ++ rest)).1
        (items m true (u ++ rest)).2.1, (items m true (u ++ rest)).2.2) := rfl
      rw [List.cons_append, hv, hitems]
      rfl
  | _, _, .object (t := u) hm, hn, _ => by
      obtain ⟨m, rfl⟩ := exists_fuel (by simp) (Nat.le_succ_of_le hn)
      have hmembers := members_of_writes (n := m) rest hm (by simp at hn; omega)
      have hv : value (m + 1) ('\x7b' :: (u ++ rest)) = (.object (members m true (u ++ rest)).1
        (members m true (u ++ rest)).2.1, (members m true (u ++ rest)).2.2) := rfl
      rw [List.cons_append, hv, hmembers]
      rfl

theorem items_of_writes {n : Nat} (rest : Text) :
    ∀ {first : Bool} {ds : List Document} {t : Text}, WritesItems first ds t →
      2 * t.length ≤ n + 1 → items n first (t ++ rest) = (Reading.ofItems ds, .closed, some rest)
  | _, _, _, .close hw, hn => by
      obtain ⟨m, rfl⟩ := exists_fuel (by simp) hn
      rw [List.append_assoc]
      exact items_close hw
  | _, _, _, .item (u := u) hb hd hu, hn => by
      have hlength := (WritesItems.item hb hd hu).length_pos
      obtain ⟨m, rfl⟩ := exists_fuel (List.length_pos_iff.mp hlength) hn
      have hd_pos := hd.startsValue.length_pos
      have hu_pos := hu.length_pos
      simp only [List.length_append] at hn
      -- A number as the item ends here, since no rest of an array can be part of it.
      have hv := value_of_writes (n := m) (u ++ rest) hd (by omega) hu.unextended
      have hi := items_of_writes (n := m) rest hu (by omega)
      rw [List.append_assoc, List.append_assoc, items_item hb hd.startsValue.append hv, hi]
      rfl

theorem members_of_writes {n : Nat} (rest : Text) :
    ∀ {first : Bool} {ms : List (Text × Document)} {t : Text}, WritesMembers first ms t →
      2 * t.length ≤ n + 1 →
      members n first (t ++ rest) = (Reading.ofMembers ms, .closed, some rest)
  | _, _, _, .close hw, hn => by
      obtain ⟨m, rfl⟩ := exists_fuel (by simp) hn
      rw [List.append_assoc]
      exact members_close hw
  | _, _, _, .member (u := u) hb hk hw hw' hd hu, hn => by
      obtain ⟨m, rfl⟩ := exists_fuel (by simp) hn
      have hv := value_of_writes (n := m) (u ++ rest) hd
        (by simp at hn; omega) hu.unextended
      have hm := members_of_writes (n := m) rest hu (by simp at hn; omega)
      rw [← value_append hw'] at hv
      simp only [List.append_assoc, List.cons_append]
      rw [members_member hb hk hw hv, hm]
      rfl

end

/-- A reader of JSON gives the document of each text, and the blanks behind it. -/
def ReadsTexts (read : Text → Reading × Option Text) : Prop :=
  ∀ {d : Document} {s : Text}, IsText d s → ∃ w, Blanks w ∧ read s = (.ofDocument d, some w)

theorem readsTexts_read : ReadsTexts read := by
  intro d s h
  obtain ⟨w, t, w', hw, hd, hw', rfl⟩ := h
  refine ⟨w', hw', ?_⟩
  have hr : Unextended w' := by simpa using Unextended.blanks (t := []) hw' nofun
  rw [read, value_append hw]
  exact value_of_writes w' hd (by simp; omega) hr

mutual

theorem Reading.eq_of_ofDocument :
    ∀ {d d' : Document}, ofDocument d = ofDocument d' → d = d'
  | .null, d', h => by
      cases d' <;> cases h
      rfl
  | .boolean _, d', h => by
      cases d' <;> cases h
      rfl
  | .number _, d', h => by
      cases d' <;> cases h
      rfl
  | .string _, d', h => by
      cases d' <;> cases h
      rfl
  | .array ds, d', h => by
      cases d' with
      | array ds' => rw [eq_of_ofItems (Reading.array.inj h).1]
      | _ => cases h
  | .object ms, d', h => by
      cases d' with
      | object ms' => rw [eq_of_ofMembers (Reading.object.inj h).1]
      | _ => cases h

theorem Reading.eq_of_ofItems :
    ∀ {ds ds' : List Document}, ofItems ds = ofItems ds' → ds = ds'
  | [], ds', h => by
      cases ds' <;> cases h
      rfl
  | d :: ds, ds', h => by
      cases ds' with
      | nil => cases h
      | cons d' ds' =>
          obtain ⟨hd, hds⟩ := List.cons.inj h
          rw [eq_of_ofDocument hd, eq_of_ofItems hds]

theorem Reading.eq_of_ofMembers :
    ∀ {ms ms' : List (Text × Document)}, ofMembers ms = ofMembers ms' → ms = ms'
  | [], ms', h => by
      cases ms' <;> cases h
      rfl
  | (k, d) :: ms, ms', h => by
      cases ms' with
      | nil => cases h
      | cons m' ms' =>
          obtain ⟨k', d'⟩ := m'
          obtain ⟨hm, hms⟩ := List.cons.inj h
          obtain ⟨hk, hd⟩ := Prod.mk.inj hm
          rw [Option.some.inj hk, eq_of_ofDocument hd, eq_of_ofMembers hms]

end

theorem IsText.document_eq {d' : Document} (h : IsText d s) (h' : IsText d' s) : d = d' := by
  obtain ⟨_, -, hread⟩ := readsTexts_read h
  obtain ⟨_, -, hread'⟩ := readsTexts_read h'
  exact Reading.eq_of_ofDocument (Prod.mk.inj (hread.symm.trans hread')).1

end RuleLang.Json
