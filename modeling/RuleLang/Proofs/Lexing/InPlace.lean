import RuleLang.Proofs.Lexing.Faultless
import RuleLang.Proofs.Text.Slices
import RuleLang.Token.Scanner

namespace RuleLang

namespace Scanner

def text (s : Scanner) : Text :=
  s.source.toList

def rest (s : Scanner) : Text :=
  s.text.drop s.position

def lexer (s : Scanner) : Lexer where
  options := s.options
  rest := s.rest
  passed := min s.position s.text.length
  error := s.error
  finished := s.finished

variable {s : Scanner} {c mark : Char} {front behind : Text} {x : Lexeme}

theorem length_characters (s : Scanner) : s.characters.length = s.text.length := by
  rw [s.located, Text.length_located, text]

theorem char?_eq (s : Scanner) : s.char? = s.rest.head? := by
  rw [char?, s.located, Text.getElem?_located, Option.map_map, rest, text, List.head?_drop]
  exact congrFun Option.map_id _

theorem nextChar?_eq (hr : s.rest = c :: behind) : s.nextChar? = behind.head? := by
  have hnext : s.text.drop (s.position + 1) = behind := by
    rw [← List.drop_drop, ← rest, hr, List.drop_one, List.tail_cons]
  rw [nextChar?, s.located, Text.getElem?_located, Option.map_map, ← hnext, text, List.head?_drop]
  exact congrFun Option.map_id _

theorem byteAt_eq (s : Scanner) (i : Nat) :
    s.byteAt i = (String.ofList (s.text.take i)).utf8ByteSize := by
  rw [byteAt, s.located, Text.getElem?_located, text]
  by_cases hi : i < s.source.toList.length
  · simp [List.getElem?_eq_getElem hi]
  · rw [List.getElem?_eq_none (Nat.not_lt.mp hi), List.take_of_length_le (Nat.not_lt.mp hi),
      String.ofList_toList]
    rfl

theorem slice_add (s : Scanner) (i k : Nat) :
    s.slice i (i + k) = .ok ((s.text.drop i).take k) := by
  have hsource : s.source = .ofList s.text := String.ofList_toList.symm
  rw [slice, byteAt_eq, byteAt_eq, hsource, Text.slice_ofList]
  exact congrArg Except.ok String.toList_ofList

theorem rest_read (hr : s.rest = c :: behind) : s.read.rest = behind := by
  change s.text.drop (s.position + 1) = behind
  rw [← List.drop_drop, ← rest, hr, List.drop_one, List.tail_cons]

theorem readWhile_of_head? {fits : Char → Bool} (h : ∀ c ∈ s.rest.head?, ¬ fits c) :
    s.readWhile fits = s := by
  rw [readWhile]
  split
  · next c hc => exact if_neg (h c (char?_eq s ▸ hc))
  · rfl

theorem readWhile_append {fits : Char → Bool} (hr : s.rest = front ++ behind)
    (hf : ∀ c ∈ front, fits c) (hb : ∀ c ∈ behind.head?, ¬ fits c) :
    s.readWhile fits = { s with position := s.position + front.length } := by
  induction front generalizing s with
  | nil => exact readWhile_of_head? (hr ▸ hb)
  | cons c front ih =>
      rw [List.forall_mem_cons] at hf
      rw [readWhile]
      split
      · next d hd =>
          obtain rfl : c = d := by simpa [char?_eq, hr] using hd
          rw [if_pos hf.1, ih (rest_read hr) hf.2]
          simp [read, Nat.add_comm, Nat.add_left_comm]
      · next hd => simp [char?_eq, hr] at hd

/-- The first fault of a text that stands at the given position. -/
def firstFault (fault? : Char → Option LexFault) : Nat → Text → Option LexError
  | _, [] => none
  | i, c :: t => ((fault? c).map fun fault => ⟨fault, i⟩).or (firstFault fault? (i + 1) t)

theorem readTo_append {fault? : Char → Option LexFault} {missing : LexFault}
    (hr : s.rest = c :: (front ++ behind)) (hm : mark ∉ front)
    (hb : ∀ d ∈ behind.head?, d = mark) :
    s.readTo mark fault? missing =
      (behind.head?.isSome, { s with
        position := s.position + (front.length + 1)
        error := (s.error.or (firstFault fault? (s.position + 1) front)).or
          (if behind.head?.isSome then none
            else some ⟨missing, s.position + (front.length + 1)⟩) }) := by
  induction front generalizing s c with
  | nil =>
      rw [readTo]
      split
      · next hd =>
          have hnil : behind = [] := by simpa [char?_eq, rest_read hr] using hd
          simp [hnil, raise, read, firstFault]
      · next d hd =>
          have hhead : behind.head? = some d := by simpa [char?_eq, rest_read hr] using hd
          simp [hhead, hb d hhead, read, firstFault]
  | cons e front ih =>
      rw [List.mem_cons, not_or] at hm
      rw [readTo]
      split
      · next hd => simp [char?_eq, rest_read hr] at hd
      · next d hd =>
          obtain rfl : e = d := by simpa [char?_eq, rest_read hr] using hd
          rw [if_neg (Ne.symm hm.1), ih (s := s.read.raise _ _) (rest_read hr) hm.2]
          simp [raise, read, firstFault, Option.or_assoc, Nat.add_comm, Nat.add_left_comm]

theorem firstFault_formatCharacter (i : Nat) (t : Text) :
    firstFault (fun c => if Text.isFormat c then some .formatCharacter else none) i t =
      (t.findIdx? Text.isFormat).map fun k => ⟨.formatCharacter, i + k⟩ := by
  induction t generalizing i with
  | nil => rfl
  | cons c t ih =>
      rw [firstFault, ih, List.findIdx?_cons]
      split
      · rfl
      · simp [Function.comp_def, Nat.add_assoc, Nat.add_comm 1]

theorem firstFault_none (i : Nat) (t : Text) : firstFault (fun _ => none) i t = none := by
  induction t generalizing i with
  | nil => rfl
  | cons c t ih => simp [firstFault, ih]

theorem length_text (hr : s.rest = c :: behind) :
    s.text.length = s.position + (behind.length + 1) := by
  have hlength := congrArg List.length hr
  rw [rest, List.length_drop, List.length_cons] at hlength
  omega

theorem slice_rest (s : Scanner) (k : Nat) :
    s.slice s.position (s.position + k) = .ok (s.rest.take k) :=
  s.slice_add s.position k

theorem slice_behind (hr : s.rest = c :: behind) (k : Nat) :
    s.slice (s.position + 1) (s.position + 1 + k) = .ok (behind.take k) := by
  rw [slice_add, ← rest_read hr]
  rfl

theorem single_eq (hr : s.rest = c :: behind) (kind : Kind) :
    s.single kind = .ok ({ kind, literal := [c], offset := s.position + 1 }, s) := by
  simp [single, slice_rest, hr, bind, Except.bind, pure, Except.pure]

theorem double_pair {second : Char} {both alone : Kind} (hr : s.rest = c :: second :: behind) :
    s.double second both alone =
      .ok ({ kind := both, literal := [c, second], offset := s.position + 1 }, s.read) := by
  simp [double, nextChar?_eq hr, read, slice_rest, Nat.add_assoc, hr, bind, Except.bind, pure,
    Except.pure]

theorem double_single {second : Char} {both alone : Kind} (hr : s.rest = c :: behind)
    (hs : second ∉ behind.head?) :
    s.double second both alone =
      .ok ({ kind := alone, literal := [c], offset := s.position }, s) := by
  simp [double, nextChar?_eq hr, slice_rest, hr, bind, Except.bind, pure, Except.pure,
    show ¬ behind.head? = some second from hs]

theorem stringFault_eq (o : LexOptions) (content : Text) (closed : Bool) (i : Nat) :
    (Lexeme.stringFault o content closed).map
        (fun (distance, fault) => (⟨fault, i + distance⟩ : LexError)) =
      ((((content.findIdx? Text.isFormat).map fun k => ⟨.formatCharacter, i + 1 + k⟩).or
        (if closed then none else some ⟨.unterminatedString, i + (content.length + 1)⟩)).or
        ((if !o.allowEmpty && decide (i + (content.length + 1) = i + 1) then
          some .emptyString else none).map
            fun fault => ⟨fault, i + (content.length + 1)⟩)).or
        ((if Text.wrappedIn o.boundary content &&
            !o.names.accepts (Text.unwrap o.boundary content) then
          some (.illegalVariable o.names.hint) else none).map
            fun fault => ⟨fault, i + (content.length + 1) + 1⟩) := by
  unfold Lexeme.stringFault
  cases content.findIdx? Text.isFormat with
  | some k => simp [Nat.add_assoc, Nat.add_comm 1]
  | none =>
      cases closed with
      | false => simp
      | true =>
          have hempty : (!o.allowEmpty && decide (i + (content.length + 1) = i + 1)) =
              (content.isEmpty && !o.allowEmpty) := by
            cases content <;> simp
          have hnil : (content.isEmpty && !o.allowEmpty) = true → content = [] := by simp_all
          rw [hempty]
          generalize (content.isEmpty && !o.allowEmpty) = isEmpty at hnil ⊢
          generalize (Text.wrappedIn o.boundary content &&
            !o.names.accepts (Text.unwrap o.boundary content)) = isIllegal
          cases isEmpty with
          | true => simp [hnil]
          | false => cases isIllegal <;> simp [Nat.add_assoc]

theorem string_eq {content : Text} (hr : s.rest = '\'' :: (content ++ behind))
    (hq : '\'' ∉ content) (hb : ∀ d ∈ behind.head?, d = '\'') :
    s.string = .ok
      ({ kind := .string
         literal := '\'' :: (content ++ behind.take 1)
         offset := s.position + (content.length + 1) + (behind.take 1).length },
        { s with
          position := s.position + (content.length + 1)
          error := s.error.or
            ((Lexeme.stringFault s.options content behind.head?.isSome).map
              fun (distance, fault) => ⟨fault, s.position + distance⟩) }) := by
  have hcontent : s.slice (s.position + 1) (s.position + (content.length + 1)) = .ok content := by
    rw [Nat.add_comm content.length, ← Nat.add_assoc, slice_behind hr, List.take_left]
  rw [stringFault_eq]
  simp only [string, readTo_append hr hq hb, firstFault_formatCharacter, raise, hcontent, bind,
    Except.bind]
  cases behind with
  | nil =>
    have hl : s.characters.length = s.position + (content.length + 1) := by
      rw [length_characters, length_text hr, List.append_nil]
    simp [slice_rest, hr, hl, pure, Except.pure]
  | cons d behind =>
    have htake : (content ++ d :: behind).take (content.length + 1) = content ++ [d] :=
      List.take_length_add_append 1
    simp [slice_rest, hr, htake, Nat.add_assoc, pure, Except.pure, Option.or_assoc]

theorem word_eq (hr : s.rest = c :: (front ++ behind)) (hf : ∀ d ∈ front, s.options.isWordCharacter d)
    (hb : ∀ d ∈ behind.head?, ¬ s.options.isWordCharacter d) :
    s.word = .ok
      ({ kind := (Kind.keyword? (c :: front)).getD .ident
         literal := c :: front
         offset := s.position + (front.length + 1) },
        { s with position := s.position + (front.length + 1) }) := by
  have hbehind := readWhile_append (s := s.read) (rest_read hr) hf hb
  have hposition : s.read.position + front.length = s.position + (front.length + 1) := by
    rw [read, Nat.add_assoc, Nat.add_comm 1]
  rw [word, hbehind, hposition]
  simp [slice_rest, hr, read, bind, Except.bind, pure, Except.pure]

theorem number_eq (hr : s.rest = c :: (front ++ behind)) (hc : Lexeme.isNumberCharacter c)
    (hf : ∀ d ∈ front, Lexeme.isNumberCharacter d)
    (hb : ∀ d ∈ behind.head?, ¬ Lexeme.isNumberCharacter d) :
    s.number = .ok
      ({ kind := .numeric
         literal := c :: front
         offset := s.position + (front.length + 1) },
        { s with
          position := s.position + (front.length + 1)
          error := s.error.or ((Lexeme.numberFault (front.length + 1) behind).map
            fun (distance, fault) => ⟨fault, s.position + distance⟩) }) := by
  have hall : ∀ d ∈ c :: front, Lexeme.isNumberCharacter d := by simpa [hc] using hf
  have hrest : s.rest = (c :: front) ++ behind := hr
  have hchar : ({ s with position := s.position + (c :: front).length } : Scanner).char? =
      behind.head? := by
    rw [char?_eq]
    change (s.text.drop (s.position + (c :: front).length)).head? = _
    rw [← List.drop_drop, ← rest, hrest, List.drop_left]
  rw [number, readWhile_append hrest hall hb, hchar]
  cases behind <;>
    simp [slice_rest, hr, raise, Lexeme.numberFault, bind, Except.bind, pure, Except.pure]

theorem variableName_eq {name : Text} (hr : s.rest = s.options.boundary :: (name ++ behind))
    (hm : s.options.boundary ∉ name) (hb : ∀ d ∈ behind.head?, d = s.options.boundary) :
    s.variableName = .ok
      ({ kind := .numeric
         literal := s.options.boundary :: (name ++ behind.take 1)
         offset := s.position + (name.length + 1) + (behind.take 1).length
         delimited := true },
        { s with
          position := s.position + (name.length + 1) + 1
          error := s.error.or
            (if behind.head?.isSome then
              if s.options.names.accepts name then none
              else some ⟨.illegalVariable s.options.names.hint, s.position + (name.length + 1)⟩
            else some ⟨.unclosedVariable s.options.boundary, s.position + (name.length + 1)⟩) }) := by
  have hl : s.characters.length = s.position + ((name ++ behind).length + 1) := by
    rw [length_characters, length_text hr]
  simp only [variableName, readTo_append hr hm hb, firstFault_none, raise, read, bind,
    Except.bind, Nat.add_assoc, slice_rest, hl]
  cases behind with
  | nil => simp [hr, List.take_of_length_le, pure, Except.pure]
  | cons d behind =>
    obtain rfl : d = s.options.boundary := hb d rfl
    have htake : (name ++ s.options.boundary :: behind).take (name.length + 1) =
        name ++ [s.options.boundary] :=
      List.take_length_add_append 1
    cases hn : s.options.names.accepts name <;>
      simp [hr, htake, hn, Text.unwrap_wrap, pure, Except.pure]

/-- The scanner at another position, where it has read the lexeme it stood at. -/
def onward (s : Scanner) (x : Lexeme) (position : Nat) : Scanner :=
  { s with position, error := s.error.or (x.errorAt s.position), finished := x.kind = .invalid }

/-- The position is behind the lexeme, or one further if nothing follows. -/
def Behind (s : Scanner) (x : Lexeme) (position : Nat) : Prop :=
  position = s.position + x.text.length ∨
    x.rest = [] ∧ position = s.position + x.text.length + 1

theorem citesLast_of_mark? {kind : Kind} (h : Kind.mark? c = some kind) :
    kind.citesLast = false := by
  unfold Kind.mark? at h
  split at h <;> cases h <;> rfl

theorem citesLast_of_extensible? {second : Char} {both alone : Kind}
    (h : Kind.extensible? c = some (second, both, alone)) :
    both.citesLast = true ∧ alone.citesLast = true := by
  unfold Kind.extensible? at h
  split at h <;> cases h <;> exact ⟨rfl, rfl⟩

theorem lexeme_of_extensible? {second : Char} {both alone : Kind}
    (hc : Kind.extensible? c = some (second, both, alone)) :
    s.lexeme c = reading (s.double second both alone) := by
  rw [lexeme, Kind.mark?_of_extensible? hc, hc]

theorem lexeme_of_unclaimed (hc : s.options.Unclaimed c) :
    s.lexeme c =
      if c = s.options.boundary then s.variableName else reading (s.invalid c) := by
  simp [lexeme, hc.mark, hc.extensible, hc.quote, hc.letter, hc.number]

theorem onward_eq (hf : s.finished = false) (hk : x.kind ≠ .invalid) (position : Nat) :
    s.onward x position =
      { s with position, error := s.error.or (x.errorAt s.position) } := by
  simp [onward, hf, hk]

theorem lexeme_eq (hf : s.finished = false) (hr : s.rest = c :: behind)
    (hx : Cut s.options c behind x) :
    ∃ position, s.Behind x position ∧
      s.lexeme c = .ok (x.token s.position, s.onward x position) := by
  have hk := hx.kind_ne_invalid
  cases hx with
  | mark hc =>
      refine ⟨s.position + 1, .inl rfl, ?_⟩
      rw [lexeme, hc, onward_eq hf (hk rfl)]
      simp [single_eq hr, read, Lexeme.token, Lexeme.errorAt, citesLast_of_mark? hc]
  | pair hc =>
      refine ⟨s.position + 2, .inl rfl, ?_⟩
      rw [lexeme_of_extensible? hc, onward_eq hf (hk rfl)]
      simp [double_pair hr, read, Lexeme.token, Lexeme.errorAt, (citesLast_of_extensible? hc).1]
  | single hc hs =>
      refine ⟨s.position + 1, .inl rfl, ?_⟩
      rw [lexeme_of_extensible? hc, onward_eq hf (hk rfl)]
      simp [double_single hr hs, read, Lexeme.token, Lexeme.errorAt,
        (citesLast_of_extensible? hc).2]
  | @closedString content rest hq =>
      refine ⟨s.position + (content.length + 2), .inl (by simp), ?_⟩
      rw [onward_eq hf (by simp)]
      change reading s.string = _
      simp [string_eq hr hq (by simp), read, Lexeme.token, Lexeme.errorAt, Nat.add_assoc,
        Kind.citesLast]
  | openString hq =>
      refine ⟨s.position + (behind.length + 1) + 1, .inr ⟨rfl, rfl⟩, ?_⟩
      rw [onward_eq hf (by simp)]
      change reading s.string = _
      rw [← behind.append_nil] at hr
      simp [string_eq hr hq (by simp), read, Lexeme.token, Lexeme.errorAt, Kind.citesLast]
  | @word _ tail rest hc ht hb =>
      obtain ⟨h1, h2, h3⟩ := LexOptions.unmarked_of_isLetter hc
      refine ⟨s.position + (tail.length + 1), .inl rfl, ?_⟩
      have hlast : ((Kind.keyword? (c :: tail)).getD .ident).citesLast = false := by
        obtain hw | ⟨hw, -⟩ | ⟨hw, -⟩ := Cut.keyword?_cases (c :: tail) <;> rw [hw] <;> rfl
      rw [onward_eq hf (hk rfl)]
      simp [lexeme, h1, h2, h3, hc, word_eq hr ht hb, Lexeme.token, Lexeme.errorAt, hlast]
  | @number _ tail rest hc ht hb =>
      have hl : ¬ s.options.isLetter c := LexOptions.not_isLetter_of_isNumberCharacter hc
      obtain ⟨h1, h2, h3⟩ := LexOptions.unmarked_of_isNumberCharacter hc
      refine ⟨s.position + (tail.length + 1), .inl rfl, ?_⟩
      rw [onward_eq hf (by simp)]
      simp [lexeme, h1, h2, h3, hl, hc, number_eq hr hc ht hb, Lexeme.token, Lexeme.errorAt,
        Kind.citesLast]
  | @closedName name rest hc hb =>
      refine ⟨s.position + (name.length + 2), .inl (by simp), ?_⟩
      rw [onward_eq hf (by simp), lexeme_of_unclaimed hc, if_pos rfl,
        variableName_eq hr hb (by simp)]
      cases hn : s.options.names.accepts name <;>
        simp [Lexeme.token, Lexeme.errorAt, Nat.add_assoc, Kind.citesLast]
  | openName hc hb =>
      refine ⟨s.position + (behind.length + 1) + 1, .inr ⟨rfl, rfl⟩, ?_⟩
      rw [← behind.append_nil] at hr
      rw [onward_eq hf (by simp), lexeme_of_unclaimed hc, if_pos rfl,
        variableName_eq hr hb (by simp)]
      simp [Lexeme.token, Lexeme.errorAt, Kind.citesLast]
  | invalid hc hb =>
      refine ⟨s.position + 1, .inl rfl, ?_⟩
      rw [lexeme_of_unclaimed hc, if_neg hb]
      simp [reading, invalid, slice_rest, hr, onward, raise, read, Lexeme.token, Lexeme.errorAt,
        Kind.citesLast, bind, Except.bind, pure, Except.pure]

theorem lexer_onward {position : Nat} (hr : s.rest = c :: behind) (hx : Cut s.options c behind x)
    (hp : s.Behind x position) :
    (s.onward x position).lexer =
      { options := s.options
        rest := x.rest
        passed := s.position + x.text.length
        error := s.error.or (x.errorAt s.position)
        finished := x.kind = .invalid } := by
  have htext : x.text ++ x.rest = s.rest := hx.text_append_rest.trans hr.symm
  have hlength : s.text.length = s.position + (x.text.length + x.rest.length) := by
    rw [length_text hr, ← List.length_append, hx.text_append_rest, List.length_cons]
  have hbehind : s.text.drop (s.position + x.text.length) = x.rest := by
    rw [← List.drop_drop, ← rest, ← htext, List.drop_left]
  have hrest : s.text.drop position = x.rest ∧
      min position s.text.length = s.position + x.text.length := by
    rcases hp with rfl | ⟨hnil, rfl⟩
    · exact ⟨hbehind, by omega⟩
    · rw [← List.drop_drop, hbehind, hlength, hnil, List.length_nil]
      exact ⟨rfl, by omega⟩
  change Lexer.mk s.options (s.text.drop position) (min position s.text.length) _ _ = _
  rw [hrest.1, hrest.2]
  rfl

theorem rest_moved {s' : Scanner} (hs : s.rest = front ++ behind)
    (hs' : s' = { s with position := s.position + front.length }) : s'.rest = behind := by
  subst hs'
  change s.text.drop (s.position + front.length) = behind
  rw [← List.drop_drop, ← rest, hs, List.drop_left]

theorem next_blank (hf : s.finished = false) (hb : ∀ c ∈ s.rest, Text.isBlank c) :
    ∃ s', s.next = .ok (s.lexer.next.1, s') ∧ s.lexer.next.2 = s'.lexer := by
  have hrest : s.rest = s.rest ++ [] := (List.append_nil _).symm
  have hlength : s.rest.length = s.text.length - s.position := List.length_drop
  have hpassed : s.lexer.passed + s.lexer.rest.length = s.text.length := by
    change min s.position s.text.length + s.rest.length = _
    omega
  let s' : Scanner := { s with position := s.position + s.rest.length }
  have hread : s.readWhile Text.isBlank = s' := readWhile_append hrest hb (by simp)
  have hend : s'.rest = [] := rest_moved hrest rfl
  have hpassed' : s'.lexer.passed = s.text.length := by
    change min (s.position + s.rest.length) s.text.length = _
    omega
  have hnone : s'.char? = none := by rw [char?_eq, hend]; rfl
  rw [Lexer.next_blank hf hb, hpassed]
  refine ⟨{ s' with finished := true }, ?_, ?_⟩
  · have hcount : s'.characters.length = s.text.length := s'.length_characters
    simp [next, hf, hread, hnone, hcount, pure, Except.pure]
  · change _ = Lexer.mk s.options s'.rest s'.lexer.passed s.error true
    rw [hend, hpassed']
    rfl

theorem next_lexeme (hf : s.finished = false) {blanks : Text}
    (hs : s.rest = blanks ++ c :: behind) (hb : ∀ d ∈ blanks, Text.isBlank d)
    (hc : ¬ Text.isBlank c) :
    ∃ s', s.next = .ok (s.lexer.next.1, s') ∧ s.lexer.next.2 = s'.lexer := by
  obtain ⟨x, hx⟩ := Cut.exists_cut s.options c behind
  let s' : Scanner := { s with position := s.position + blanks.length }
  have hread : s.readWhile Text.isBlank = s' := readWhile_append hs hb (by simpa using hc)
  have hr : s'.rest = c :: behind := rest_moved hs rfl
  have hchar : s'.char? = some c := by rw [char?_eq, hr]; rfl
  have hpassed : s.lexer.passed + blanks.length = s'.position := by
    have hlength : s.text.length = s'.position + (behind.length + 1) := length_text hr
    change min s.position s.text.length + blanks.length = s.position + blanks.length
    change _ = s.position + blanks.length + _ at hlength
    omega
  obtain ⟨position, hposition, hlexeme⟩ := lexeme_eq (s := s') hf hr hx
  rw [Lexer.next_lexeme hf hs hb hc hx, hpassed]
  refine ⟨s'.onward x position, ?_, (lexer_onward hr hx hposition).symm⟩
  simp [next, hf, hread, hchar, hlexeme, bind, Except.bind, pure, Except.pure]

theorem next_eq (s : Scanner) :
    ∃ s', s.next = .ok (s.lexer.next.1, s') ∧ s.lexer.next.2 = s'.lexer := by
  cases hf : s.finished with
  | true =>
      exact ⟨s, by simp [next, hf, Lexer.next, lexer, pure, Except.pure],
        by simp [Lexer.next, lexer, hf]⟩
  | false =>
      obtain ⟨blanks, rest', hs, hb, hr⟩ := exists_span Text.isBlank s.rest
      cases rest' with
      | nil => exact next_blank hf (by simpa [hs] using hb)
      | cons c behind => exact next_lexeme hf hs hb (hr c rfl)

theorem take_eq (n : Nat) (s : Scanner) :
    ∃ s', s.take n = .ok ((s.lexer.take n).1, s') ∧ (s.lexer.take n).2 = s'.lexer := by
  induction n generalizing s with
  | zero => exact ⟨s, rfl, rfl⟩
  | succ n ih =>
      obtain ⟨s', hnext, hlexer⟩ := s.next_eq
      obtain ⟨last, htake, hlast⟩ := ih s'
      rw [take, Lexer.take, hnext]
      cases hl : s.lexer.next with
      | mk found l =>
          obtain rfl : l = s'.lexer := by rw [← hlexer, hl]
          cases found with
          | none => exact ⟨s', rfl, rfl⟩
          | some t =>
              refine ⟨last, ?_, hlast⟩
              simp [htake, bind, Except.bind, pure, Except.pure]

theorem lexer_start (o : LexOptions) (source : String) :
    (start o source).lexer = Lexer.start o source.toList := by
  unfold start Lexer.start
  dsimp only
  split <;> rfl

end Scanner

theorem scan_eq_lex (o : LexOptions) (source : String) :
    scan o source = .ok (lex o source.toList) := by
  obtain ⟨last, htake, hlast⟩ :=
    (Scanner.start o source).take_eq (source.toList.length + 1)
  rw [Scanner.lexer_start] at htake hlast
  rw [scan, htake]
  simp only [lex, bind, Except.bind, pure, Except.pure, hlast]
  rfl

end RuleLang
