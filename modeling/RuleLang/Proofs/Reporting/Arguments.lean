import Mathlib.Data.List.TakeWhile
import RuleLang.CommandLine.Arguments

namespace RuleLang.CommandLine

theorem ne_equals_of_not_mem {name : Text} (h : '=' ∉ name) :
    ∀ c ∈ name, decide (c ≠ '=') = true := by
  intro c hc
  rw [decide_eq_true_iff]
  rintro rfl
  exact h hc

theorem splitName_of_not_mem {name : Text} (h : '=' ∉ name) : splitName name = (name, none) := by
  have hdrop := List.dropWhile_eq_nil_iff.mpr (ne_equals_of_not_mem h)
  simp only [splitName, hdrop]

theorem splitName_append {name : Text} (h : '=' ∉ name) (value : Text) :
    splitName (name ++ '=' :: value) = (name, some value) := by
  unfold splitName
  rw [List.dropWhile_append_of_pos (ne_equals_of_not_mem h),
    List.takeWhile_append_of_pos (ne_equals_of_not_mem h)]
  simp

def Takes (c : Command) (ws : List Text) (d d' : Draft) : Prop :=
  ∀ n ts, arguments c (ws.length + n) (ws ++ ts) d = arguments c n ts d'

def OptionName (name : Text) : Prop :=
  name ≠ [] ∧ name ≠ "help".toList ∧ '=' ∉ name

section Words

variable {c : Command} {ws ws' : List Text} {d d' d'' : Draft} {name : String}

theorem takes_nil : Takes c [] d d := by
  intro n ts
  simp

theorem Takes.append (h : Takes c ws d d') (h' : Takes c ws' d' d'') :
    Takes c (ws ++ ws') d d'' := by
  intro n ts
  rw [List.length_append, Nat.add_assoc, List.append_assoc, h, h']

theorem arguments_long {n : Nat} {text key : Text} {attached : Option Text}
    {ts ts' : List Text} {s : Setting} (htext : text ≠ []) (hhelp : text ≠ "help".toList)
    (hsplit : splitName text = (key, attached)) (hs : Setting.named? c key = some s)
    (happly : apply s attached ts d = some (d', ts')) :
    arguments c (n + 1) (('-' :: '-' :: text) :: ts) d = arguments c n ts' d' := by
  cases text with
  | nil => exact absurd rfl htext
  | cons x text =>
      simp only [arguments]
      rw [if_neg hhelp, hsplit]
      simp only [hs, Option.bind_some, happly]
      rfl

theorem takes_switch {set : Draft → Option Draft} (hname : OptionName name.toList)
    (hs : Setting.named? c name.toList = some (.switch set)) (hd : set d = some d') :
    Takes c [longOption name] d d' := by
  intro n ts
  rw [List.length_singleton, Nat.add_comm]
  exact arguments_long hname.1 hname.2.1 (splitName_of_not_mem hname.2.2) hs
    (by simp [apply, hd])

theorem takes_value {set : Draft → Text → Option Draft} {value : Text}
    (hname : OptionName name.toList)
    (hs : Setting.named? c name.toList = some (.valued set)) (hd : set d value = some d') :
    Takes c [valueWord name value] d d' := by
  intro n ts
  rw [List.length_singleton, Nat.add_comm]
  refine arguments_long (by simp) ?_ (splitName_append hname.2.2 value) hs (by simp [apply, hd])
  intro h
  have hequals : '=' ∈ "help".toList := h ▸ by simp
  exact absurd hequals (by decide)

theorem takes_switchWord {given : Bool} {set : Draft → Option Draft}
    (hname : OptionName name.toList) (hs : Setting.named? c name.toList = some (.switch set))
    (hset : given = true → set d = some d') (hunset : given = false → d = d') :
    Takes c (switchWord name given) d d' := by
  cases given with
  | false =>
      obtain rfl := hunset rfl
      exact takes_nil
  | true => exact takes_switch hname hs (hset rfl)

theorem takes_optionWord {value : Option Text} {set : Draft → Text → Option Draft}
    (hname : OptionName name.toList) (hs : Setting.named? c name.toList = some (.valued set))
    (hset : ∀ t, value = some t → set d t = some d') (hunset : value = none → d = d') :
    Takes c (value.toList.map (valueWord name)) d d' := by
  cases value with
  | none =>
      obtain rfl := hunset rfl
      exact takes_nil
  | some t => exact takes_value hname hs (hset t rfl)

end Words

instance (name : Text) : Decidable (OptionName name) :=
  inferInstanceAs (Decidable (_ ∧ _ ∧ _))

def Draft.ofInput (i : Input) : Draft where
  allowHan := i.allowHan
  allowEmpty := i.allowEmpty
  boundary := some i.boundary
  pattern := i.pattern

theorem named?_common {c : Command} {name : Text} {s : Setting}
    (h : Setting.common.lookup name = some s) : Setting.named? c name = some s := by
  unfold Setting.named?
  split
  · simp [List.lookup_append, h]
  · exact h

theorem takes_input (c : Command) (i : Input) : Takes c i.words {} (.ofInput i) := by
  have hhan : Takes c (switchWord "allow-chinese" i.allowHan) {} { allowHan := i.allowHan } :=
    takes_switchWord (by decide) (named?_common rfl) (by simp +contextual) (by simp +contextual)
  have hempty : Takes c (switchWord "allow-empty-string" i.allowEmpty)
      { allowHan := i.allowHan } { allowHan := i.allowHan, allowEmpty := i.allowEmpty } :=
    takes_switchWord (by decide) (named?_common rfl) (by simp +contextual) (by simp +contextual)
  have hboundary : Takes c [valueWord "boundary" [i.boundary]]
      { allowHan := i.allowHan, allowEmpty := i.allowEmpty }
      { Draft.ofInput i with pattern := none } :=
    takes_value (by decide) (named?_common rfl) rfl
  have hpattern : Takes c (i.pattern.toList.map (valueWord "ident-pattern"))
      { Draft.ofInput i with pattern := none } (.ofInput i) :=
    takes_optionWord (by decide) (named?_common rfl)
      (by simp +contextual [Draft.ofInput]) (by simp +contextual [Draft.ofInput])
  exact (hhan.append hempty).append (hboundary.append hpattern)

def Request.Sayable : Request → Prop
  | .lex _ | .parse _ => True
  | .check _ r => r.catalogPath ≠ some []

theorem takes_references {d : Draft} {r : References} (hd : d.references = {})
    (hr : r.catalogPath ≠ some []) :
    Takes .check r.words d { d with references := r } := by
  obtain ⟨path, trust, presets⟩ := r
  have hcatalog : Takes .check (path.toList.map (valueWord "catalog")) d
      { d with references := { catalogPath := path } } := by
    refine takes_optionWord (by decide) rfl ?_ ?_
    · rintro t rfl
      have ht : t.isEmpty = false := by
        simpa using hr
      simp [Setting.references, hd, ht]
    · rintro rfl
      rw [← hd]
  have htrust : Takes .check (switchWord "no-check-ident" trust)
      { d with references := { catalogPath := path } }
      { d with references := { catalogPath := path, trustNames := trust } } :=
    takes_switchWord (by decide) rfl (by simp +contextual [Setting.references])
      (by simp +contextual)
  have hpresets : Takes .check (switchWord "device-presets" presets)
      { d with references := { catalogPath := path, trustNames := trust } }
      { d with references := ⟨path, trust, presets⟩ } :=
    takes_switchWord (by decide) rfl (by simp +contextual [Setting.references])
      (by simp +contextual)
  exact (hcatalog.append htrust).append hpresets

theorem Takes.arguments {c : Command} {ws : List Text} {d d' : Draft} {expression : Text}
    (h : Takes c ws d d') (hd : d'.expression = none) :
    arguments c ((ws ++ [['-', '-'], expression]).length + 1) (ws ++ [['-', '-'], expression]) d =
      .ok { d' with expression := some expression } := by
  rw [List.length_append, Nat.add_assoc, h]
  simp only [CommandLine.arguments, expressions, Draft.setExpression, hd]
  rfl

theorem ask_cons {help : Text} {c : Command} {name : Text} {ts : List Text} {d : Draft}
    {r : Request} (hname : Command.ofName? name = some c)
    (h : CommandLine.arguments c (ts.length + 1) ts {} = .ok d) (hr : d.request c = .ok r) :
    ask help (name :: ts) = .request r := by
  have hrequest : requestOfArguments (name :: ts) = .ok r := by
    simp only [requestOfArguments, hname, h]
    exact hr
  rw [ask, hrequest]

theorem ask_words (help : Text) {r : Request} (hr : r.Sayable) : ask help r.words = .request r := by
  cases r with
  | lex i => exact ask_cons rfl ((takes_input .lex i).arguments rfl) rfl
  | parse i => exact ask_cons rfl ((takes_input .parse i).arguments rfl) rfl
  | check i r =>
      have htakes := (takes_input .check i).append (takes_references rfl hr)
      exact ask_cons rfl (htakes.arguments rfl) rfl

end RuleLang.CommandLine
