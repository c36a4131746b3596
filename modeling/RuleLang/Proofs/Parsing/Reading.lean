import Mathlib.Data.List.Nodup
import RuleLang.Tree.Cursor

namespace RuleLang.Cursor

def rest (c : Cursor) : List Token :=
  c.here :: c.ahead

inductive Reads : Cursor → List Token → Cursor → Prop
  | here (c : Cursor) : Reads c [c.here] c
  | on {c d : Cursor} {ts : List Token} (hc : c.ahead ≠ []) (h : Reads c.bump ts d) :
      Reads c (c.here :: ts) d

variable {c d e : Cursor} {ts us : List Token} {t : Token}

theorem peek_of_ahead (h : c.ahead = t :: ts) : c.peek = t := by
  simp [peek, h]

theorem bump_of_ahead (h : c.ahead = t :: ts) :
    c.bump = { behind := c.here :: c.behind, here := t, ahead := ts } := by
  simp [bump, h]

theorem bump_of_nil (h : c.ahead = []) : c.bump = c := by
  simp [bump, h]

theorem bump_here (h : c.ahead ≠ []) : c.bump.here = c.peek := by
  obtain ⟨t, ts, hr⟩ := List.exists_cons_of_ne_nil h
  rw [bump_of_ahead hr, peek_of_ahead hr]

theorem rest_bump (h : c.ahead ≠ []) : c.bump.rest = c.ahead := by
  obtain ⟨t, ts, hr⟩ := List.exists_cons_of_ne_nil h
  rw [bump_of_ahead hr, hr, rest]

theorem length_bump (h : c.ahead ≠ []) : c.bump.ahead.length + 1 = c.ahead.length :=
  congrArg List.length (rest_bump h)

theorem peek_mem (h : c.ahead ≠ []) : c.peek ∈ c.ahead := by
  obtain ⟨t, ts, hr⟩ := List.exists_cons_of_ne_nil h
  simp [peek_of_ahead hr, hr]

theorem ahead_ne_nil_of_peek (h : c.peek.kind ≠ .finish) : c.ahead ≠ [] := by
  intro hn
  simp [peek, hn, Token.finish] at h

namespace Reads

theorem ne_nil (h : Reads c ts d) : ts ≠ [] := by
  cases h <;> simp

theorem eq_append (h : Reads c ts d) : c.rest = ts ++ d.ahead := by
  induction h with
  | here c => rfl
  | on hc h ih => rw [rest, ← rest_bump hc, ih, List.cons_append]

theorem getLast?_eq (h : Reads c ts d) : ts.getLast? = some d.here := by
  induction h with
  | here c => rfl
  | on hc h ih => simp [List.getLast?_cons, ih]

theorem length_le (h : Reads c ts d) : d.ahead.length + ts.length = c.ahead.length + 1 := by
  have hl := congrArg List.length h.eq_append
  simp only [rest, List.length_cons, List.length_append] at hl
  omega

theorem append (h : Reads c ts d) (hd : d.ahead ≠ []) (h' : Reads d.bump us e) :
    Reads c (ts ++ us) e := by
  induction h with
  | here c => exact .on hd h'
  | on hc h ih => exact .on hc (ih hd h')

theorem of_cons (h : Reads c (t :: ts) d) (hts : ts ≠ []) :
    t = c.here ∧ c.ahead ≠ [] ∧ Reads c.bump ts d := by
  cases h with
  | here => exact absurd rfl hts
  | on hc h => exact ⟨rfl, hc, h⟩

theorem of_singleton (h : Reads c [t] d) : t = c.here ∧ d = c := by
  cases h with
  | here => exact ⟨rfl, rfl⟩
  | on hc h => exact absurd rfl h.ne_nil

theorem of_append (h : Reads c (ts ++ us) e) (hts : ts ≠ []) (hus : us ≠ []) :
    ∃ d, Reads c ts d ∧ d.ahead ≠ [] ∧ Reads d.bump us e := by
  induction ts generalizing c with
  | nil => exact absurd rfl hts
  | cons t ts ih =>
      obtain ⟨rfl, hc, h'⟩ := h.of_cons (by simp [hus])
      by_cases hn : ts = []
      · subst hn
        exact ⟨c, .here c, hc, h'⟩
      · obtain ⟨d, hd, hda, hde⟩ := ih h' hn
        exact ⟨d, .on hc hd, hda, hde⟩

theorem subset (h : Reads c ts d) : ts ⊆ c.rest := by
  rw [h.eq_append]
  exact List.subset_append_left ..

theorem ahead_suffix (h : Reads c ts d) : d.ahead <:+ c.rest :=
  ⟨ts, h.eq_append.symm⟩

theorem notMem (h : Reads c ts d) (hn : c.rest.Nodup) (ht : t ∈ d.ahead) : t ∉ ts := by
  rw [h.eq_append] at hn
  exact fun hm => List.disjoint_of_nodup_append hn hm ht

end Reads

theorem exists_reads {after : List Token} (hc : c.rest = ts ++ after) (ht : ts ≠ []) :
    ∃ d, Reads c ts d ∧ d.ahead = after := by
  induction ts generalizing c with
  | nil => exact absurd rfl ht
  | cons t ts ih =>
      obtain ⟨rfl, ha⟩ := List.cons.inj hc
      by_cases hts : ts = []
      · subst hts
        exact ⟨c, .here c, ha⟩
      · have hne : c.ahead ≠ [] := by
          simp [ha, hts]
        obtain ⟨d, hd, hda⟩ := ih ((rest_bump hne).trans ha) hts
        exact ⟨d, .on hne hd, hda⟩

end RuleLang.Cursor
