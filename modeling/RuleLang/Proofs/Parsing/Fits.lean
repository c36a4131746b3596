import RuleLang.Proofs.Parsing.Steps

namespace RuleLang

/-- The tokens from one cursor up to the other spell a tree that may stand where operators bind
tighter than `min`, with `room` levels of nesting allowed. -/
structure Fits (o : ParseOptions) (room : Nat) (min : Precedence) (c d : Cursor) (ts : List Token)
    (t : Tree) : Prop where
  reads : c.Reads ts d
  spells : Spells o ts t
  ranked : t.Ranked
  tighter : ∀ e ∈ t.exposed?, min < e
  ended : ∀ e ∈ t.openEnd?, d.peek.kind.precedence ≤ e
  nesting : t.nesting ≤ room
  height : t.height ≤ o.maxDepth
  -- A wrong neighbour behind a group is only found by what the group is part of.
  adjacent : Kind.mayPrecede .closeParen d.peek.kind = true → Token.Adjacent (ts ++ [d.peek])

structure FitsAll (o : ParseOptions) (room : Nat) (c d : Cursor) (ts : List Token)
    (xs : List Tree) : Prop where
  reads : c.Reads ts d
  spells : SpellsAll o ts xs
  ranked : Tree.ListRanked xs
  nesting : Tree.greatestNesting xs ≤ room
  height : Tree.greatestHeight xs ≤ o.maxDepth
  adjacent : Kind.mayPrecede .closeParen d.peek.kind = true → Token.Adjacent (ts ++ [d.peek])

structure Encloses (o : ParseOptions) (room : Nat) (c d : Cursor) (ts : List Token)
    (xs : List Tree) : Prop where
  reads : c.Reads (c.here :: (ts ++ [d.here])) d
  opening : c.here.kind = .openParen
  closing : d.here.kind = .closeParen
  spells : SpellsAll o ts xs
  ranked : Tree.ListRanked xs
  nesting : Tree.greatestNesting xs ≤ room
  height : Tree.greatestHeight xs ≤ o.maxDepth
  adjacent : Token.Adjacent (c.here :: (ts ++ [d.here, d.peek]))

namespace Precedence

variable {p q r : Precedence}

theorem lowest_le (p : Precedence) : lowest ≤ p :=
  Nat.zero_le _

theorem not_lt : ¬ p < q ↔ q ≤ p :=
  Nat.not_lt

theorem lt_of_lt_of_le (h : p < q) (h' : q ≤ r) : p < r :=
  Nat.lt_of_lt_of_le (m := q.level) h h'

theorem le_trans (h : p ≤ q) (h' : q ≤ r) : p ≤ r :=
  Nat.le_trans (m := q.level) h h'

theorem le_of_lt (h : p < q) : p ≤ q :=
  Nat.le_of_lt h

end Precedence

namespace Fits

variable {o : ParseOptions} {room : Nat} {min : Precedence} {c d e : Cursor} {ts us : List Token}
  {l r t : Tree} {op : Operator} {xs : List Tree}

theorem leaf {a : Atom} (h : Leaf o c.here a) (hm : c.here.kind.mayPrecede c.peek.kind = true)
    (hh : 1 ≤ o.maxDepth) : Fits o (room + 1) min c c [c.here] (.atom c.here 0 a) where
  reads := .here c
  spells := .leaf h
  ranked := trivial
  tighter := by simp [Tree.exposed?]
  ended := by simp [Tree.openEnd?]
  nesting := by simp [Tree.nesting]
  height := hh
  adjacent := fun _ => List.isChain_pair.mpr hm

theorem group (hc : c.ahead ≠ []) (ho : c.here.kind = .openParen)
    (hm : c.here.kind.mayPrecede c.peek.kind = true) (h : Fits o room .lowest c.bump d ts t)
    (hp : d.peek.kind = .closeParen) :
    Fits o (room + 1) min c d.bump (c.here :: (ts ++ [d.peek]))
      (t.withBrackets (t.brackets + 1)) where
  reads := by
    have hd : d.ahead ≠ [] := Cursor.ahead_ne_nil_of_peek (by simp [hp])
    rw [← Cursor.bump_here hd]
    exact .on hc (h.reads.append hd (.here _))
  spells := .group ho hp h.spells
  ranked := Tree.ranked_withBrackets.mpr h.ranked
  tighter := by simp
  ended := by simp
  nesting := by
    rw [Tree.nesting_withBrackets_succ]
    exact Nat.succ_le_succ h.nesting
  height := by
    rw [Tree.height_withBrackets]
    exact h.height
  adjacent := by
    intro hn
    have hin : Token.Adjacent (ts ++ [d.peek]) := h.adjacent (by rw [hp]; rfl)
    have hout : Token.Adjacent [d.peek, d.bump.peek] :=
      List.isChain_pair.mpr (by rw [hp]; exact hn)
    have hfirst : c.here.kind.mayPrecede c.bump.here.kind = true := by
      rw [Cursor.bump_here hc]
      exact hm
    rw [List.cons_append, List.append_assoc]
    exact (hin.append_cons hout).cons_reads hfirst h.reads

theorem unary (hc : c.ahead ≠ []) (ho : op = .minus ∨ op = .bang) (hk : c.here.kind = op.kind)
    (hm : c.here.kind.mayPrecede c.peek.kind = true) (h : Fits o room .unary c.bump d ts r)
    (hs : d.peek.kind.precedence ≤ .unary) (hh : r.height + 1 ≤ o.maxDepth) :
    Fits o (room + 1) min c d (c.here :: ts) (.unary c.here 0 op r) where
  reads := .on hc h.reads
  spells := .unary ho hk h.spells
  ranked := by
    have hx : r.exposed? = none := by
      apply Option.eq_none_iff_forall_not_mem.mpr
      intro e he
      exact Nat.lt_asymm (h.tighter e he) (Tree.exposed_lt_unary he)
    exact ⟨hx, h.ranked⟩
  tighter := by simp [Tree.exposed?]
  ended := by
    rintro e ⟨⟩
    exact hs
  nesting := by
    have hr := h.nesting
    simp only [Tree.nesting]
    omega
  height := hh
  adjacent := by
    intro hn
    have hfirst : c.here.kind.mayPrecede c.bump.here.kind = true := by
      rw [Cursor.bump_here hc]
      exact hm
    exact (h.adjacent hn).cons_reads hfirst h.reads

theorem binary (h : Fits o (room + 1) min c d ts l) (ho : op ≠ .bang)
    (hk : d.peek.kind = op.kind) (hlt : min < op.precedence) (hd : d.bump.ahead ≠ [])
    (hm : d.peek.kind.mayPrecede d.bump.peek.kind = true)
    (hr : Fits o room op.precedence d.bump.bump e us r)
    (hs : e.peek.kind.precedence ≤ op.precedence)
    (hh : Nat.max l.height r.height + 1 ≤ o.maxDepth) :
    Fits o (room + 1) min c e (ts ++ d.peek :: us) (.binary d.peek 0 op l r) where
  reads := by
    have hne : d.ahead ≠ [] := Cursor.ahead_ne_nil_of_peek (hk ▸ op.kind_ne_finish)
    rw [← Cursor.bump_here hne]
    exact h.reads.append hne (.on hd hr.reads)
  spells := .binary ho hk h.spells hr.spells
  ranked := by
    have hx : ∀ e ∈ l.exposed?, op.precedence ≤ e := by
      intro e he
      have hle := h.ended e (Tree.openEnd_of_exposed he)
      rwa [hk] at hle
    exact ⟨⟨hx, h.ranked⟩, hr.tighter, hr.ranked⟩
  tighter := by
    rintro e ⟨⟩
    exact hlt
  ended := by
    rintro e ⟨⟩
    exact hs
  nesting := by
    have hl' := h.nesting
    have hr' := hr.nesting
    simp only [Tree.nesting]
    omega
  height := hh
  adjacent := by
    intro hn
    have hleft : Token.Adjacent (ts ++ [d.peek]) := by
      apply h.adjacent
      rw [hk]
      cases op <;> rfl
    have hnext : d.peek.kind.mayPrecede d.bump.bump.here.kind = true := by
      rw [Cursor.bump_here hd]
      exact hm
    rw [List.append_assoc]
    exact hleft.append_cons ((hr.adjacent hn).cons_reads hnext hr.reads)

theorem callee (h : Fits o room min c d ts t) (hu : Token.Uncurried c.rest)
    (hp : d.peek.kind = .openParen) :
    ∃ u a, Leaf o u a ∧ ts = [u] ∧ t = .atom u 0 a ∧ u.kind ∈ Kind.callees := by
  have hn : t.openEnd? = none := by
    apply Option.eq_none_iff_forall_not_mem.mpr
    intro e he
    have hle : e ≤ .unary := by
      obtain hx | rfl := Tree.exposed_or_unary he
      · exact Precedence.le_of_lt (Tree.exposed_lt_unary hx)
      · exact Nat.le_refl _
    have hcall := Precedence.le_trans (h.ended e he) hle
    rw [hp] at hcall
    exact absurd hcall (by decide)
  obtain ⟨u, a, hl, rfl, rfl⟩ | ⟨us, u, rfl, hk⟩ := h.spells.leaf_or_closed hn
  · refine ⟨u, a, hl, rfl, rfl, ?_⟩
    have ha := List.isChain_pair.mp (h.adjacent (by rw [hp]; rfl))
    rw [hp] at ha
    cases hl <;> simp_all [Kind.mayPrecede, Kind.callees]
  · have hd : d.ahead ≠ [] := Cursor.ahead_ne_nil_of_peek (by simp [hp])
    have hr : c.rest = us ++ u :: d.peek :: d.bump.ahead := by
      rw [h.reads.eq_append, ← Cursor.rest_bump hd, Cursor.rest, Cursor.bump_here hd]
      simp
    rw [hr] at hu
    exact absurd ⟨hk, hp⟩ (List.isChain_append_cons_cons.mp hu).2.1

theorem call (h : Fits o (room + 1) min c d ts t) (hu : Token.Uncurried c.rest)
    (hx : Encloses o room d.bump e us xs) (hd : d.ahead ≠ [])
    (hh : Nat.max 1 (Tree.greatestHeight xs) + 1 ≤ o.maxDepth) :
    Fits o (room + 1) min c e (ts ++ d.peek :: (us ++ [e.here]))
      (.call d.peek 0 (.atom t.token 0 (.function (Parser.calleeName t))) xs) := by
  have ho : d.peek.kind = .openParen := by
    rw [← Cursor.bump_here hd]
    exact hx.opening
  obtain ⟨u, a, hl, rfl, rfl, hk⟩ := h.callee hu ho
  have hfirst : Token.Adjacent ([u] ++ [d.peek]) := h.adjacent (by rw [ho]; rfl)
  rw [Tree.token, hl.calleeName_eq]
  exact
    { reads := by
        rw [← Cursor.bump_here hd]
        exact h.reads.append hd hx.reads
      spells := .call hk ho hx.closing hx.spells
      ranked := hx.ranked
      tighter := by simp [Tree.exposed?]
      ended := by simp [Tree.openEnd?]
      nesting := by
        have hn := hx.nesting
        simp only [Tree.nesting]
        omega
      height := hh
      adjacent := by
        intro _
        have ha := hx.adjacent
        rw [Cursor.bump_here hd] at ha
        simpa using hfirst.append_cons ha }

variable {u opening closing callee : Token}

theorem first (h : Fits o room min c d ts t)
    (hn : Kind.mayPrecede .closeParen d.peek.kind = true) :
    c.here.kind.mayPrecede c.peek.kind = true :=
  (h.adjacent hn).first h.reads

theorem of_group (h : Fits o (room + 1) min c d (opening :: (ts ++ [closing]))
      (t.withBrackets (t.brackets + 1)))
    (hn : Kind.mayPrecede .closeParen d.peek.kind = true) (ht : Spells o ts t)
    (hc : closing.kind = .closeParen) :
    c.ahead ≠ [] ∧ ∃ e, Fits o room .lowest c.bump e ts t ∧ e.peek.kind = .closeParen ∧
      d = e.bump := by
  obtain ⟨-, hne, hreads⟩ := h.reads.of_cons (by simp)
  obtain ⟨e, hr, hea, hd⟩ := hreads.of_append ht.ne_nil (by simp)
  obtain ⟨rfl, rfl⟩ := hd.of_singleton
  rw [Cursor.bump_here hea] at hc
  have hadj : Token.Adjacent (ts ++ [e.peek]) := by
    have ha : Token.Adjacent (ts ++ [e.bump.here] ++ [e.bump.peek]) := (h.adjacent hn).tail
    rw [List.append_assoc, Cursor.bump_here hea] at ha
    exact ha.split.1
  have hin : Fits o room .lowest c.bump e ts t :=
    { reads := hr
      spells := ht
      ranked := Tree.ranked_withBrackets.mp h.ranked
      tighter := fun _ hx => ht.lowest_lt hx
      ended := by
        intro x _
        rw [hc]
        exact Precedence.lowest_le x
      nesting := by
        have hnest := h.nesting
        rw [Tree.nesting_withBrackets_succ] at hnest
        exact Nat.le_of_succ_le_succ hnest
      height := by
        have hh := h.height
        rwa [Tree.height_withBrackets] at hh
      adjacent := fun _ => hadj }
  exact ⟨hne, e, hin, hc, rfl⟩

theorem of_unary (h : Fits o (room + 1) min c d (u :: ts) (.unary u 0 op r))
    (hn : Kind.mayPrecede .closeParen d.peek.kind = true) (hr : Spells o ts r) :
    c.here = u ∧ c.ahead ≠ [] ∧ Fits o room .unary c.bump d ts r ∧
      d.peek.kind.precedence ≤ .unary := by
  obtain ⟨rfl, hne, hreads⟩ := h.reads.of_cons hr.ne_nil
  obtain ⟨⟨hx, hranked⟩, hs⟩ := h.ranked, h.ended .unary rfl
  have hin : Fits o room .unary c.bump d ts r :=
    { reads := hreads
      spells := hr
      ranked := hranked
      tighter := by simp [hx]
      ended := Tree.le_openEnd (by simp [hx]) hs
      nesting := by
        have hnest := h.nesting
        simp only [Tree.nesting] at hnest
        omega
      height := (Nat.le_succ _).trans h.height
      adjacent := fun _ => (h.adjacent hn).tail }
  exact ⟨rfl, hne, hin, hs⟩

theorem of_binary (h : Fits o (room + 1) min c e (ts ++ u :: us) (.binary u 0 op l r))
    (hn : Kind.mayPrecede .closeParen e.peek.kind = true) (hk : u.kind = op.kind)
    (hl : Spells o ts l) (hr : Spells o us r) :
    ∃ d, Fits o (room + 1) min c d ts l ∧ d.peek = u ∧ d.bump.ahead ≠ [] ∧
      u.kind.mayPrecede d.bump.peek.kind = true ∧
        Fits o room op.precedence d.bump.bump e us r ∧
          e.peek.kind.precedence ≤ op.precedence := by
  obtain ⟨d, hrl, hda, hrest⟩ := h.reads.of_append hl.ne_nil (by simp)
  obtain ⟨hu, hne, hrr⟩ := hrest.of_cons hr.ne_nil
  rw [Cursor.bump_here hda] at hu
  have hs := h.ended op.precedence rfl
  have hlt : min < op.precedence := h.tighter op.precedence rfl
  obtain ⟨⟨hxl, hranl⟩, hxr, hranr⟩ := h.ranked
  have hadj := h.adjacent hn
  rw [List.append_assoc] at hadj
  have hfirst := hadj.split.2.first hrest
  have hnest := h.nesting
  have hheight := h.height
  simp only [Tree.nesting] at hnest
  simp only [Tree.height] at hheight
  rw [Cursor.bump_here hda, ← hu] at hfirst
  have hop : op.precedence ≤ .unary := Precedence.le_of_lt op.precedence_lt_unary
  have hleft : Fits o (room + 1) min c d ts l :=
    { reads := hrl
      spells := hl
      ranked := hranl
      tighter := fun x hx => Precedence.lt_of_lt_of_le hlt (hxl x hx)
      ended := by
        rw [← hu, hk]
        exact Tree.le_openEnd hxl hop
      nesting := by omega
      height := by omega
      adjacent := fun _ => hu ▸ hadj.split.1 }
  have hright : Fits o room op.precedence d.bump.bump e us r :=
    { reads := hrr
      spells := hr
      ranked := hranr
      tighter := hxr
      ended := by
        intro x hx
        have hle := Tree.le_openEnd (fun y hy => Precedence.le_of_lt (hxr y hy)) hop x hx
        exact Precedence.le_trans hs hle
      nesting := by omega
      height := by omega
      adjacent := fun _ => hadj.split.2.tail }
  exact ⟨d, hleft, hu.symm, hne, hfirst, hright, hs⟩

theorem of_call {f : Tree}
    (h : Fits o (room + 1) min c d (callee :: opening :: (us ++ [closing])) (.call opening 0 f xs))
    (hn : Kind.mayPrecede .closeParen d.peek.kind = true) (ho : opening.kind = .openParen)
    (hc : closing.kind = .closeParen) (hx : SpellsAll o us xs) :
    c.here = callee ∧ c.ahead ≠ [] ∧ c.peek = opening ∧ Encloses o room c.bump d us xs := by
  obtain ⟨rfl, hne, hr⟩ := h.reads.of_cons (by simp)
  have hlast : d.here = closing := by
    have hl := hr.getLast?_eq
    rw [← List.cons_append, List.getLast?_append] at hl
    simpa using hl.symm
  obtain ⟨rfl, -, -⟩ := hr.of_cons (by simp)
  have hadj := (h.adjacent hn).tail
  have hnest := h.nesting
  have hheight := h.height
  simp only [Tree.nesting] at hnest
  simp only [Tree.height] at hheight
  subst hlast
  have hin : Encloses o room c.bump d us xs :=
    { reads := hr
      opening := ho
      closing := hc
      spells := hx
      ranked := h.ranked
      nesting := by omega
      height := by omega
      adjacent := by simpa using hadj }
  exact ⟨rfl, hne, (Cursor.bump_here hne).symm, hin⟩

end Fits

namespace FitsAll

variable {o : ParseOptions} {room : Nat} {c d e : Cursor} {ts us : List Token} {t u : Tree}
  {xs : List Tree}

theorem one {min : Precedence} (h : Fits o room min c d ts t) : FitsAll o room c d ts [t] where
  reads := h.reads
  spells := .one h.spells
  ranked := ⟨h.ranked, trivial⟩
  nesting := by simpa [Tree.greatestNesting] using h.nesting
  height := by simpa [Tree.greatestHeight] using h.height
  adjacent := h.adjacent

theorem more {min : Precedence} (h : Fits o room min c d ts t) (hc : d.peek.kind = .comma)
    (hd : d.bump.ahead ≠ []) (hs : FitsAll o room d.bump.bump e us (u :: xs)) :
    FitsAll o room c e (ts ++ d.peek :: us) (t :: u :: xs) where
  reads := by
    have hne : d.ahead ≠ [] := Cursor.ahead_ne_nil_of_peek (by simp [hc])
    rw [← Cursor.bump_here hne]
    exact h.reads.append hne (.on hd hs.reads)
  spells := .more h.spells hc hs.spells
  ranked := ⟨h.ranked, hs.ranked⟩
  nesting := Nat.max_le.mpr ⟨h.nesting, hs.nesting⟩
  height := Nat.max_le.mpr ⟨h.height, hs.height⟩
  adjacent := by
    intro hn
    rw [List.append_assoc]
    refine (h.adjacent (by rw [hc]; rfl)).append_cons ?_
    exact (hs.adjacent hn).cons_reads (by rw [hc]; rfl) hs.reads

theorem of_one (h : FitsAll o room c d ts [t]) (hk : d.peek.kind = .closeParen)
    (ht : Spells o ts t) : Fits o room .lowest c d ts t where
  reads := h.reads
  spells := ht
  ranked := h.ranked.1
  tighter := fun _ he => ht.lowest_lt he
  ended := by
    intro e he
    rw [hk]
    exact Precedence.lowest_le e
  nesting := (Nat.le_max_left ..).trans h.nesting
  height := (Nat.le_max_left ..).trans h.height
  adjacent := h.adjacent

theorem of_more {comma : Token} (h : FitsAll o room c e (ts ++ comma :: us) (t :: u :: xs))
    (hn : Kind.mayPrecede .closeParen e.peek.kind = true) (hc : comma.kind = .comma)
    (ht : Spells o ts t) (hs : SpellsAll o us (u :: xs)) :
    ∃ d, Fits o room .lowest c d ts t ∧ d.peek.kind = .comma ∧ d.bump.ahead ≠ [] ∧
      FitsAll o room d.bump.bump e us (u :: xs) := by
  obtain ⟨d, hr, hda, hrest⟩ := h.reads.of_append ht.ne_nil (by simp)
  obtain ⟨rfl, hne, hrs⟩ := hrest.of_cons hs.ne_nil
  have hadj := h.adjacent hn
  rw [List.append_assoc] at hadj
  rw [Cursor.bump_here hda] at hc hadj
  have hfirst : Fits o room .lowest c d ts t :=
    { reads := hr
      spells := ht
      ranked := h.ranked.1
      tighter := fun _ he => ht.lowest_lt he
      ended := by
        intro x _
        rw [hc]
        exact Precedence.lowest_le x
      nesting := (Nat.le_max_left ..).trans h.nesting
      height := (Nat.le_max_left ..).trans h.height
      adjacent := fun _ => hadj.split.1 }
  have hrest : FitsAll o room d.bump.bump e us (u :: xs) :=
    { reads := hrs
      spells := hs
      ranked := h.ranked.2
      nesting := (Nat.le_max_right ..).trans h.nesting
      height := (Nat.le_max_right ..).trans h.height
      adjacent := fun _ => hadj.split.2.tail }
  exact ⟨d, hfirst, hc, hne, hrest⟩

end FitsAll

namespace Encloses

variable {o : ParseOptions} {room : Nat} {c d : Cursor} {ts : List Token} {xs : List Tree}

theorem none (hc : c.ahead ≠ []) (ho : c.here.kind = .openParen)
    (hp : c.peek.kind = .closeParen)
    (ha : c.bump.here.kind.mayPrecede c.bump.peek.kind = true) :
    Encloses o room c c.bump [] [] where
  reads := .on hc (.here _)
  opening := ho
  closing := by rw [Cursor.bump_here hc, hp]
  spells := .none
  ranked := trivial
  nesting := Nat.zero_le _
  height := Nat.zero_le _
  adjacent := by
    refine List.isChain_cons_cons.mpr ⟨?_, List.isChain_pair.mpr ha⟩
    rw [Cursor.bump_here hc, ho, hp]
    rfl

theorem some (hc : c.ahead ≠ []) (ho : c.here.kind = .openParen)
    (hm : c.here.kind.mayPrecede c.peek.kind = true) (hf : FitsAll o room c.bump d ts xs)
    (hp : d.peek.kind = .closeParen)
    (ha : d.bump.here.kind.mayPrecede d.bump.peek.kind = true) :
    Encloses o room c d.bump ts xs where
  reads := .on hc (hf.reads.append (Cursor.ahead_ne_nil_of_peek (by simp [hp])) (.here _))
  opening := ho
  closing := by rw [Cursor.bump_here (Cursor.ahead_ne_nil_of_peek (by simp [hp])), hp]
  spells := hf.spells
  ranked := hf.ranked
  nesting := hf.nesting
  height := hf.height
  adjacent := by
    have hd : d.bump.here = d.peek :=
      Cursor.bump_here (Cursor.ahead_ne_nil_of_peek (by simp [hp]))
    have hin : Token.Adjacent (ts ++ [d.bump.here]) := by
      rw [hd]
      exact hf.adjacent (by rw [hp]; rfl)
    have hall := hin.append_cons (List.isChain_pair.mpr ha)
    have hfirst : c.here.kind.mayPrecede c.bump.here.kind = true := by
      rw [Cursor.bump_here hc]
      exact hm
    exact hall.cons_reads hfirst hf.reads

theorem of_none (h : Encloses o room c d [] xs) :
    c.ahead ≠ [] ∧ c.peek.kind = .closeParen ∧ d = c.bump := by
  obtain ⟨-, hne, hr⟩ := h.reads.of_cons (by simp)
  obtain ⟨-, rfl⟩ := hr.of_singleton
  have hc := h.closing
  rw [Cursor.bump_here hne] at hc
  exact ⟨hne, hc, rfl⟩

theorem of_some (h : Encloses o room c d ts xs) (hts : ts ≠ []) :
    c.ahead ≠ [] ∧ ∃ e, FitsAll o room c.bump e ts xs ∧ e.peek.kind = .closeParen ∧
      d = e.bump := by
  obtain ⟨-, hne, hreads⟩ := h.reads.of_cons (by simp)
  obtain ⟨e, hr, hea, hlast⟩ := hreads.of_append hts (by simp)
  obtain ⟨-, rfl⟩ := hlast.of_singleton
  have hc := h.closing
  rw [Cursor.bump_here hea] at hc
  have hadj : Token.Adjacent (ts ++ [e.peek]) := by
    have ha := h.adjacent.tail
    rw [Cursor.bump_here hea] at ha
    exact ha.split.1
  have hin : FitsAll o room c.bump e ts xs :=
    { reads := hr
      spells := h.spells
      ranked := h.ranked
      nesting := h.nesting
      height := h.height
      adjacent := fun _ => hadj }
  exact ⟨hne, e, hin, hc, rfl⟩

theorem first (h : Encloses o room c d ts xs) : c.here.kind.mayPrecede c.peek.kind = true := by
  have ha : Token.Adjacent (c.here :: (ts ++ [d.here]) ++ [d.peek]) := by
    simpa using h.adjacent
  exact ha.first h.reads

theorem last (h : Encloses o room c d ts xs) : d.here.kind.mayPrecede d.peek.kind = true :=
  (List.isChain_cons_cons.mp h.adjacent.tail.split.2).1

end Encloses

end RuleLang
