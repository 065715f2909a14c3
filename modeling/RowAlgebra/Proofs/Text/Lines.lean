import Mathlib.Data.List.DropRight
import RowAlgebra.Text.Lines

/-!
# What lines, blanks and separators are

Cutting a text up is specified without an algorithm. The lines of a text are free of line ends, and
each of them is followed by one (`Lined`, `lines_eq_iff`); what is left of a text that is trimmed has
no blanks at its ends (`StrippedTo`, `trimmed_eq_iff`); and the parts of a text are free of the
separator, which joins them (`SplitBy`, `splitAt_eq_iff`). Making all line ends of a terminal line
feeds does not change the lines (`lines_feedLines`).
-/

namespace RowAlgebra.Text

/-! ## Lines -/

def lineFeed : CodePoint := '\n'

def carriageReturn : CodePoint := '\r'

/-- What ends a line: one of the line ends, or a carriage return and a line feed together. -/
inductive LineEnd : List CodePoint → Prop where
  | single {p : CodePoint} : endsLine p.number = true → LineEnd [p]
  | pair : LineEnd [carriageReturn, lineFeed]

/-- The given points make up the given lines. -/
inductive Lined : List CodePoint → List Text → Prop where
  | nil : Lined [] []
  /-- The last line need not be ended. -/
  | rest {line : List CodePoint} : line ≠ [] → (∀ p ∈ line, endsLine p.number = false) →
      Lined line [⟨line⟩]
  /-- A line feed does not end a line of its own behind a carriage return. -/
  | line {line ending rest : List CodePoint} {ls : List Text} :
      (∀ p ∈ line, endsLine p.number = false) → LineEnd ending →
      ¬(ending = [carriageReturn] ∧ rest.head? = some lineFeed) → Lined rest ls →
      Lined (line ++ ending ++ rest) (⟨line⟩ :: ls)

/-- A line is cut off at a carriage return with its line feed as a whole. -/
theorem splitLines_pair (current rest : List CodePoint) :
    splitLines current (carriageReturn :: lineFeed :: rest) =
      ⟨current.reverse⟩ :: splitLines [] rest :=
  rfl

theorem splitLines_cons {current rest : List CodePoint} {p : CodePoint}
    (h : ¬(p = carriageReturn ∧ rest.head? = some lineFeed)) : splitLines current (p :: rest) =
      if endsLine p.number then ⟨current.reverse⟩ :: splitLines [] rest
      else splitLines (p :: current) rest := by
  rw [splitLines.eq_def]
  split
  · next heq => cases heq
  · next hr _ hl rest' heq =>
    cases heq
    exact absurd ⟨rfl, rfl⟩ h
  · next heq =>
    cases heq
    rfl

/-- What is free of line ends joins the open line. -/
theorem splitLines_append (current rest : List CodePoint) {line : List CodePoint}
    (h : ∀ p ∈ line, endsLine p.number = false) :
    splitLines current (line ++ rest) = splitLines (line.reverse ++ current) rest := by
  induction line generalizing current with
  | nil => rfl
  | cons p line ih =>
    have hp : endsLine p.number = false := h p List.mem_cons_self
    have hsingle : ¬(p = carriageReturn ∧ (line ++ rest).head? = some lineFeed) := by
      rintro ⟨rfl, -⟩
      cases hp
    rw [List.cons_append, splitLines_cons hsingle, hp, if_neg Bool.false_ne_true,
      ih _ fun q hq => h q (List.mem_cons_of_mem p hq), List.reverse_cons, List.append_assoc]
    rfl

theorem splitLines_ending (current : List CodePoint) {ending rest : List CodePoint}
    (h : LineEnd ending) (hwhole : ¬(ending = [carriageReturn] ∧ rest.head? = some lineFeed)) :
    splitLines current (ending ++ rest) = ⟨current.reverse⟩ :: splitLines [] rest := by
  cases h with
  | single hp =>
    rw [List.singleton_append, splitLines_cons (by simpa using hwhole), hp, if_pos rfl]
  | pair => rfl

/-- The points behind an open line that is free of line ends make up the lines that are split off. -/
theorem lined_splitLines (current ps : List CodePoint)
    (h : ∀ p ∈ current, endsLine p.number = false) :
    Lined (current.reverse ++ ps) (splitLines current ps) := by
  fun_induction splitLines current ps with
  | case1 current hempty =>
    rw [List.isEmpty_iff.1 hempty]
    exact .nil
  | case2 current hempty =>
    rw [List.append_nil]
    refine .rest ?_ fun p hp => h p (List.mem_reverse.1 hp)
    simpa using hempty
  | case3 current hr hl rest ih =>
    have hline := Lined.line (fun p hp => h p (List.mem_reverse.1 hp)) .pair
      (fun hsingle => by cases hsingle.1) (ih fun _ hp => absurd hp List.not_mem_nil)
    rw [List.append_assoc] at hline
    exact hline
  | case4 current p rest hpair hends ih =>
    have hline := Lined.line (fun p hp => h p (List.mem_reverse.1 hp)) (.single hends) ?_
      (ih fun _ hp => absurd hp List.not_mem_nil)
    · rw [List.append_assoc] at hline
      exact hline
    · rintro ⟨hp, hrest⟩
      obtain ⟨rest', rfl⟩ := List.head?_eq_some_iff.1 hrest
      exact hpair _ _ rest' (List.singleton_inj.1 hp) rfl
  | case5 current p rest hpair hends ih =>
    have hp : endsLine p.number = false := by simpa using hends
    have hlined := ih fun q hq => (List.mem_cons.1 hq).elim (fun hqp => hqp ▸ hp) (h q)
    rw [List.reverse_cons, List.append_assoc] at hlined
    exact hlined

/-- The lines of a text are the lines that make it up. -/
theorem lines_eq_iff {t : Text} {ls : List Text} : t.lines = ls ↔ Lined t.points ls := by
  constructor
  · rintro rfl
    exact lined_splitLines [] t.points fun _ hp => absurd hp List.not_mem_nil
  · rw [lines]
    generalize t.points = ps
    intro h
    induction h with
    | nil => rfl
    | @rest line hne hfree =>
      have hsplit := splitLines_append [] [] hfree
      rw [List.append_nil, List.append_nil] at hsplit
      rw [hsplit, splitLines, if_neg (by simpa using hne), List.reverse_reverse]
    | line hfree hending hwhole _ ih =>
      rw [List.append_assoc, splitLines_append [] _ hfree, splitLines_ending _ hending hwhole, ih,
        List.append_nil, List.reverse_reverse]

/-! ### The line ends of terminals -/

theorem ofChar_injective {c d : Char} (h : CodePoint.ofChar c = .ofChar d) : c = d := by
  rw [← CodePoint.shown_ofChar c, h, CodePoint.shown_ofChar]

theorem splitLines_lineFeed (current rest : List CodePoint) :
    splitLines current (lineFeed :: rest) = ⟨current.reverse⟩ :: splitLines [] rest := by
  have h : ¬(lineFeed = carriageReturn ∧ rest.head? = some lineFeed) := by
    rintro ⟨heq, -⟩
    cases heq
  exact splitLines_cons h

/-- A terminal's line ends and line feeds cut a text into the same lines. -/
theorem splitLines_feedLines (current : List CodePoint) (cs : List Char) :
    splitLines current ((feedLines cs).map .ofChar) = splitLines current (cs.map .ofChar) := by
  fun_induction feedLines cs generalizing current with
  | case1 => rfl
  | case2 rest ih =>
    have hright := splitLines_pair current (rest.map .ofChar)
    exact (splitLines_lineFeed current _).trans ((congrArg _ (ih [])).trans hright.symm)
  | case3 c rest hpair ih =>
    -- no carriage return in front of a line feed
    have hsingle : ¬(CodePoint.ofChar c = carriageReturn ∧
        (rest.map CodePoint.ofChar).head? = some lineFeed) := by
      rintro ⟨hc, hrest⟩
      rw [List.head?_map, Option.map_eq_some_iff] at hrest
      obtain ⟨d, hd, hfeed⟩ := hrest
      obtain ⟨rest', rfl⟩ := List.head?_eq_some_iff.1 hd
      exact hpair rest' (ofChar_injective hc) (by rw [ofChar_injective hfeed])
    rw [List.map_cons, List.map_cons, splitLines_cons hsingle]
    by_cases hc : c = '\r'
    · subst hc
      exact (splitLines_lineFeed current _).trans (congrArg _ (ih []))
    · have hother : ¬(CodePoint.ofChar c = carriageReturn ∧
          ((feedLines rest).map CodePoint.ofChar).head? = some lineFeed) :=
        fun h => hc (ofChar_injective h.1)
      rw [if_neg hc, splitLines_cons hother, ih, ih]

theorem lines_feedLines (s : String) :
    lines (String.ofList (feedLines s.toList)) = lines s := by
  have hpoints : (ofString (String.ofList (feedLines s.toList))).points =
      (feedLines s.toList).map .ofChar := by
    rw [ofString, String.toList_ofList]
  rw [lines, lines, hpoints, splitLines_feedLines]
  rfl

/-! ## Blanks -/

def isBlankPoint (p : CodePoint) : Bool :=
  isBlank p.number

/-- What is left of a text when the blanks at its ends are taken away. -/
structure StrippedTo (t core : Text) : Prop where
  around : ∃ before after, t.points = before ++ core.points ++ after ∧
    ∀ p ∈ before ++ after, isBlankPoint p = true
  first : ∀ p, core.points.head? = some p → isBlankPoint p = false
  last : ∀ p, core.points.getLast? = some p → isBlankPoint p = false

section

variable {β : Type} {f : β → Bool}

theorem dropWhile_append_of_head {before rest : List β} (hbefore : ∀ x ∈ before, f x = true)
    (hrest : ∀ x, rest.head? = some x → f x = false) : (before ++ rest).dropWhile f = rest := by
  rw [List.dropWhile_append_of_pos hbefore]
  cases rest with
  | nil => rfl
  | cons x rest => exact List.dropWhile_cons_of_neg (by simp [hrest x rfl])

theorem rdropWhile_append_of_getLast {rest after : List β} (hafter : ∀ x ∈ after, f x = true)
    (hrest : ∀ x, rest.getLast? = some x → f x = false) :
    (rest ++ after).rdropWhile f = rest := by
  have hreverse : (after.reverse ++ rest.reverse).dropWhile f = rest.reverse := by
    refine dropWhile_append_of_head (fun x hx => hafter x (List.mem_reverse.1 hx)) fun x hx => ?_
    rw [List.head?_reverse] at hx
    exact hrest x hx
  rw [List.rdropWhile, List.reverse_append, hreverse, List.reverse_reverse]

end

theorem points_trimmed (t : Text) : t.trimmed.points =
    (t.points.dropWhile isBlankPoint).rdropWhile isBlankPoint := rfl

theorem strippedTo_trimmed (t : Text) : t.StrippedTo t.trimmed where
  around := by
    refine ⟨t.points.takeWhile isBlankPoint,
      (t.points.dropWhile isBlankPoint).rtakeWhile isBlankPoint, ?_, ?_⟩
    · rw [points_trimmed, List.append_assoc, List.rdropWhile_append_rtakeWhile,
        List.takeWhile_append_dropWhile]
    · intro p hp
      rcases List.mem_append.1 hp with hfront | hback
      · exact List.mem_takeWhile_imp hfront
      · exact List.mem_rtakeWhile_imp hback
  first p hp := by
    obtain ⟨after, hafter⟩ := List.rdropWhile_prefix (isBlankPoint)
      (t.points.dropWhile isBlankPoint)
    have hhead : (t.points.dropWhile isBlankPoint).head? = some p := by
      rw [← hafter, ← points_trimmed, List.head?_append, hp]
      rfl
    have hnot := List.head?_dropWhile_not (isBlankPoint) t.points
    rw [hhead] at hnot
    exact hnot
  last p hp := by
    obtain ⟨hne, rfl⟩ := List.mem_getLast?_eq_getLast (Option.mem_def.2 hp)
    exact Bool.eq_false_iff.2 (List.rdropWhile_last_not _ _ hne)

theorem trimmed_eq_iff {t core : Text} : t.trimmed = core ↔ t.StrippedTo core := by
  constructor
  · rintro rfl
    exact t.strippedTo_trimmed
  · rintro ⟨⟨before, after, hpoints, hblank⟩, hfirst, hlast⟩
    suffices h : t.trimmed.points = core.points from congrArg Text.mk h
    have hbefore : ∀ p ∈ before, isBlankPoint p = true :=
      fun p hp => hblank p (List.mem_append_left _ hp)
    have hafter : ∀ p ∈ after, isBlankPoint p = true :=
      fun p hp => hblank p (List.mem_append_right _ hp)
    rw [points_trimmed, hpoints]
    cases hcore : core.points with
    | nil =>
      rw [List.append_nil, List.dropWhile_eq_nil_iff.2 hblank]
      rfl
    | cons q rest =>
      rw [hcore] at hfirst hlast
      have hhead : ∀ p, (q :: rest ++ after).head? = some p → isBlankPoint p = false := hfirst
      rw [List.append_assoc, dropWhile_append_of_head hbefore hhead,
        rdropWhile_append_of_getLast hafter hlast]

/-! ## Separators -/

/-- The parts of a text, of which there is at least one. -/
structure SplitBy (separator : Char) (t : Text) (parts : List Text) : Prop where
  ne_nil : parts ≠ []
  joined : intercalate ⟨[separator]⟩ parts = t
  free : ∀ part ∈ parts, CodePoint.ofChar separator ∉ part.points

theorem splitPoints_eq_splitOn (separator : CodePoint) (ps : List CodePoint) :
    splitPoints separator ps = ps.splitOn separator := by
  induction ps with
  | nil => rfl
  | cons p ps ih =>
    rw [splitPoints, List.splitOn_cons_eq_if_modifyHead, ih]
    by_cases hp : p = separator
    · simp [hp]
    · rw [if_neg hp, if_neg (by simpa using hp)]
      cases hsplit : ps.splitOn separator with
      | nil => exact absurd hsplit (List.splitOn_ne_nil _ _)
      | cons part parts => rfl

theorem not_mem_splitPoints {separator : CodePoint} {ps part : List CodePoint}
    (h : part ∈ splitPoints separator ps) : separator ∉ part := by
  induction ps generalizing part with
  | nil =>
    rw [List.mem_singleton.1 h]
    exact List.not_mem_nil
  | cons p ps ih =>
    rw [splitPoints] at h
    by_cases hp : p = separator
    · rw [if_pos hp] at h
      rcases List.mem_cons.1 h with rfl | hrest
      · exact List.not_mem_nil
      · exact ih hrest
    · have hp' : separator ∉ [p] := fun hmem => hp (List.mem_singleton.1 hmem).symm
      rw [if_neg hp] at h
      split at h
      · rw [List.mem_singleton.1 h]
        exact hp'
      · next first parts hsplit =>
        rw [hsplit] at ih
        rcases List.mem_cons.1 h with rfl | hrest
        · rintro (_ | ⟨_, hmem⟩)
          · exact hp rfl
          · exact ih List.mem_cons_self hmem
        · exact ih (List.mem_cons_of_mem _ hrest)

theorem splitAt_eq_iff {separator : Char} {t : Text} {parts : List Text} :
    t.splitAt separator = parts ↔ SplitBy separator t parts := by
  have hpoints (l : List (List CodePoint)) : (l.map Text.mk).map points = l := by
    rw [List.map_map]
    exact List.map_id l
  constructor
  · rintro rfl
    refine ⟨?_, ?_, ?_⟩
    · rw [splitAt, splitPoints_eq_splitOn]
      simp
    · rw [intercalate, splitAt, hpoints, splitPoints_eq_splitOn]
      exact congrArg Text.mk (List.intercalate_splitOn _)
    · intro part hpart
      obtain ⟨ps, hps, rfl⟩ := List.mem_map.1 hpart
      exact not_mem_splitPoints hps
  · rintro ⟨hne, rfl, hfree⟩
    have hsplit : ([CodePoint.ofChar separator].intercalate (parts.map points)).splitOn
        (CodePoint.ofChar separator) = parts.map points := by
      refine List.splitOn_intercalate _ (fun ps hps => ?_) (by simpa using hne)
      obtain ⟨part, hpart, rfl⟩ := List.mem_map.1 hps
      exact hfree part hpart
    rw [splitAt, intercalate, splitPoints_eq_splitOn, hsplit, List.map_map]
    exact List.map_id parts

end RowAlgebra.Text
