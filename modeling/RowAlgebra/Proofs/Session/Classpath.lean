import Mathlib.Data.List.Infix
import RowAlgebra.Proofs.Text.Lines
import RowAlgebra.Session.Classpath

/-!
# Which classpath is found, and which jars are shipped

The classpath is made up of the entries of the first line that has more than ten of them
(`Classpath.discover_eq_ok_iff`), and there is none exactly if no line has as many. The patterns that
the names of jars are matched with are specified as what they match in full (`Jar.namesModule_iff`,
`Jar.isTestJar_iff`). On entries without line feeds they come to a plain condition (`Jar.Wanted`),
so that neither the pattern for `math-scala` nor the open dot in that for test jars makes a
difference (`Jar.isShipped_eq`).
-/

namespace RowAlgebra

open Text (Lined lineFeed)

/-! ## Classpaths -/

namespace Classpath

/-- The entries of a line, without the blanks at its ends. -/
def HasEntries (line : Text) (es : List Text) : Prop :=
  ∃ core, line.StrippedTo core ∧ Text.SplitBy ':' core es

theorem entries_eq_iff {line : Text} {es : List Text} : entries line = es ↔ HasEntries line es := by
  constructor
  · intro h
    exact ⟨line.trimmed, line.strippedTo_trimmed, Text.splitAt_eq_iff.1 h⟩
  · rintro ⟨core, hcore, hes⟩
    rw [entries, Text.trimmed_eq_iff.2 hcore]
    exact Text.splitAt_eq_iff.2 hes

/-- `es` are the entries of the first line of the output that has more than ten of them. -/
def Prints (output : String) (es : List Text) : Prop :=
  10 < es.length ∧ ∃ before line after, Lined (output : Text).points (before ++ line :: after) ∧
    HasEntries line es ∧ ∀ earlier ∈ before, ∀ fs, HasEntries earlier fs → fs.length ≤ 10

theorem ofOutput?_eq_some_iff {output : String} {es : List Text} :
    ofOutput? output = some es ↔ Prints output es := by
  rw [ofOutput?, List.find?_eq_some_iff_append, decide_eq_true_iff]
  refine and_congr_right fun _ => ?_
  constructor
  · rintro ⟨as, bs, hlines, has⟩
    obtain ⟨before, rest, hbefore, rfl, hrest⟩ := List.map_eq_append_iff.1 hlines
    obtain ⟨line, after, rfl, hline, -⟩ := List.map_eq_cons_iff.1 hrest
    refine ⟨before, line, after, Text.lines_eq_iff.1 hbefore, entries_eq_iff.1 hline, ?_⟩
    intro earlier hearlier fs hfs
    have := has (entries earlier) (List.mem_map_of_mem hearlier)
    rw [entries_eq_iff.2 hfs] at this
    simpa using this
  · rintro ⟨before, line, after, hlined, hline, hbefore⟩
    refine ⟨before.map entries, after.map entries, ?_, ?_⟩
    · rw [Text.lines_eq_iff.2 hlined, List.map_append, List.map_cons, entries_eq_iff.2 hline]
    · intro fs hfs
      obtain ⟨earlier, hearlier, rfl⟩ := List.mem_map.1 hfs
      simpa using hbefore earlier hearlier _ (entries_eq_iff.1 rfl)

theorem ofOutput?_eq_none_iff {output : String} : ofOutput? output = none ↔
    ∀ ls, Lined (output : Text).points ls → ∀ line ∈ ls, ∀ es, HasEntries line es →
      es.length ≤ 10 := by
  rw [ofOutput?, List.find?_eq_none]
  constructor
  · intro h ls hls line hline es hes
    have := h (entries line) (List.mem_map_of_mem (Text.lines_eq_iff.2 hls ▸ hline))
    rw [entries_eq_iff.2 hes] at this
    simpa using this
  · intro h es hes
    obtain ⟨line, hline, rfl⟩ := List.mem_map.1 hes
    simpa using h _ (Text.lines_eq_iff.1 rfl) line hline _ (entries_eq_iff.1 rfl)

variable {directory home : FilePath} {output : String}

/-- The line ends of the terminal do not matter. -/
theorem discover_printing : discover directory home (.printing output) =
    (ofOutput? output).elim (.error .noClasspath) .ok := by
  have h : ofOutput? (String.ofList (Text.feedLines output.toList) : String) = ofOutput? output := by
    rw [ofOutput?, Text.lines_feedLines]
    rfl
  rw [discover, h]
  cases ofOutput? output <;> rfl

theorem discover_eq_ok_iff {es : List Text} :
    discover directory home (.printing output) = .ok es ↔ Prints output es := by
  rw [discover_printing, ← ofOutput?_eq_some_iff]
  cases ofOutput? output <;> simp

theorem discover_eq_error_iff {e : Error} : discover directory home (.printing output) = .error e ↔
    e = .noClasspath ∧ ∀ ls, Lined (output : Text).points ls → ∀ line ∈ ls, ∀ es,
      HasEntries line es → es.length ≤ 10 := by
  rw [discover_printing, ← ofOutput?_eq_none_iff]
  cases ofOutput? output <;> simp [eq_comm]

end Classpath

/-! ## Jars -/

namespace Jar

variable {part ps : List CodePoint}

theorem holdsLineFeed_eq_false_iff : holdsLineFeed ps = false ↔ lineFeed ∉ ps := by
  rw [holdsLineFeed, ← Bool.not_eq_true, List.contains_iff_mem]
  rfl

theorem endsInJar_iff : namesModule.endsInJar ps = true ↔
    ∃ b, ps = b ++ (".jar" : Text).points ∧ lineFeed ∉ b := by
  have hlength : (".jar" : Text).points.length = 4 := rfl
  rw [namesModule.endsInJar, Bool.and_eq_true, List.isSuffixOf_iff_suffix, Bool.not_eq_true',
    holdsLineFeed_eq_false_iff]
  constructor
  · rintro ⟨⟨b, rfl⟩, hfree⟩
    refine ⟨b, rfl, ?_⟩
    simpa [hlength] using hfree
  · rintro ⟨b, rfl, hfree⟩
    refine ⟨List.suffix_append b _, ?_⟩
    simpa [hlength] using hfree

/-- A pattern of a module matches a text in full if the name of the module stands somewhere in it,
`.jar` stands at its end behind the name, and there are no line feeds around the name. -/
theorem namesModule_iff (hpart : part ≠ []) : namesModule part ps = true ↔
    ∃ a b, ps = a ++ part ++ b ++ (".jar" : Text).points ∧ lineFeed ∉ a ∧ lineFeed ∉ b := by
  induction ps with
  | nil =>
    rw [namesModule]
    simp [hpart]
  | cons p ps ih =>
    rw [namesModule, Bool.or_eq_true, Bool.and_eq_true, Bool.and_eq_true, List.isPrefixOf_iff_prefix,
      endsInJar_iff, Bool.not_eq_true', holdsLineFeed_eq_false_iff, ih]
    constructor
    · rintro (⟨⟨rest, hrest⟩, b, hb, hfree⟩ | ⟨hp, a, b, rfl, ha, hb⟩)
      · refine ⟨[], b, ?_, List.not_mem_nil, hfree⟩
        rw [← hrest, List.drop_left] at hb
        rw [← hrest, hb, List.nil_append, List.append_assoc]
      · refine ⟨p :: a, b, rfl, ?_, hb⟩
        rintro (_ | ⟨_, hmem⟩)
        · exact hp (List.mem_singleton_self _)
        · exact ha hmem
    · rintro ⟨_ | ⟨q, a⟩, b, heq, ha, hb⟩
      · rw [heq, List.nil_append, List.append_assoc, List.drop_left]
        exact .inl ⟨List.prefix_append _ _, b, rfl, hb⟩
      · obtain ⟨rfl, rfl⟩ := List.cons_eq_cons.1 heq
        refine .inr ⟨fun hmem => ?_, a, b, rfl, fun hmem => ha (List.mem_cons_of_mem _ hmem), hb⟩
        exact ha (List.mem_singleton.1 hmem ▸ List.mem_cons_self)

/-- Ten points that begin with `-tests` and end in `jar` have one point in between. -/
theorem tests_between {ending : List CodePoint} (hfirst : ("-tests" : Text).points <+: ending)
    (hlast : ("jar" : Text).points <:+ ending) (hlength : ending.length = 10) :
    ∃ p, ending = ("-tests" : Text).points ++ [p] ++ ("jar" : Text).points := by
  obtain ⟨rest, rfl⟩ := hfirst
  obtain ⟨front, hfront⟩ := hlast
  have htests : ("-tests" : Text).points.length = 6 := rfl
  have hjar : ("jar" : Text).points.length = 3 := rfl
  rw [List.length_append, htests] at hlength
  have hlengths : front.length = 7 := by
    have := congrArg List.length hfront
    simp only [List.length_append, htests, hjar] at this
    omega
  rcases List.append_eq_append_iff.1 hfront with ⟨middle, hshort, -⟩ | ⟨middle, hlong, hrest⟩
  · have := congrArg List.length hshort
    rw [List.length_append, htests, hlengths] at this
    omega
  · have hone : middle.length = 1 := by
      rw [hlong, List.length_append, htests] at hlengths
      omega
    obtain ⟨p, rfl⟩ := List.length_eq_one_iff.1 hone
    exact ⟨p, by rw [hrest, List.append_assoc]⟩

/-- The pattern of test jars matches a text in full if `-tests`, any point and `jar` stand at its end,
and there are no line feeds before and between them. -/
theorem isTestJar_iff : isTestJar ps = true ↔ ∃ a p,
    ps = a ++ (("-tests" : Text).points ++ [p] ++ ("jar" : Text).points) ∧
      lineFeed ∉ a ∧ p ≠ lineFeed := by
  simp only [isTestJar, List.splitAt_eq, Bool.and_eq_true, List.isPrefixOf_iff_prefix,
    List.isSuffixOf_iff_suffix, beq_iff_eq, Bool.not_eq_true', holdsLineFeed_eq_false_iff,
    List.take_append_drop]
  constructor
  · rintro ⟨⟨⟨hfirst, hlast⟩, hlength⟩, hfree⟩
    obtain ⟨p, hp⟩ := tests_between hfirst hlast hlength
    have hps : ps = ps.take (ps.length - 10) ++
        (("-tests" : Text).points ++ [p] ++ ("jar" : Text).points) := by
      rw [← hp, List.take_append_drop]
    refine ⟨_, p, hps, fun hmem => hfree (List.mem_of_mem_take hmem), ?_⟩
    rintro rfl
    rw [hps] at hfree
    exact hfree (by simp)
  · rintro ⟨a, p, rfl, ha, hp⟩
    have hlength : (a ++ (("-tests" : Text).points ++ [p] ++ ("jar" : Text).points)).length - 10 =
        a.length := by
      rw [List.length_append]
      exact Nat.add_sub_cancel _ 10
    rw [hlength, List.drop_left, List.append_assoc]
    refine ⟨⟨⟨List.prefix_append _ _, ?_⟩, rfl⟩, ?_⟩
    · rw [← List.append_assoc]
      exact List.suffix_append _ _
    · have hwords : lineFeed ∉ ("-tests" : Text).points ∧ lineFeed ∉ ("jar" : Text).points := by
        decide
      simp [ha, hwords, Ne.symm hp]

/-- The modules whose jars are shipped; `math-scala` is one of `math`. -/
def names : List Text :=
  ["mahout-math-", "mahout-core-", "mahout-spark-"]

/-- An entry ends in `.jar`, the name of a module stands before that, and it does not end in
`-tests.jar`. -/
def Wanted (entry : Text) : Prop :=
  (".jar" : Text).points <:+ entry.points ∧
    (∃ name ∈ names, name.points <:+: entry.points.take (entry.length - 4)) ∧
    ¬("-tests.jar" : Text).points <:+ entry.points

instance (entry : Text) : Decidable (Wanted entry) :=
  inferInstanceAs (Decidable (_ ∧ _ ∧ ¬_))

/-- Without line feeds, a pattern of a module asks for its name before the suffix. -/
theorem namesModule_iff_of_free (hpart : part ≠ []) (hfree : lineFeed ∉ ps) :
    namesModule part ps = true ↔
      (".jar" : Text).points <:+ ps ∧ part <:+: ps.take (ps.length - 4) := by
  have htake (front : List CodePoint) : (front ++ (".jar" : Text).points).take
      ((front ++ (".jar" : Text).points).length - 4) = front := by
    have hlength : (front ++ (".jar" : Text).points).length - 4 = front.length := by
      rw [List.length_append]
      exact Nat.add_sub_cancel _ 4
    rw [hlength, List.take_left]
  rw [namesModule_iff hpart]
  constructor
  · rintro ⟨a, b, rfl, -, -⟩
    exact ⟨List.suffix_append _ _, a, b, (htake _).symm⟩
  · rintro ⟨⟨front, rfl⟩, hinfix⟩
    rw [htake] at hinfix
    obtain ⟨a, b, rfl⟩ := hinfix
    refine ⟨a, b, rfl, fun hmem => hfree ?_, fun hmem => hfree ?_⟩
    · simp [hmem]
    · simp [hmem]

/-- An entry that ends in `.jar` is a test jar only if the open dot of the pattern is that of the
suffix. -/
theorem isTestJar_iff_suffix (hjar : (".jar" : Text).points <:+ ps) (hfree : lineFeed ∉ ps) :
    isTestJar ps = true ↔ ("-tests.jar" : Text).points <:+ ps := by
  rw [isTestJar_iff]
  constructor
  · rintro ⟨a, p, rfl, -, -⟩
    obtain ⟨front, hfront⟩ := hjar
    rw [List.append_assoc, ← List.append_assoc a] at hfront
    obtain ⟨-, hends⟩ := List.append_inj' hfront rfl
    obtain ⟨rfl, -⟩ := List.cons_eq_cons.1 hends
    exact List.suffix_append a _
  · rintro ⟨a, rfl⟩
    exact ⟨a, '.', rfl, fun hmem => hfree (List.mem_append_left _ hmem), by decide⟩

/-- Among the patterns, that for `math-scala` finds nothing that the one for `math` does not find. -/
theorem any_modules_iff : (∃ part ∈ modules, part.points <:+: ps) ↔
    ∃ name ∈ names, name.points <:+: ps := by
  have hscala : ("mahout-math-" : Text).points <:+: ("mahout-math-scala-" : Text).points := by decide
  constructor
  · rintro ⟨part, hpart, hinfix⟩
    simp only [modules, List.mem_cons, List.not_mem_nil, or_false] at hpart
    rcases hpart with rfl | rfl | rfl | rfl
    · exact ⟨_, by simp [names], hinfix⟩
    · exact ⟨"mahout-math-", by simp [names], hscala.trans hinfix⟩
    · exact ⟨_, by simp [names], hinfix⟩
    · exact ⟨_, by simp [names], hinfix⟩
  · rintro ⟨name, hname, hinfix⟩
    have hsubset : names ⊆ modules := by decide
    exact ⟨name, hsubset hname, hinfix⟩

theorem isShipped_eq {entry : Text} (hfree : lineFeed ∉ entry.points) :
    isShipped entry = decide (Wanted entry) := by
  have hmodules : ∀ part ∈ modules, part.points ≠ [] := by decide
  rw [Bool.eq_iff_iff, isShipped, Bool.and_eq_true, List.any_eq_true, Bool.not_eq_true',
    ← Bool.not_eq_true, decide_eq_true_iff, Wanted, ← any_modules_iff]
  constructor
  · rintro ⟨⟨part, hpart, hnames⟩, htest⟩
    obtain ⟨hjar, hinfix⟩ := (namesModule_iff_of_free (hmodules part hpart) hfree).1 hnames
    exact ⟨hjar, ⟨part, hpart, hinfix⟩, fun h => htest ((isTestJar_iff_suffix hjar hfree).2 h)⟩
  · rintro ⟨hjar, ⟨part, hpart, hinfix⟩, htest⟩
    refine ⟨⟨part, hpart, ?_⟩, fun h => htest ((isTestJar_iff_suffix hjar hfree).1 h)⟩
    exact (namesModule_iff_of_free (hmodules part hpart) hfree).2 ⟨hjar, hinfix⟩

end Jar

/-- **Discovery selects the intended jars.** The classpath is made up of the entries of the first line
with more than ten of them, and the configuration is refused exactly if no line has as many. From
entries without line feeds, the jars of the named modules are kept that are no test jars, in their
order and as often as they occur. -/
theorem Classpath.discovered_jars (directory home : FilePath) (output : String) :
    (∀ es, discover directory home (.printing output) = .ok es ↔ Prints output es) ∧
    ((∃ e, discover directory home (.printing output) = .error e) ↔
      ∀ ls, Lined (output : Text).points ls → ∀ line ∈ ls, ∀ es, HasEntries line es →
        es.length ≤ 10) ∧
    (∀ e, discover directory home (.printing output) = .error e → e.kind = .configuration) ∧
    ∀ entries : List Text, (∀ entry ∈ entries, lineFeed ∉ entry.points) →
      Jar.select entries = entries.filter fun entry => decide (Jar.Wanted entry) := by
  refine ⟨fun es => discover_eq_ok_iff, ?_, ?_, ?_⟩
  · simp [discover_eq_error_iff]
  · intro e he
    rw [(discover_eq_error_iff.1 he).1]
    rfl
  · intro entries hfree
    exact List.filter_congr fun entry hentry => Jar.isShipped_eq (hfree entry hentry)

namespace Classpath

/-- A line of eleven entries behind another one. -/
def sampleOutput : String :=
  "ok\r\n a:b:c:d:e:f:g:h:y.jar:mahout-core-/x.jar:mahout-math-tests.jar \n"

def sampleEntries : List Text :=
  ["a", "b", "c", "d", "e", "f", "g", "h", "y.jar", "mahout-core-/x.jar", "mahout-math-tests.jar"]

/-- One of eleven entries is a jar that is shipped, for the name of its directory. -/
theorem discovered_jars_sampleOutput :
    discover "/work" "/opt/mahout" (.printing sampleOutput) = .ok sampleEntries ∧
      Jar.select sampleEntries = ["mahout-core-/x.jar"] := by
  obtain ⟨hfound, -, -, hselected⟩ := discovered_jars "/work" "/opt/mahout" sampleOutput
  have hprints : Prints sampleOutput sampleEntries := ofOutput?_eq_some_iff.1 (by cbv)
  exact ⟨(hfound _).2 hprints, (hselected _ (by decide)).trans (by decide)⟩

end Classpath

end RowAlgebra
