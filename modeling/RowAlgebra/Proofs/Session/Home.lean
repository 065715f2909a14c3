import RowAlgebra.Proofs.Json.ReadBack
import RowAlgebra.Proofs.Json.Refusals
import RowAlgebra.Session.Home

/-!
# Which source provides the home directory

Each of the four sources says something about the home directory (`Saying`): it provides one, it says
nothing, or it is wrong. The first source that says anything should decide (`promised`). The search
departs from that in two ways (`resolve_promised`): a config file that it comes to has the last word,
even if it says nothing (`LastWord`), and some files fail with an error that is no complaint about the
configuration (`Trouble`).
-/

namespace RowAlgebra

/-! ## Files -/

namespace Surroundings

/-- The only trouble with going on is a part that is too long. -/
theorem goOn_fails (s : Surroundings) (place : Place) (part : Text) :
    Fails (s.goOn place part) (· = .fault .system) :=
  .ite (.ok _) (.ite rfl (.ok _))

theorem place_fails (s : Surroundings) (path : FilePath) :
    Fails (s.place path) (· = .fault .system) := by
  unfold place
  split
  · exact .ok _
  · exact .ite rfl (.foldlM s.goOn_fails _ _)

/-- The only trouble with looking for a file is a name that is too long. -/
theorem file?_error {s : Surroundings} {path : FilePath} {e : Error}
    (h : s.file? path = .error e) : e = .fault .system := by
  refine Ends.of_error ((s.place_fails path).bind fun place => ?_) h
  cases place <;> exact .ok _

/-- A file in the working directory whose name the system takes can be looked for. -/
theorem file?_ofPart (s : Surroundings) {part : Text} (hdots : part ≠ "..")
    (htaken : taken part = .ok part) (hpart : byteCount part ≤ FilePath.partLimit)
    (hpath : byteCount (FilePath.text ⟨"", [part]⟩) ≤ FilePath.textLimit) :
    s.file? ⟨"", [part]⟩ = .ok (s.contents? [part]) := by
  have hparts : [part].mapM taken = .ok [part] := by
    rw [List.mapM_cons, htaken]
    rfl
  have hroot : s.isDirectory [] = true := rfl
  have hgo : s.goOn (.inside []) part =
      .ok (if s.isDirectory [part] || (s.contents? [part]).isSome then .inside [part]
        else .nowhere) := by
    simp [goOn, hroot, hdots, Nat.not_lt.2 hpart]
  have hplace : s.place ⟨"", [part]⟩ =
      .ok (if s.isDirectory [part] || (s.contents? [part]).isSome then .inside [part]
        else .nowhere) := by
    simp only [place, hparts, if_neg (Nat.not_lt.2 hpath)]
    simp [hgo]
  rw [file?, hplace]
  by_cases hfound : s.isDirectory [part] || (s.contents? [part]).isSome
  · rw [if_pos hfound]
    rfl
  · have hnone : s.contents? [part] = none := by simp_all
    rw [if_neg hfound, hnone]
    rfl

end Surroundings

namespace Home

open Json (Value)

variable {around : Surroundings} {argument configFile : Text} {path : FilePath}
  {contents : String} {kind : ErrorKind}

/-- The name of the default config file is not too long. -/
theorem file?_default (around : Surroundings) :
    around.file? defaultConfigFile = .ok (around.contents? [".drmplan_session.json"]) :=
  around.file?_ofPart (by decide) (by rfl) (by decide) (by decide)

/-! ## What the sources say -/

/-- What a source says about the home directory. -/
inductive Saying where
  | provides (directory : Text)
  | nothing
  /-- The source is malformed, or it has been named and is not there. -/
  | wrong

namespace Saying

/-- An empty text says nothing. -/
def ofText (t : Text) : Saying :=
  if t.isEmpty then .nothing else .provides t

/-- What a config file says: it has to be an object, and its home directory a text. -/
def ofContents (contents : String) : Saying :=
  match Json.parse contents with
  | .ok (.object fields) =>
    match Value.fieldIn? "mahout_home" fields with
    | none => .nothing
    | some (.text t) => .ofText t
    | some _ => .wrong
  | _ => .wrong

/-- A config file that has been named says that it is there. -/
def ofNamed (around : Surroundings) (configFile : Text) : Saying :=
  if configFile.isEmpty then .nothing
  else
    match around.file? (.ofText configFile) with
    | .ok (some contents) => .ofContents contents
    | _ => .wrong

def ofDefault (around : Surroundings) : Saying :=
  match around.file? defaultConfigFile with
  | .ok (some contents) => .ofContents contents
  | _ => .nothing

/-- The directory that the first source provides that says anything. -/
def decision : List Saying → Option FilePath
  | [] => none
  | .provides t :: _ => some (.ofText t)
  | .nothing :: rest => decision rest
  | .wrong :: _ => none

end Saying

/-- The home directory that the four sources provide, if they are asked one after another. -/
def promised (around : Surroundings) (argument configFile : Text) : Option FilePath :=
  Saying.decision [.ofText argument, .ofNamed around configFile, .ofDefault around,
    around.home.elim .nothing .ofText]

/-- The search comes to what the sources provide, and refuses the configuration if they provide
nothing. -/
def AsPromised (around : Surroundings) (argument configFile : Text) : Prop :=
  Ends (resolve around argument configFile)
    (fun home => promised around argument configFile = some home)
    fun e => promised around argument configFile = none ∧ e.kind = .configuration

/-! ## Where the search departs from that -/

/-- The only config file that the search comes to. -/
def configPath (configFile : Text) : FilePath :=
  if configFile.isEmpty then defaultConfigFile else .ofText configFile

/-- The search comes to a config file that says nothing, and asks no other source. -/
def LastWord (around : Surroundings) (argument configFile : Text) : Prop :=
  argument.isEmpty ∧ ∃ contents,
    around.file? (configPath configFile) = .ok (some contents) ∧ Saying.ofContents contents = .nothing

/-- The ways in which the contents of a config file are taken that are no complaint about the
configuration. -/
inductive Unread (contents : String) : ErrorKind → Prop where
  | tooDeep : Json.parse contents = .error (.fault .recursion) → Unread contents .recursion
  | tooLong : Json.parse contents = .error (.fault .value) → Unread contents .value
  | noText {fields : List (Text × Value)} {v : Value} :
      Json.parse contents = .ok (.object fields) → Value.fieldIn? "mahout_home" fields = some v →
      (∀ t, v ≠ .text t) → v.isGiven → Unread contents .type

/-- The search comes to a config file that it cannot look for or cannot read, and fails with an error
of the given kind. -/
def Trouble (around : Surroundings) (argument configFile : Text) (kind : ErrorKind) : Prop :=
  argument.isEmpty ∧
    (around.file? (configPath configFile) = .error (.fault kind) ∨ ∃ contents,
      around.file? (configPath configFile) = .ok (some contents) ∧ Unread contents kind)

/-! ### Contents of a config file -/

theorem Saying.ofContents_of_field {fields : List (Text × Value)} {v : Value}
    (hparse : Json.parse contents = .ok (.object fields))
    (hfield : Value.fieldIn? "mahout_home" fields = some v) (htext : ∀ t, v ≠ .text t) :
    ofContents contents = .wrong := by
  simp only [ofContents, hparse, hfield]

theorem Unread.wrong (h : Unread contents kind) : Saying.ofContents contents = .wrong := by
  cases h with
  | tooDeep hparse => rw [Saying.ofContents, hparse]
  | tooLong hparse => rw [Saying.ofContents, hparse]
  | noText hparse hfield htext _ => exact Saying.ofContents_of_field hparse hfield htext

/-- Contents are unread for one reason at most. -/
theorem Unread.unique {other : ErrorKind} (h : Unread contents kind)
    (hother : Unread contents other) : kind = other := by
  cases h <;> cases hother <;> simp_all

/-- What becomes of the search if it comes to the given contents: it finds a directory, the contents
are unread, or the search is refused. -/
inductive Fate (contents : String) : Except Error FilePath → Prop where
  | found {t : Text} : Saying.ofContents contents = .provides t → Fate contents (.ok (.ofText t))
  | unread {e : Error} : Unread contents e.kind → Fate contents (.error e)
  | refused {e : Error} : e.kind = .configuration →
      (∀ t, Saying.ofContents contents ≠ .provides t) → (∀ kind, ¬Unread contents kind) →
      Fate contents (.error e)

/-- Contents that are not a JSON object are refused, unless they cannot be read. -/
theorem fate_of_error {e : Error} (hparse : Json.parse contents = .error e) :
    Fate contents (ofConfig path contents >>= directory) := by
  rw [ofConfig, hparse]
  cases Json.parse_refusal hparse with
  | malformed =>
    refine .refused rfl (fun t => ?_) ?_
    · simp [Saying.ofContents, hparse]
    · rintro _ (h | h | h) <;> simp [hparse] at h
  | tooDeep => exact .unread (.tooDeep hparse)
  | tooLong => exact .unread (.tooLong hparse)

section

variable {fields : List (Text × Value)} (hparse : Json.parse contents = .ok (.object fields))
include hparse

theorem search_of_object : ofConfig path contents >>= directory =
    directory ((Value.fieldIn? "mahout_home" fields).getD .null) := by
  rw [ofConfig, hparse]
  rfl

theorem fate_of_no_field (hfield : Value.fieldIn? "mahout_home" fields = none) :
    Fate contents (ofConfig path contents >>= directory) := by
  rw [search_of_object hparse, hfield]
  refine .refused rfl (fun t => ?_) ?_
  · simp [Saying.ofContents, hparse, hfield]
  · rintro _ (h | h | ⟨h, hother, -, -⟩) <;> simp_all

theorem fate_of_text {t : Text} (hfield : Value.fieldIn? "mahout_home" fields = some (.text t)) :
    Fate contents (ofConfig path contents >>= directory) := by
  have hsaying : Saying.ofContents contents = .ofText t := by
    simp only [Saying.ofContents, hparse, hfield]
  rw [search_of_object hparse, hfield, Option.getD_some]
  by_cases hempty : t.isEmpty
  · have hdirectory : directory (.text t) = .error .homeRequired := if_pos hempty
    have hnothing : Saying.ofContents contents = .nothing := hsaying.trans (if_pos hempty)
    rw [hdirectory]
    refine .refused rfl (fun t => by simp [hnothing]) fun kind hunread => ?_
    cases hnothing.symm.trans hunread.wrong
  · have hdirectory : directory (.text t) = .ok (.ofText t) := if_neg hempty
    rw [hdirectory]
    exact .found (hsaying.trans (if_neg hempty))

/-- A value that is no text is only told from none if it counts as given. -/
theorem fate_of_other {v : Value} (hfield : Value.fieldIn? "mahout_home" fields = some v)
    (hother : ∀ t, v ≠ .text t) : Fate contents (ofConfig path contents >>= directory) := by
  have hwrong := Saying.ofContents_of_field hparse hfield hother
  have hdirectory : directory v =
      if v.isGiven then .error (.fault .type) else .error .homeRequired := by
    cases v with
    | text t => exact absurd rfl (hother t)
    | _ => rfl
  rw [search_of_object hparse, hfield, Option.getD_some, hdirectory]
  split
  · next hgiven => exact .unread (.noText hparse hfield hother hgiven)
  · next hgiven =>
    refine .refused rfl (fun t => by simp [hwrong]) ?_
    rintro _ (h | h | ⟨h, hsame, -, htaken⟩) <;> simp_all

end

/-- Contents that are no object are malformed. -/
theorem fate_of_no_object {v : Value} (hparse : Json.parse contents = .ok v)
    (hobject : ∀ fields, v ≠ .object fields) :
    Fate contents (ofConfig path contents >>= directory) := by
  have hsearch : ofConfig path contents = .error (.configNotObject path.text) := by
    rw [ofConfig, hparse]
    cases v with
    | object fields => exact absurd rfl (hobject fields)
    | _ => rfl
  have hsaying : Saying.ofContents contents = .wrong := by
    rw [Saying.ofContents, hparse]
    cases v with
    | object fields => exact absurd rfl (hobject fields)
    | _ => rfl
  rw [hsearch]
  refine .refused rfl (fun t => by simp [hsaying]) ?_
  rintro _ (h | h | ⟨h, -, -, -⟩)
  · simp [hparse] at h
  · simp [hparse] at h
  · exact hobject _ (Except.ok.inj (hparse.symm.trans h))

theorem fate (path : FilePath) (contents : String) :
    Fate contents (ofConfig path contents >>= directory) := by
  cases hparse : Json.parse contents with
  | error e => exact fate_of_error hparse
  | ok v =>
    by_cases hobject : ∃ fields, v = .object fields
    · obtain ⟨fields, rfl⟩ := hobject
      cases hfield : Value.fieldIn? "mahout_home" fields with
      | none => exact fate_of_no_field hparse hfield
      | some v =>
        by_cases htext : ∃ t, v = .text t
        · obtain ⟨t, rfl⟩ := htext
          exact fate_of_text hparse hfield
        · exact fate_of_other hparse hfield fun t h => htext ⟨t, h⟩
    · exact fate_of_no_object hparse fun fields h => hobject ⟨fields, h⟩

/-! ### All sources -/

/-- How the search goes on from the config file that it has come to, if there is one. -/
def goOnFrom (around : Surroundings) (configFile : Text) : Option String → Except Error FilePath
  | some contents => ofConfig (configPath configFile) contents >>= directory
  | none =>
    if configFile.isEmpty then directory (around.home.elim .null fun s => .text s)
    else .error (.configMissing (configPath configFile).text around.directory.text)

theorem resolve_of_config (h : argument.isEmpty) : resolve around argument configFile =
    around.file? (configPath configFile) >>= goOnFrom around configFile := by
  by_cases hempty : configFile.isEmpty
  · have hpath : configPath configFile = defaultConfigFile := if_pos hempty
    simp only [resolve, hpath, h, hempty, Bool.not_true, Bool.false_eq_true, if_false]
    refine bind_congr fun found => ?_
    cases found with
    | none => exact (if_pos hempty).symm
    | some contents => exact congrArg (fun path => ofConfig path contents >>= directory) hpath.symm
  · have hpath : configPath configFile = .ofText configFile := if_neg hempty
    simp only [resolve, hpath, h, hempty, Bool.not_true, Bool.not_false, Bool.false_eq_true,
      if_false, if_true]
    refine bind_congr fun found => ?_
    cases found with
    | none =>
      refine Eq.trans ?_ (if_neg hempty).symm
      rw [hpath]
      rfl
    | some contents => exact congrArg (fun path => ofConfig path contents >>= directory) hpath.symm

/-- The config file that the search comes to is the first source that could say anything. -/
theorem promised_of_contents (h : argument.isEmpty)
    (hfile : around.file? (configPath configFile) = .ok (some contents)) :
    ∃ rest, promised around argument configFile =
      Saying.decision (.ofContents contents :: rest) := by
  rw [promised, Saying.ofText, if_pos h, Saying.decision, Saying.ofNamed]
  by_cases hempty : configFile.isEmpty
  · rw [configPath, if_pos hempty] at hfile
    exact ⟨_, by rw [if_pos hempty, Saying.decision, Saying.ofDefault, hfile]⟩
  · rw [configPath, if_neg hempty] at hfile
    exact ⟨_, by rw [if_neg hempty, hfile]⟩

/-- A config file that has been named and is not there is wrong, and the default one need not be
there. -/
theorem promised_of_missing (h : argument.isEmpty)
    (hfile : around.file? (configPath configFile) = .ok none) :
    promised around argument configFile =
      if configFile.isEmpty then Saying.decision [around.home.elim .nothing .ofText] else none := by
  rw [promised, Saying.ofText, if_pos h, Saying.decision, Saying.ofNamed]
  by_cases hempty : configFile.isEmpty
  · rw [configPath, if_pos hempty] at hfile
    rw [if_pos hempty, if_pos hempty, Saying.decision, Saying.ofDefault, hfile, Saying.decision]
  · rw [configPath, if_neg hempty] at hfile
    rw [if_neg hempty, if_neg hempty, hfile, Saying.decision]

/-- Only a config file that has been named can be impossible to look for. -/
theorem promised_of_error {e : Error} (h : argument.isEmpty)
    (hfile : around.file? (configPath configFile) = .error e) :
    promised around argument configFile = none := by
  rw [promised, Saying.ofText, if_pos h, Saying.decision, Saying.ofNamed]
  by_cases hempty : configFile.isEmpty
  · rw [configPath, if_pos hempty, file?_default] at hfile
    cases hfile
  · rw [configPath, if_neg hempty] at hfile
    rw [if_neg hempty, hfile, Saying.decision]

theorem not_lastWord_of_missing (hfile : around.file? (configPath configFile) = .ok none) :
    ¬LastWord around argument configFile := by
  rintro ⟨-, contents, hcontents, -⟩
  cases hfile.symm.trans hcontents

theorem not_trouble_of_missing (hfile : around.file? (configPath configFile) = .ok none)
    (kind : ErrorKind) : ¬Trouble around argument configFile kind := by
  rintro ⟨-, herror | ⟨contents, hcontents, -⟩⟩
  · cases hfile.symm.trans herror
  · cases hfile.symm.trans hcontents

theorem trouble_of_contents (h : argument.isEmpty)
    (hfile : around.file? (configPath configFile) = .ok (some contents)) :
    Trouble around argument configFile kind ↔ Unread contents kind := by
  constructor
  · rintro ⟨-, herror | ⟨other, hother, hunread⟩⟩
    · cases hfile.symm.trans herror
    · obtain rfl : contents = other := by simpa [hfile] using hother
      exact hunread
  · exact fun hunread => ⟨h, .inr ⟨contents, hfile, hunread⟩⟩

theorem lastWord_of_contents (h : argument.isEmpty)
    (hfile : around.file? (configPath configFile) = .ok (some contents)) :
    LastWord around argument configFile ↔ Saying.ofContents contents = .nothing := by
  constructor
  · rintro ⟨-, other, hother, hnothing⟩
    obtain rfl : contents = other := by simpa [hfile] using hother
    exact hnothing
  · exact fun hnothing => ⟨h, contents, hfile, hnothing⟩

theorem Trouble.unique {other : ErrorKind} (h : Trouble around argument configFile kind)
    (hother : Trouble around argument configFile other) : kind = other := by
  obtain ⟨hargument, herror | ⟨contents, hcontents, hunread⟩⟩ := h
  · obtain ⟨-, herror' | ⟨contents, hcontents, -⟩⟩ := hother
    · have heq := herror.symm.trans herror'
      injection heq with heq
      injection heq
    · cases herror.symm.trans hcontents
  · exact hunread.unique ((trouble_of_contents hargument hcontents).1 hother)

theorem Trouble.kind_mem (h : Trouble around argument configFile kind) :
    kind ∈ [ErrorKind.system, .recursion, .value, .type] := by
  obtain ⟨-, herror | ⟨contents, -, hunread⟩⟩ := h
  · have := Surroundings.file?_error herror
    injection this with hkind
    simp [hkind]
  · cases hunread <;> simp

/-- The environment is asked last, and cannot be wrong. -/
theorem environment_ends (home : Option Text) :
    Ends (directory (home.elim .null fun s => .text s))
      (fun p => Saying.decision [home.elim .nothing .ofText] = some p)
      fun e => e.kind = .configuration ∧ Saying.decision [home.elim .nothing .ofText] = none := by
  cases home with
  | none => exact ⟨rfl, rfl⟩
  | some t =>
    rw [Option.elim_some, Option.elim_some, Saying.ofText, directory]
    split
    · exact ⟨rfl, rfl⟩
    · rfl

section

variable (h : argument.isEmpty)
include h

/-- How the search ends if there is no config file where it looks for one. -/
theorem resolve_of_missing (hfile : around.file? (configPath configFile) = .ok none) :
    Ends (resolve around argument configFile)
      (fun home => promised around argument configFile = some home)
      fun e => e.kind = .configuration ∧ promised around argument configFile = none := by
  rw [resolve_of_config h, promised_of_missing h hfile, hfile]
  change Ends (goOnFrom around configFile none) _ _
  by_cases hempty : configFile.isEmpty
  · simp only [goOnFrom, hempty, if_true]
    exact environment_ends around.home
  · simp only [goOnFrom, hempty]
    exact ⟨rfl, rfl⟩

/-- How the search ends if it comes to a config file. -/
theorem resolve_of_contents
    (hfile : around.file? (configPath configFile) = .ok (some contents)) :
    Ends (resolve around argument configFile)
      (fun home => promised around argument configFile = some home ∧
        ∃ t, Saying.ofContents contents = .provides t)
      fun e => Unread contents e.kind ∧ promised around argument configFile = none ∨
        e.kind = .configuration ∧ (promised around argument configFile = none ∨
          Saying.ofContents contents = .nothing) ∧ ∀ kind, ¬Unread contents kind := by
  obtain ⟨rest, hpromised⟩ := promised_of_contents h hfile
  have hresolve : resolve around argument configFile =
      ofConfig (configPath configFile) contents >>= directory := by
    rw [resolve_of_config h, hfile]
    rfl
  have hfate := fate (configPath configFile) contents
  rw [hresolve, hpromised]
  generalize ofConfig (configPath configFile) contents >>= directory = search at hfate
  cases hfate with
  | found hsaying =>
    refine ⟨?_, _, hsaying⟩
    rw [hsaying, Saying.decision]
  | unread hunread =>
    refine .inl ⟨hunread, ?_⟩
    rw [hunread.wrong, Saying.decision]
  | refused hkind hsaying hread =>
    refine .inr ⟨hkind, ?_, hread⟩
    cases hother : Saying.ofContents contents with
    | provides t => exact absurd hother (hsaying t)
    | nothing => exact .inr rfl
    | wrong => exact .inl rfl

/-- How the search ends if it cannot look for a config file. -/
theorem resolve_of_error (hfile : around.file? (configPath configFile) = .error (.fault .system)) :
    resolve around argument configFile = .error (.fault .system) ∧
      Trouble around argument configFile .system ∧ promised around argument configFile = none ∧
      ¬LastWord around argument configFile := by
  refine ⟨?_, ⟨h, .inl hfile⟩, promised_of_error h hfile, ?_⟩
  · rw [resolve_of_config h, hfile]
    rfl
  · rintro ⟨-, contents, hcontents, -⟩
    cases hfile.symm.trans hcontents

end

/-- An argument settles the search. -/
theorem resolve_of_argument (h : ¬argument.isEmpty) :
    resolve around argument configFile = .ok (.ofText argument) ∧
      promised around argument configFile = some (.ofText argument) := by
  constructor
  · rw [resolve, if_pos (by simpa using h)]
  · rw [promised, Saying.ofText, if_neg h, Saying.decision]

/-- How the search ends, against what the sources say. -/
theorem resolve_ends (around : Surroundings) (argument configFile : Text) :
    Ends (resolve around argument configFile)
      (fun home => promised around argument configFile = some home ∧
        ¬LastWord around argument configFile ∧ ∀ kind, ¬Trouble around argument configFile kind)
      fun e => Trouble around argument configFile e.kind ∧
          promised around argument configFile = none ∧ ¬LastWord around argument configFile ∨
        e.kind = .configuration ∧ (promised around argument configFile = none ∨
          LastWord around argument configFile) ∧
          ∀ kind, ¬Trouble around argument configFile kind := by
  by_cases h : argument.isEmpty
  · cases hfile : around.file? (configPath configFile) with
    | error e =>
      obtain rfl := Surroundings.file?_error hfile
      obtain ⟨hresolve, hends⟩ := resolve_of_error h hfile
      rw [hresolve]
      exact .inl hends
    | ok found =>
      cases found with
      | none =>
        have hlast : ¬LastWord around argument configFile := not_lastWord_of_missing hfile
        have htrouble : ∀ kind, ¬Trouble around argument configFile kind :=
          not_trouble_of_missing hfile
        refine ((resolve_of_missing h hfile).imp fun home hhome => ?_).mapBad fun e he => ?_
        · exact ⟨hhome, hlast, htrouble⟩
        · exact .inr ⟨he.1, .inl he.2, htrouble⟩
      | some contents =>
        simp only [trouble_of_contents h hfile, lastWord_of_contents h hfile]
        refine ((resolve_of_contents h hfile).imp fun home hhome => ?_).mapBad fun e he => ?_
        · obtain ⟨hpromised, t, hsaying⟩ := hhome
          refine ⟨hpromised, by simp [hsaying], fun kind hunread => ?_⟩
          cases hsaying.symm.trans hunread.wrong
        · obtain ⟨hunread, hpromised⟩ | ⟨hkind, hother, hread⟩ := he
          · exact .inl ⟨hunread, hpromised, by simp [hunread.wrong]⟩
          · exact .inr ⟨hkind, hother, hread⟩
  · obtain ⟨hfound, hpromised⟩ := resolve_of_argument h
    rw [hfound]
    exact ⟨hpromised, fun hlast => h hlast.1, fun kind htrouble => h htrouble.1⟩

/-- The search departs from what the sources provide in two ways only: a config file that says nothing
hides a directory, or there is trouble with a config file. -/
theorem asPromised_iff : AsPromised around argument configFile ↔
    (LastWord around argument configFile → promised around argument configFile = none) ∧
      ∀ kind, ¬Trouble around argument configFile kind := by
  have hends := resolve_ends around argument configFile
  rw [AsPromised]
  cases hresolve : resolve around argument configFile with
  | ok home =>
    obtain ⟨hpromised, hlast, htrouble⟩ := hends.of_ok hresolve
    exact ⟨fun _ => ⟨fun h => absurd h hlast, htrouble⟩, fun _ => hpromised⟩
  | error e =>
    constructor
    · rintro ⟨hpromised, hkind⟩
      obtain ⟨htrouble, -, -⟩ | ⟨-, -, htrouble⟩ := hends.of_error hresolve
      · have := htrouble.kind_mem
        simp [hkind] at this
      · exact ⟨fun _ => hpromised, htrouble⟩
    · rintro ⟨hlast, htrouble⟩
      obtain ⟨h, -, -⟩ | ⟨hkind, hnone, -⟩ := hends.of_error hresolve
      · exact absurd h (htrouble _)
      · exact ⟨hnone.elim id hlast, hkind⟩

theorem resolve_eq_ok_iff {home : FilePath} : resolve around argument configFile = .ok home ↔
    promised around argument configFile = some home ∧ ¬LastWord around argument configFile := by
  have hends := resolve_ends around argument configFile
  cases hresolve : resolve around argument configFile with
  | ok found =>
    obtain ⟨hpromised, hlast, -⟩ := hends.of_ok hresolve
    simp [hpromised, hlast]
  | error e =>
    obtain ⟨-, hnone, -⟩ | ⟨-, hnone | hlast, -⟩ := hends.of_error hresolve
    · simp [hnone]
    · simp [hnone]
    · simp [hlast]

theorem resolve_kind_iff : (∃ e, resolve around argument configFile = .error e ∧ e.kind = kind) ↔
    Trouble around argument configFile kind ∨
      kind = .configuration ∧ (promised around argument configFile = none ∨
        LastWord around argument configFile) ∧
        ∀ other, ¬Trouble around argument configFile other := by
  have hends := resolve_ends around argument configFile
  constructor
  · rintro ⟨e, hresolve, rfl⟩
    obtain ⟨htrouble, -, -⟩ | hrefused := hends.of_error hresolve
    · exact .inl htrouble
    · exact .inr hrefused
  · intro h
    cases hresolve : resolve around argument configFile with
    | ok home =>
      obtain ⟨hpromised, hlast, hno⟩ := hends.of_ok hresolve
      obtain htrouble | ⟨-, hnone | h, -⟩ := h
      · exact absurd htrouble (hno kind)
      · cases hpromised.symm.trans hnone
      · exact absurd h hlast
    | error e =>
      refine ⟨e, rfl, ?_⟩
      obtain ⟨htrouble, -, -⟩ | ⟨hkind, -, hno⟩ := hends.of_error hresolve
      · obtain h | ⟨-, -, hno⟩ := h
        · exact htrouble.unique h
        · exact absurd htrouble (hno _)
      · obtain h | ⟨h, -, -⟩ := h
        · exact absurd h (hno kind)
        · exact hkind.trans h.symm

/-- **The sources decide in order, except that a config file has the last word.** The search comes to
what the sources provide exactly if it comes to no config file that says nothing where another source
provides a directory, and to none that it cannot look for or read (`asPromised_iff`). In any case, it
finds the directory that the first source provides that says anything, unless it comes to a config
file that says nothing; it fails with an error that is no complaint about the configuration exactly if
it comes to a config file whose name is too long, which is nested too deeply, which holds an integer
of too many digits, or whose home directory is given and is not a text; and it refuses the
configuration in all other cases. -/
theorem resolve_promised (around : Surroundings) (argument configFile : Text) :
    (AsPromised around argument configFile ↔
      (LastWord around argument configFile → promised around argument configFile = none) ∧
        ∀ kind, ¬Trouble around argument configFile kind) ∧
    (∀ home, resolve around argument configFile = .ok home ↔
      promised around argument configFile = some home ∧ ¬LastWord around argument configFile) ∧
    (∀ kind, (∃ e, resolve around argument configFile = .error e ∧ e.kind = kind) ↔
      Trouble around argument configFile kind ∨
        kind = .configuration ∧ (promised around argument configFile = none ∨
          LastWord around argument configFile) ∧
          ∀ other, ¬Trouble around argument configFile other) ∧
    ∀ kind, Trouble around argument configFile kind →
      kind ∈ [ErrorKind.system, .recursion, .value, .type] :=
  ⟨asPromised_iff, fun _ => resolve_eq_ok_iff, fun _ => resolve_kind_iff,
    fun _ => Trouble.kind_mem⟩

/-- A working directory with the given contents of the default config file, in an environment that
names a directory. -/
def configured (contents : String) : Surroundings where
  directory := "/work"
  files := [(".drmplan_session.json", contents)]
  home := some "/opt/mahout"

theorem file?_configured (contents : String) :
    (configured contents).file? defaultConfigFile = .ok (some contents) :=
  file?_default _

theorem resolve_configured {fields : List (Text × Value)}
    (hparse : Json.parse contents = .ok (.object fields)) : resolve (configured contents) "" "" =
      directory ((Value.fieldIn? "mahout_home" fields).getD .null) := by
  have hfile : (configured contents).file? (configPath "") = .ok (some contents) :=
    file?_configured contents
  rw [resolve_of_config rfl, hfile]
  exact search_of_object hparse

theorem parse_empty : Json.parse "\x7b\x7d" = .ok (.object []) := by
  have hportable : (Value.object []).IsPortable := ⟨List.nodup_nil, trivial⟩
  have htext : String.ofList (Value.object []).chars = "\x7b\x7d" := by decide
  rw [← htext, Json.parse_chars hportable (by decide)]

theorem parse_number :
    Json.parse "\x7b\"mahout_home\": 5\x7d" = .ok (.object [("mahout_home", .int 5)]) := by
  have hportable : (Value.object [("mahout_home", .int 5)]).IsPortable :=
    ⟨List.nodup_singleton _, Text.noPairs_ofString _, rfl, trivial⟩
  have htext : String.ofList (Value.object [("mahout_home", .int 5)]).chars =
      "\x7b\"mahout_home\": 5\x7d" := by decide
  rw [← htext, Json.parse_chars hportable (by decide)]

/-- An empty object hides the directory of the environment, and a number is not refused as a part of
the configuration. -/
theorem resolve_unpromised :
    promised (configured "\x7b\x7d") "" "" = some "/opt/mahout" ∧
      resolve (configured "\x7b\x7d") "" "" = .error .homeRequired ∧
      ¬AsPromised (configured "\x7b\x7d") "" "" ∧
      resolve (configured "\x7b\"mahout_home\": 5\x7d") "" "" = .error (.fault .type) ∧
      ¬AsPromised (configured "\x7b\"mahout_home\": 5\x7d") "" "" := by
  have hpromised : promised (configured "\x7b\x7d") "" "" = some "/opt/mahout" := by
    have hdefault : Saying.ofDefault (configured "\x7b\x7d") = .nothing := by
      rw [Saying.ofDefault, file?_configured]
      simp only [Saying.ofContents, parse_empty]
      rfl
    have hnamed : Saying.ofNamed (configured "\x7b\x7d") "" = .nothing := rfl
    rw [promised, hdefault, hnamed]
    rfl
  have hempty : resolve (configured "\x7b\x7d") "" "" = .error .homeRequired :=
    resolve_configured parse_empty
  have hnumber : resolve (configured "\x7b\"mahout_home\": 5\x7d") "" "" =
      .error (.fault .type) := resolve_configured parse_number
  refine ⟨hpromised, hempty, ?_, hnumber, ?_⟩
  · rw [AsPromised, hempty, hpromised]
    rintro ⟨h, -⟩
    cases h
  · rw [AsPromised, hnumber]
    rintro ⟨-, h⟩
    cases h

end Home

end RowAlgebra
