import RowAlgebra.Error
import RowAlgebra.Json.Access
import RowAlgebra.Json.Parser
import RowAlgebra.Path

/-!
# The home directory

Where the cluster software is installed can be said in four places, which are asked in this order:
an argument, a config file that is named, the default config file of the working directory, and the
environment. A config file that is consulted has the last word, even if it names no directory.
-/

namespace RowAlgebra

/-- What a session finds around it. -/
structure Surroundings where
  /-- The working directory. -/
  directory : FilePath
  /-- The files of the working directory, by name, in the order in which they were written. -/
  files : List (Text × String)
  /-- The home directory that the environment names. -/
  home : Option Text

/-- A place that a path leads to. -/
inductive Place where
  /-- A file or directory that can be reached from the working directory through the given parts. -/
  | inside (parts : List Text)
  /-- A directory outside of the working directory. -/
  | outside
  | nowhere

namespace Surroundings

/-- The text of the file that is reached through the given parts; of two files in one place, the
later one has replaced the earlier one. -/
def contents? (s : Surroundings) (parts : List Text) : Option String :=
  (s.files.reverse.find? fun f => (FilePath.ofText f.1).parts == parts).map Prod.snd

/-- Whether the given parts lead to a directory: the working directory, or one with a file in it. -/
def isDirectory (s : Surroundings) (parts : List Text) : Bool :=
  parts.isEmpty || s.files.any fun f =>
    let own := (FilePath.ofText f.1).parts
    parts.isPrefixOf own && own != parts

/-- The number of bytes of a text that has a byte form. -/
def byteCount (t : Text) : Nat :=
  (t.bytes?.getD []).length

/-- What the system takes for the text that it is given: only what has bytes, and none of them
zero. -/
def taken (t : Text) : Except Error Text :=
  match t.bytes? with
  | none => .error (.fault .encoding)
  | some bytes => if bytes.contains 0 then .error (.fault .value) else .ok (.ofBytes bytes)

/-- Goes on from a place by one part of a path. Only in a directory there is something to look for,
and nothing can be looked for by a part that is too long. -/
def goOn (s : Surroundings) (place : Place) (part : Text) : Except Error Place :=
  let found : Place := match place with
    | .inside parts =>
      if part = ".." then if parts.isEmpty then .outside else .inside parts.dropLast
      else
        let parts := parts ++ [part]
        if s.isDirectory parts || (s.contents? parts).isSome then .inside parts else .nowhere
    | .outside => if part = ".." then .outside else .nowhere
    | .nowhere => .nowhere
  let isDirectory := match place with
    | .inside parts => s.isDirectory parts
    | .outside => true
    | .nowhere => false
  if !isDirectory then .ok .nowhere
  else if FilePath.partLimit < byteCount part then .error (.fault .system)
  else .ok found

/-- The place that a path leads to. There is nothing at a path that the system does not take. -/
def place (s : Surroundings) (path : FilePath) : Except Error Place :=
  match path.parts.mapM taken with
  | .error _ => .ok .nowhere
  | .ok parts =>
    if FilePath.textLimit < byteCount path.text then .error (.fault .system)
    else parts.foldlM s.goOn (if path.root = "" then .inside [] else .outside)

/-- The text of a file, if there is such a file. -/
def file? (s : Surroundings) (path : FilePath) : Except Error (Option String) := do
  match ← s.place path with
  | .inside parts => return s.contents? parts
  | .outside | .nowhere => return none

end Surroundings

namespace Home

def defaultConfigFile : FilePath := ".drmplan_session.json"

/-- What a config file says about the home directory, `null` if it says nothing. -/
def ofConfig (path : FilePath) (contents : String) : Except Error Json.Value :=
  match Json.parse contents with
  | .error (.fault .jsonDecode) => .error (.configNotJson path.text)
  | .error e => .error e
  | .ok (.object fields) => .ok ((Json.Value.fieldIn? "mahout_home" fields).getD .null)
  | .ok _ => .error (.configNotObject path.text)

/-- The directory that a source provides. -/
def directory : Json.Value → Except Error FilePath
  | .text s => if s.isEmpty then .error .homeRequired else .ok (.ofText s)
  | v => if v.isGiven then .error (.fault .type) else .error .homeRequired

/-- The home directory, from the first source that is asked. An empty argument or file name counts
as none. -/
def resolve (around : Surroundings) (argument configFile : Text) : Except Error FilePath :=
  if !argument.isEmpty then .ok (.ofText argument)
  else if !configFile.isEmpty then do
    let path := FilePath.ofText configFile
    match ← around.file? path with
    | none => throw (.configMissing path.text around.directory.text)
    | some contents => directory (← ofConfig path contents)
  else do
    match ← around.file? defaultConfigFile with
    | some contents => directory (← ofConfig defaultConfigFile contents)
    | none => directory (around.home.elim .null fun s => .text s)

end Home

end RowAlgebra
