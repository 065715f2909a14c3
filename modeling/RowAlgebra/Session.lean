import RowAlgebra.Json.Writer
import RowAlgebra.Manager
import RowAlgebra.Session.Classpath
import RowAlgebra.Session.Home

/-!
# Sessions

A session bundles a configuration with a manager. Sessions are registered in a `Pool` under their
name; a name that is taken gets a counter behind it. As long as there is just one session in the
pool it is the current one.
-/

namespace RowAlgebra

structure SessionConfig where
  masterUrl : Text
  appName : Text
  jars : List Text
  settings : List (Text × Text)

namespace SessionConfig

/-- The master of sessions that run in this process and need no installation. -/
def localMaster : Text := "local"

def isLocal (c : SessionConfig) : Bool :=
  c.masterUrl == localMaster

def setting? (c : SessionConfig) (name : Text) : Option Text :=
  (c.settings.find? fun s => s.1 == name).map Prod.snd

def defaultSettings : List (Text × Text) :=
  [("spark.serializer", "org.apache.spark.serializer.KryoSerializer"),
    ("spark.kryo.registrator", "org.apache.mahout.sparkbindings.io.MahoutKryoRegistrator")]

def toJson (c : SessionConfig) : Json.Value :=
  .object [
    ("master_url", .text c.masterUrl),
    ("app_name", .text c.appName),
    ("jars", .list (c.jars.map .text)),
    ("settings", .object (c.settings.foldl settingInto []))]
where
  /-- Adds a setting, or replaces an earlier one of the same name. -/
  settingInto (fields : List (Text × Json.Value)) (setting : Text × Text) :
      List (Text × Json.Value) :=
    Json.Value.setField setting.1 (.text setting.2) fields

end SessionConfig

structure SessionRequest where
  masterUrl : Text
  appName : Text
  customJars : List Text
  /-- The home directory and the config file; an empty one is not given. -/
  home : Text
  configFile : Text

namespace SessionRequest

/-- The jars that the workers of a session need. -/
def jars (r : SessionRequest) (around : Surroundings) (script : FilePath → Script) :
    Except Error (List Text) := do
  if r.masterUrl == SessionConfig.localMaster then return []
  else
    let home ← Home.resolve around r.home r.configFile
    let _ ← around.place (Classpath.script home)
    let classpath ← Classpath.discover around.directory home (script home)
    return Jar.select classpath ++ r.customJars

/-- The configuration of a session. -/
def config (r : SessionRequest) (around : Surroundings) (script : FilePath → Script) :
    Except Error SessionConfig := do
  return ⟨r.masterUrl, r.appName, ← r.jars around script, SessionConfig.defaultSettings⟩

end SessionRequest

abbrev ManagerId := Nat

abbrev SessionId := Nat

structure Session where
  config : SessionConfig
  library : LibraryId
  manager : ManagerId
  closed : Bool

namespace Session

def display (s : Session) : Text :=
  "DrmSession(" ++ s.config.appName ++ " @ " ++ s.config.masterUrl ++ ")"

/-- The manager of a session that is open. -/
def manager? (s : Session) : Except Error ManagerId :=
  if s.closed then .error (.sessionClosed s.config.appName) else .ok s.manager

/-- A session over a library, whose manager has to execute with that library. -/
def join (config : SessionConfig) (library : LibraryId) (manager : ManagerId)
    (managerLibrary : LibraryId) : Except Error Session :=
  if managerLibrary = library then .ok ⟨config, library, manager, false⟩
  else .error .foreignLibrary

end Session

/-! ## The pool -/

/-- The registered sessions, by key, in the order of registration. -/
structure Pool where
  entries : List (Text × SessionId)

namespace Pool

def empty : Pool := ⟨[]⟩

def isEmpty (p : Pool) : Bool :=
  p.entries.isEmpty

def size (p : Pool) : Nat :=
  p.entries.length

def contains (p : Pool) (key : Text) : Bool :=
  p.entries.any fun e => e.1 == key

/-- The key with a counter behind it. -/
def numbered (key : Text) (k : Nat) : Text :=
  key ++ " - " ++ toString k

/-- The first free key among `key - k`, `key - (k + 1)`, …, of which `fuel` are tried. -/
def freeFrom (p : Pool) (key : Text) : Nat → Nat → Text
  | 0, k => numbered key k
  | fuel + 1, k =>
    if p.contains (numbered key k) then freeFrom p key fuel (k + 1) else numbered key k

/-- The key under which a session can be registered: the key itself, or the first free one with a
counter from two on. No more than all keys can be taken. -/
def freeKey (p : Pool) (key : Text) : Text :=
  if p.contains key then p.freeFrom key p.size 2 else key

def register (p : Pool) (key : Text) (session : SessionId) : Text × Pool :=
  let key := p.freeKey key
  (key, ⟨p.entries ++ [(key, session)]⟩)

def retrieve (p : Pool) (key : Text) : Except Error SessionId :=
  match p.entries.find? fun e => e.1 == key with
  | some e => .ok e.2
  | none => .error (.fault .key)

def remove (p : Pool) (session : SessionId) : Pool :=
  ⟨p.entries.filter fun e => e.2 != session⟩

/-- The only session of the pool. -/
def current (p : Pool) : Except Error SessionId :=
  match p.entries with
  | [] => .error .noSession
  | [e] => .ok e.2
  | es => .error (.severalSessions (es.map Prod.fst))

end Pool

end RowAlgebra
