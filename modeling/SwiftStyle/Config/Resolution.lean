import SwiftStyle.Config.Toml
import SwiftStyle.Files.Tree

/-!
# Config/Resolution — which configuration file counts

In this order: the file that was asked for, the files of the project directory, the file of the
global directory. The first that is there is used and no other is looked at; without any, the
defaults hold. A file that was asked for is used even if it is not there, and then reading it fails.
-/

namespace SwiftStyle

/-- The environment variables that matter. -/
structure Environment where
  /-- The global directory, when it is set. -/
  configDirectory : Option String := none
  /-- The home directory. -/
  home : Option String := none
deriving DecidableEq, Repr

/-- Where a configuration comes from. -/
inductive ConfigSource
  | explicit (path : Path)
  | project (path : Path)
  | global (path : Path)
  | default
deriving DecidableEq, Repr

namespace ConfigSource

/-- The file of a source. -/
def path? : ConfigSource → Option Path
  | explicit path | project path | global path => some path
  | default => none

/-- The word for a source. -/
def text : ConfigSource → String
  | explicit _ => "explicit"
  | project _ => "project"
  | global _ => "global"
  | default => "default"

end ConfigSource

/-- Why there is no configuration. -/
inductive ConfigError
  | unreadable (path : Path) (cause : FileError)
  | malformed
deriving DecidableEq, Repr

/-- The wording of a configuration error. -/
def ConfigError.message : ConfigError → String
  | unreadable path cause => s!"Failed to read config file {path.text}: {cause.message}"
  | malformed => "Failed to parse config"

/-- The wording of a configuration error with what caused it. -/
def ConfigError.chain : ConfigError → String
  | unreadable path cause => (unreadable path cause).message ++ ": " ++ cause.message
  | malformed => malformed.message

/-- A configuration file with the error that it led to. -/
structure ConfigLoadError where
  path : Path
  cause : ConfigError
deriving DecidableEq, Repr

/-- The wording of the error with what caused it. -/
def ConfigLoadError.chain (e : ConfigLoadError) : String :=
  s!"Failed to load config: {e.path.text}: {e.cause.chain}"

namespace Config

/-- The names of configuration files in a project directory, the first one first. -/
def projectNames : List Path := [⟨"tidemark.toml"⟩, ⟨".tidemark.toml"⟩]

/-- The name of the configuration file in the global directory. -/
def globalName : Path := ⟨"config.toml"⟩

/-- The global directory: the one that is set, or else the one in the home directory. -/
def globalDirectory? (env : Environment) : Option Path :=
  match env.configDirectory with
  | some directory => some ⟨directory⟩
  | none => env.home.map fun home => Path.join ⟨home⟩ ⟨".tidemark"⟩

/-- **The source of the configuration.** -/
def resolve (t : FileTree) (env : Environment) (project : Path) (explicit : Option Path) :
    ConfigSource :=
  match explicit with
  | some path => .explicit path
  | none =>
      match (projectNames.map project.join).find? t.isFile with
      | some path => .project path
      | none =>
          match ((globalDirectory? env).map (·.join globalName)).filter t.isFile with
          | some path => .global path
          | none => .default

/-- The configuration of a file. -/
def ofFile (t : FileTree) (path : Path) : Except ConfigError Config :=
  match t.readText path with
  | .error cause => .error (.unreadable path cause)
  | .ok text =>
      match parse? text with
      | some config => .ok config
      | none => .error .malformed

/-- **The configuration that counts**, or the defaults when there is no file. -/
def load (t : FileTree) (env : Environment) (project : Path) (explicit : Option Path) :
    Except ConfigLoadError Config :=
  match (resolve t env project explicit).path? with
  | none => .ok {}
  | some path => (ofFile t path).mapError fun cause => ⟨path, cause⟩

end Config

end SwiftStyle
