import Mathlib.Data.List.Find
import SwiftStyle.Config.Resolution
import SwiftStyle.Proofs.Files.Tree

/-!
# Proofs/Config/Priority — one source of the configuration counts, and no other

The sources stand in a fixed order (`Config.candidates`), and the first that is available is the
source (`Config.resolve_eq_iff`).  What it gives, a configuration or an error, is the outcome
(`Config.load_eq_iff`).  So a tree of files has an influence only through the candidates before the
source, which must not be files, and through the bytes of the source (`Config.load_unshadowed`).
-/

namespace SwiftStyle

namespace ConfigSource

/-- A source is available: a file that was asked for and the defaults always are, any other file
when it is there. -/
def isAvailable (t : FileTree) : ConfigSource → Bool
  | explicit _ | default => true
  | project path | global path => t.isFile path

theorem isAvailable_congr {t t' : FileTree} {source : ConfigSource}
    (h : ∀ path, source.path? = some path → t'.isFile path = t.isFile path) :
    source.isAvailable t' = source.isAvailable t := by
  cases source with
  | explicit path => rfl
  | default => rfl
  | project path => exact h path rfl
  | global path => exact h path rfl

/-- **What a source gives**: the defaults, the configuration in its file, or an error that names the
file. -/
inductive Gives (t : FileTree) : ConfigSource → Except ConfigLoadError Config → Prop
  | defaults : Gives t .default (.ok {})
  | config {source : ConfigSource} {path : Path} {text : String} {c : Config}
      (leads : source.path? = some path) (read : t.readText path = .ok text)
      (parse : Config.parse? text = some c) : Gives t source (.ok c)
  | unreadable {source : ConfigSource} {path : Path} {cause : FileError}
      (leads : source.path? = some path) (read : t.readText path = .error cause) :
      Gives t source (.error ⟨path, .unreadable path cause⟩)
  | malformed {source : ConfigSource} {path : Path} {text : String}
      (leads : source.path? = some path) (read : t.readText path = .ok text)
      (parse : Config.parse? text = none) : Gives t source (.error ⟨path, .malformed⟩)

/-- **Trees in which its file reads the same** give the source the same outcome. -/
theorem Gives.congr {t t' : FileTree} {source : ConfigSource}
    {outcome : Except ConfigLoadError Config} (h : source.Gives t outcome)
    (hread : ∀ path, source.path? = some path → t'.read path = t.read path) :
    source.Gives t' outcome := by
  cases h with
  | defaults => exact .defaults
  | config leads read parse =>
    exact .config leads ((FileTree.readText_congr (hread _ leads)).trans read) parse
  | unreadable leads read =>
    exact .unreadable leads ((FileTree.readText_congr (hread _ leads)).trans read)
  | malformed leads read parse =>
    exact .malformed leads ((FileTree.readText_congr (hread _ leads)).trans read) parse

/-- **A source gives one outcome.** -/
theorem Gives.unique {t : FileTree} {source : ConfigSource}
    {outcome outcome' : Except ConfigLoadError Config} (h : source.Gives t outcome)
    (h' : source.Gives t outcome') : outcome = outcome' := by
  cases h <;> cases h' <;> simp_all [path?]

end ConfigSource

namespace Config

variable {t t' : FileTree} {env : Environment} {project : Path} {explicit : Option Path}

/-- The configuration file in the global directory: in the directory that is set, or else below the
home directory. -/
def globalFile? (env : Environment) : Option Path :=
  match env.configDirectory, env.home with
  | some directory, _ => some (Path.join ⟨directory⟩ ⟨"config.toml"⟩)
  | none, some home => some (Path.join (Path.join ⟨home⟩ ⟨".tidemark"⟩) ⟨"config.toml"⟩)
  | none, none => none

/-- **The candidates for the source of the configuration**, the first one first. -/
def candidates (env : Environment) (project : Path) (explicit : Option Path) : List ConfigSource :=
  explicit.toList.map .explicit
    ++ [.project (project.join ⟨"tidemark.toml"⟩), .project (project.join ⟨".tidemark.toml"⟩)]
    ++ (globalFile? env).toList.map .global ++ [.default]

theorem map_globalDirectory? (env : Environment) :
    (globalDirectory? env).map (·.join globalName) = globalFile? env := by
  obtain ⟨directory, home⟩ := env
  cases directory <;> cases home <;> rfl

/-- **The source is the first candidate that is available.** -/
theorem find?_candidates (t : FileTree) (env : Environment) (project : Path)
    (explicit : Option Path) :
    (candidates env project explicit).find? (·.isAvailable t)
      = some (resolve t env project explicit) := by
  cases explicit with
  | some path => rfl
  | none =>
    simp only [resolve, candidates, map_globalDirectory?, projectNames]
    cases hfirst : t.isFile (project.join ⟨"tidemark.toml"⟩) with
    | true => simp [ConfigSource.isAvailable, hfirst]
    | false =>
      cases hsecond : t.isFile (project.join ⟨".tidemark.toml"⟩) with
      | true => simp [ConfigSource.isAvailable, hfirst, hsecond]
      | false =>
        cases globalFile? env with
        | none => simp [ConfigSource.isAvailable, hfirst, hsecond]
        | some path =>
          cases hglobal : t.isFile path <;>
            simp [ConfigSource.isAvailable, hfirst, hsecond, hglobal, Option.filter]

theorem resolve_eq_iff {source : ConfigSource} :
    resolve t env project explicit = source ↔
      ∃ before after, candidates env project explicit = before ++ source :: after ∧
        source.isAvailable t = true ∧ ∀ earlier ∈ before, earlier.isAvailable t = false := by
  rw [← Option.some_inj, ← find?_candidates t env project explicit, List.find?_eq_some_iff_append]
  simp only [Bool.not_eq_true']
  constructor
  · rintro ⟨havailable, before, after, hsplit, hbefore⟩
    exact ⟨before, after, hsplit, havailable, hbefore⟩
  · rintro ⟨before, after, hsplit, havailable, hbefore⟩
    exact ⟨havailable, before, after, hsplit, hbefore⟩

/-- The outcome is one that the source gives. -/
theorem gives_load (t : FileTree) (env : Environment) (project : Path) (explicit : Option Path) :
    (resolve t env project explicit).Gives t (load t env project explicit) := by
  rw [load]
  cases hpath : (resolve t env project explicit).path? with
  | none =>
    cases hsource : resolve t env project explicit with
    | default => exact .defaults
    | explicit path | project path | global path => rw [hsource] at hpath; cases hpath
  | some path =>
    cases hread : t.readText path with
    | error cause =>
      simp only [ofFile, hread]
      exact .unreadable hpath hread
    | ok text =>
      cases hparse : parse? text with
      | none =>
        simp only [ofFile, hread, hparse]
        exact .malformed hpath hread hparse
      | some c =>
        simp only [ofFile, hread, hparse]
        exact .config hpath hread hparse

/-- **The outcome is what the source gives.** -/
theorem load_eq_iff {outcome : Except ConfigLoadError Config} :
    load t env project explicit = outcome ↔ (resolve t env project explicit).Gives t outcome :=
  ⟨fun h => h ▸ gives_load t env project explicit,
    (gives_load t env project explicit).unique⟩

/-- **Trees that agree on which candidates are files**, up to the source, have the same source. -/
theorem resolve_congr {before after : List ConfigSource}
    (hsplit : candidates env project explicit
      = before ++ resolve t env project explicit :: after)
    (hbefore : ∀ earlier ∈ before, ∀ path, earlier.path? = some path →
      t'.isFile path = t.isFile path)
    (hsource : ∀ path, (resolve t env project explicit).path? = some path →
      t'.isFile path = t.isFile path) :
    resolve t' env project explicit = resolve t env project explicit := by
  have hfind := find?_candidates t env project explicit
  have hfind' := find?_candidates t' env project explicit
  have hagree : before.find? (·.isAvailable t') = before.find? (·.isAvailable t) :=
    List.find?_congr fun earlier hearlier =>
      ConfigSource.isAvailable_congr (hbefore earlier hearlier)
  have havailable : (resolve t env project explicit).isAvailable t' = true :=
    (ConfigSource.isAvailable_congr hsource).trans (List.find?_some hfind)
  rw [hsplit, List.find?_append] at hfind hfind'
  rw [hagree] at hfind'
  refine Option.some.inj (hfind'.symm.trans ?_)
  cases hfound : before.find? (·.isAvailable t) with
  | none => rw [Option.none_or, List.find?_cons_of_pos havailable]
  | some found =>
    rw [hfound, Option.some_or] at hfind
    rw [Option.some_or, hfind]

/-- **A shadowed configuration has no influence.**  The source is the first available candidate: the
file that was asked for, a file of the project directory, the file of the global directory, or the
defaults.  The outcome is what the source gives, be it an error.  So it is the same in every tree in
which the candidates before the source are files or not as they are here, and the source is read
with the same bytes; where the source cannot be read at all, which can only happen to a file that
was asked for, each tree gives the error of its own. -/
theorem load_unshadowed (t : FileTree) (env : Environment) (project : Path)
    (explicit : Option Path) :
    (∀ source, resolve t env project explicit = source ↔
      ∃ before after, candidates env project explicit = before ++ source :: after ∧
        source.isAvailable t = true ∧ ∀ earlier ∈ before, earlier.isAvailable t = false) ∧
    (∀ outcome, load t env project explicit = outcome ↔
      (resolve t env project explicit).Gives t outcome) ∧
    ∀ t' before after,
      candidates env project explicit = before ++ resolve t env project explicit :: after →
      (∀ earlier ∈ before, ∀ path, earlier.path? = some path → t'.isFile path = t.isFile path) →
      ((∀ path, (resolve t env project explicit).path? = some path → t'.read path = t.read path) →
        load t' env project explicit = load t env project explicit) ∧
      ∀ path cause cause', (resolve t env project explicit).path? = some path →
        t.read path = .error cause → t'.read path = .error cause' →
        load t env project explicit = .error ⟨path, .unreadable path cause⟩ ∧
        load t' env project explicit = .error ⟨path, .unreadable path cause'⟩ := by
  refine ⟨fun source => resolve_eq_iff, fun outcome => load_eq_iff, fun t' before after hsplit
    hfiles => ?_⟩
  refine ⟨fun hread => ?_, fun path cause cause' hpath hread hread' => ?_⟩
  · have hsame := resolve_congr hsplit hfiles fun path hpath =>
      FileTree.isFile_congr (hread path hpath)
    rw [load_eq_iff, hsame]
    exact (gives_load t env project explicit).congr hread
  · have hsame : resolve t' env project explicit = resolve t env project explicit := by
      refine resolve_congr hsplit hfiles fun other hother => ?_
      obtain rfl := Option.some.inj (hpath.symm.trans hother)
      rw [FileTree.isFile_of_read_error hread, FileTree.isFile_of_read_error hread']
    rw [load_eq_iff, load_eq_iff, hsame]
    exact ⟨.unreadable hpath (FileTree.readText_eq_error hread),
      .unreadable hpath (FileTree.readText_eq_error hread')⟩

namespace Shadowed

/-- The global directory is set. -/
def environment : Environment where
  configDirectory := some "/g"

/-- A directory bears the first name of a project file, and the global file is malformed. -/
def tree : FileTree where
  entries := [(["p"], .directory), (["p", "tidemark.toml"], .directory),
    (["p", ".tidemark.toml"], .file "".toUTF8), (["g"], .directory),
    (["g", "config.toml"], .file "[".toUTF8)]

/-- Nothing is there but the second project file. -/
def bare : FileTree where
  entries := [(["p"], .directory), (["p", ".tidemark.toml"], .file "".toUTF8)]

end Shadowed

/-- Neither the directory before the source nor the file behind it counts; and of a file that was
asked for each tree tells why it cannot be read. -/
theorem load_unshadowed_global :
    resolve Shadowed.tree Shadowed.environment ⟨"/p"⟩ none = .project ⟨"/p/.tidemark.toml"⟩ ∧
    load Shadowed.bare Shadowed.environment ⟨"/p"⟩ none
      = load Shadowed.tree Shadowed.environment ⟨"/p"⟩ none ∧
    load Shadowed.tree Shadowed.environment ⟨"/p"⟩ (some ⟨"/p/tidemark.toml"⟩)
      = .error ⟨⟨"/p/tidemark.toml"⟩, .unreadable ⟨"/p/tidemark.toml"⟩ .isDirectory⟩ ∧
    load Shadowed.bare Shadowed.environment ⟨"/p"⟩ (some ⟨"/p/tidemark.toml"⟩)
      = .error ⟨⟨"/p/tidemark.toml"⟩, .unreadable ⟨"/p/tidemark.toml"⟩ .notFound⟩ := by
  obtain ⟨hresolve, -, hproject⟩ := load_unshadowed Shadowed.tree Shadowed.environment ⟨"/p"⟩ none
  obtain ⟨-, -, hasked⟩ :=
    load_unshadowed Shadowed.tree Shadowed.environment ⟨"/p"⟩ (some ⟨"/p/tidemark.toml"⟩)
  have hsource : resolve Shadowed.tree Shadowed.environment ⟨"/p"⟩ none
      = .project ⟨"/p/.tidemark.toml"⟩ :=
    (hresolve _).2 ⟨[.project ⟨"/p/tidemark.toml"⟩], [.global ⟨"/g/config.toml"⟩, .default],
      by decide, by decide +kernel, by decide +kernel⟩
  refine ⟨hsource, ?_, ?_⟩
  · rw [hsource] at hproject
    refine (hproject Shadowed.bare [.project ⟨"/p/tidemark.toml"⟩]
      [.global ⟨"/g/config.toml"⟩, .default] (by decide) ?_).1 ?_
    · rintro _ hmem path hpath
      obtain rfl := List.mem_singleton.1 hmem
      obtain rfl := Option.some.inj hpath
      decide +kernel
    · rintro path hpath
      obtain rfl := Option.some.inj hpath
      decide +kernel
  · exact (hasked Shadowed.bare [] _ rfl (by simp)).2 ⟨"/p/tidemark.toml"⟩ .isDirectory .notFound
      rfl (by decide +kernel) (by decide +kernel)

end Config

end SwiftStyle
