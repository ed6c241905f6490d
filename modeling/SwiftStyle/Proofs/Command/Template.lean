import SwiftStyle.Proofs.Command.Linting
import SwiftStyle.Proofs.Command.Writing
import SwiftStyle.Proofs.Files.Excluding
import SwiftStyle.Proofs.Lint.Newcomer

/-!
# Proofs/Command/Template — a first configuration file changes nothing

The file that `init` writes says what holds without it: every built-in rule answers alike
(`Config.RestatesDefaults`), and only the directories of dependencies are left out besides.  The
file itself is one that no walk looks for.  So where no configuration was found, no link leads to
the file and nothing is linted below those directories, a lint run ends as it did before
(`init_neutral`).
-/

namespace SwiftStyle

open FileTree

/-- A text is read back from its file. -/
theorem FileTree.readText_eq_ok {t : FileTree} {p : Path} {place : Place} {text : String}
    (hp : t.resolve p = .ok place) (hfile : t.get? place = some (.file text.toUTF8)) :
    t.readText p = .ok text := by
  have hread : t.read p = .ok text.toUTF8 := read_eq_ok_iff.2 ⟨place, hp, hfile⟩
  rw [readText, hread]
  simp only [bind, Except.bind, fromUTF8?_toUTF8]
  rfl

/-! ## Configurations under which rules answer alike -/

/-- **A rule answers alike** under two configurations, and is switched on or off alike. -/
structure Config.TreatsAlike (c c' : Config) (rule : Rule) : Prop where
  isEnabled : c'.isEnabled rule.identifier = c.isEnabled rule.identifier
  isOptedIn : c'.isOptedIn rule.identifier = c.isOptedIn rule.identifier
  severity? : c'.severity? rule.identifier = c.severity? rule.identifier
  validate : ∀ unit, rule.validate unit (c'.settings rule.identifier)
    = rule.validate unit (c.settings rule.identifier)

/-- **Rules that answer alike** report alike. -/
theorem Linter.check_eq_of_treatsAlike {c c' : Config} {rules : List Rule}
    (h : ∀ rule ∈ rules, c.TreatsAlike c' rule) (unit : SourceUnit) :
    check ⟨rules, c'⟩ unit = check ⟨rules, c⟩ unit := by
  have hreports : rules.map (runOne c' unit (Suppressions.collect unit))
      = rules.map (runOne c unit (Suppressions.collect unit)) :=
    List.map_congr_left fun rule hrule => by
      obtain ⟨henabled, -, hseverity, hvalidate⟩ := h rule hrule
      rw [runOne, runOne, run, run, henabled, hseverity, hvalidate]
  rw [check, check]
  dsimp only
  rw [hreports]

/-! ## Options that state defaults -/

/-- **The options of every rule are the defaults**, whether they are stated or not. -/
structure Config.StatesOptions (c : Config) : Prop where
  fileLength : Thresholds.ofOptions (c.options "file_length") ⟨400, 1000⟩ = ⟨400, 1000⟩ ∧
    (c.options "file_length").flag "ignore_comment_only_lines" false = false
  lineLength : Thresholds.ofOptions (c.options "line_length") ⟨120, 200⟩ = ⟨120, 200⟩ ∧
    (c.options "line_length").flag "ignores_comments" false = false ∧
    (c.options "line_length").flag "ignores_urls" false = false
  multilineArguments :
    MultilineArguments.placementOf (c.options "multiline_arguments") = .anyLine
  trailingWhitespace :
    (c.options "trailing_whitespace").flag "ignores_empty_lines" false = false
  typeName : (c.options "type_name").count "min_length" 3 = 3 ∧
    (c.options "type_name").count "max_length" 40 = 40

instance (c : Config) : Decidable c.StatesOptions :=
  decidable_of_iff
    ((Thresholds.ofOptions (c.options "file_length") ⟨400, 1000⟩ = ⟨400, 1000⟩ ∧
        (c.options "file_length").flag "ignore_comment_only_lines" false = false) ∧
      (Thresholds.ofOptions (c.options "line_length") ⟨120, 200⟩ = ⟨120, 200⟩ ∧
        (c.options "line_length").flag "ignores_comments" false = false ∧
        (c.options "line_length").flag "ignores_urls" false = false) ∧
      MultilineArguments.placementOf (c.options "multiline_arguments") = .anyLine ∧
      (c.options "trailing_whitespace").flag "ignores_empty_lines" false = false ∧
      (c.options "type_name").count "min_length" 3 = 3 ∧
        (c.options "type_name").count "max_length" 40 = 40)
    ⟨fun ⟨file, line, multiline, whitespace, type⟩ => ⟨file, line, multiline, whitespace, type⟩,
      fun ⟨file, line, multiline, whitespace, type⟩ => ⟨file, line, multiline, whitespace, type⟩⟩

/-- **Rules see of their options only the defaults.** -/
theorem Config.StatesOptions.validate_eq {c c' : Config} (h : c.StatesOptions)
    (h' : c'.StatesOptions) {rule : Rule} (hrule : rule ∈ Catalog.rules) (unit : SourceUnit) :
    rule.validate unit (c'.settings rule.identifier)
      = rule.validate unit (c.settings rule.identifier) := by
  simp only [Catalog.rules, List.mem_cons, List.not_mem_nil, or_false] at hrule
  rcases hrule with rfl | rfl | rfl | rfl | rfl | rfl
  · change Except.ok (FileLength.findings unit (c'.options "file_length"))
      = .ok (FileLength.findings unit (c.options "file_length"))
    rw [FileLength.findings, FileLength.findings, h.fileLength.1, h.fileLength.2, h'.fileLength.1,
      h'.fileLength.2]
  · change Except.ok (LineLength.findings unit (c'.options "line_length"))
      = .ok (LineLength.findings unit (c.options "line_length"))
    have hfinding : LineLength.finding? unit.path (c'.options "line_length")
        = LineLength.finding? unit.path (c.options "line_length") := funext fun line => by
      rw [LineLength.finding?, LineLength.finding?, h.lineLength.1, h.lineLength.2.1,
        h.lineLength.2.2, h'.lineLength.1, h'.lineLength.2.1, h'.lineLength.2.2]
    rw [LineLength.findings, LineLength.findings, hfinding]
  · change Except.ok (MultilineArguments.findings unit (c'.options "multiline_arguments"))
      = .ok (MultilineArguments.findings unit (c.options "multiline_arguments"))
    rw [MultilineArguments.findings, MultilineArguments.findings, h.multilineArguments,
      h'.multilineArguments]
  · rfl
  · change Except.ok (TrailingWhitespace.findings unit (c'.options "trailing_whitespace"))
      = .ok (TrailingWhitespace.findings unit (c.options "trailing_whitespace"))
    rw [TrailingWhitespace.findings, TrailingWhitespace.findings, h.trailingWhitespace,
      h'.trailingWhitespace]
  · change Except.ok (TypeName.findings unit (c'.options "type_name"))
      = .ok (TypeName.findings unit (c.options "type_name"))
    rw [TypeName.findings, TypeName.findings, h.typeName.1, h.typeName.2, h'.typeName.1,
      h'.typeName.2]

/-! ## What the file says -/

/-- What the file leaves out: everything below the directories of dependencies. -/
def Config.dependencies : List String := ["**/Pods/**", "**/Carthage/**", "**/.build/**"]

/-- **A configuration says what holds without it**, and besides leaves out dependencies. -/
structure Config.RestatesDefaults (c : Config) : Prop where
  linter : c.linter = { exclude := Config.dependencies }
  index : c.index = {}
  rules : ∀ rule ∈ Catalog.rules, Config.TreatsAlike {} c rule

set_option maxRecDepth 8000 in
/-- **The first configuration file restates the defaults.** -/
theorem exists_parse?_template :
    ∃ c, Config.parse? Command.template = some c ∧ c.RestatesDefaults := by
  have hstates : (Config.parse? Command.template).any (fun c =>
      decide (c.linter = { exclude := Config.dependencies } ∧ c.index = {} ∧ c.StatesOptions ∧
        ∀ rule ∈ Catalog.rules, c.isEnabled rule.identifier = true ∧
          c.isOptedIn rule.identifier = false ∧ c.severity? rule.identifier = none)) = true := by
    -- the characters of a literal are cheap to list and dear to decode
    have hcharacters : Command.template.toList = _ := String.toList_ofList
    rw [Config.parse?, Toml.parse?, hcharacters]
    decide +kernel
  obtain ⟨hread, hstates⟩ := (Option.any_eq_true_iff_get _ _).1 hstates
  obtain ⟨hlinter, hindex, hoptions, hrules⟩ := of_decide_eq_true hstates
  refine ⟨_, (Option.some_get hread).symm, hlinter, hindex, fun rule hrule => ?_⟩
  obtain ⟨henabled, hoptedIn, hseverity⟩ := hrules rule hrule
  have hdefault : Config.StatesOptions {} := by decide
  exact ⟨henabled, hoptedIn, hseverity, hdefault.validate_eq hoptions hrule⟩

/-- **On an absolute path** nothing is left out besides dependencies. -/
theorem excludes_dependencies {pattern path : String} (hpattern : pattern ∈ Config.dependencies)
    (hpath : path.toList.head? = some '/')
    (hclear : ∀ part ∈ ["/Pods/", "/Carthage/", "/.build/"], ¬part.toList <:+: path.toList) :
    ExcludePattern.excludes pattern path = false := by
  obtain ⟨name, hname, hbelow, hpart⟩ : ∃ name : String, ExcludePattern.IsPlain name.toList ∧
      pattern.toList = ExcludePattern.below name.toList ∧
      ∃ part ∈ ["/Pods/", "/Carthage/", "/.build/"],
        part.toList = '/' :: (name.toList ++ ['/']) := by
    simp only [Config.dependencies, List.mem_cons, List.not_mem_nil, or_false] at hpattern
    rcases hpattern with rfl | rfl | rfl
    · exact ⟨"Pods", by decide, by decide, by decide⟩
    · exact ⟨"Carthage", by decide, by decide, by decide⟩
    · exact ⟨".build", by decide, by decide, by decide⟩
  obtain ⟨part, hmem, hpart⟩ := hpart
  rw [← Bool.not_eq_true, ExcludePattern.excludes_below_iff hname hbelow hpath, ← hpart]
  exact hclear part hmem

namespace Command

variable {t t' : FileTree}

/-! ## A tree with a first configuration file -/

/-- The first configuration file is the one that is looked for first. -/
theorem resolve_project (ht : t.WellFormed) (hthere : t.get? t.workingDirectory = some .directory)
    (hfree : t.link? (t.workingDirectory ++ ["tidemark.toml"]) = none) :
    t.resolve (projectDirectory.join templatePath)
      = .ok (t.workingDirectory ++ ["tidemark.toml"]) := by
  have hpieces : (projectDirectory.join templatePath).pieces
      = [['.'], "tidemark.toml".toList] := by decide
  have hstart : t.start (projectDirectory.join templatePath) = t.workingDirectory :=
    if_neg (by decide)
  have hdot : t.step t.workingDirectory ['.'] = .ok t.workingDirectory :=
    step_eq_ok_iff.2 ⟨hthere, rfl⟩
  have hname := step_name (by decide : Path.IsName "tidemark.toml") hthere
  rw [resolve_eq_ok_iff_leads, hpieces, hstart]
  exact ⟨by decide, .step hdot (ht.link?_eq_none hthere) (.step hname hfree .nil)⟩

/-- **Nothing stands in the place of the file**: a directory could not be written, and a file would
have been found. -/
theorem get?_project_eq_none (ht : t.WellFormed)
    (hthere : t.get? t.workingDirectory = some .directory)
    (hfree : t.link? (t.workingDirectory ++ ["tidemark.toml"]) = none)
    (hwritable : t.get? (t.workingDirectory ++ ["tidemark.toml"]) ≠ some .directory)
    (unresolved : t.isFile (projectDirectory.join templatePath) = false) :
    t.get? (t.workingDirectory ++ ["tidemark.toml"]) = none := by
  cases hentry : t.get? (t.workingDirectory ++ ["tidemark.toml"]) with
  | none => rfl
  | some entry =>
    cases entry with
    | directory => exact absurd hentry hwritable
    | file bytes =>
      have hfile := isFile_iff.2 ⟨_, bytes, resolve_project ht hthere hfree, hentry⟩
      rw [unresolved] at hfile
      cases hfile

/-- **With its first configuration file a tree has a newcomer**, if there was none before and no
link leads there. -/
theorem newcomer_of_init (ht : t.WellFormed) {init : Call} {common : Common} {force : Bool}
    (asked : parse init.arguments = .ok ⟨common, .init force⟩)
    (succeeded : (init.outcome t).exitCode.number = 0)
    (unlinked : t.Unlinked (t.workingDirectory ++ ["tidemark.toml"]))
    (unresolved : t.isFile (projectDirectory.join templatePath) = false) :
    t.Newcomer t.workingDirectory "tidemark.toml" (init.outcome t).tree ∧
      (init.outcome t).tree.isFile (projectDirectory.join templatePath) = true ∧
      (init.outcome t).tree.readText (projectDirectory.join templatePath) = .ok template := by
  have houtcome : init.outcome t = initOutcome init.faults t force := by
    rw [Call.outcome, run, asked]
    rfl
  rw [houtcome, initOutcome] at succeeded ⊢
  split at succeeded
  · cases succeeded
  · next tree hwrite =>
    obtain ⟨-, place, hplace, hset, hreplaced, hwellFormed⟩ := writeTemplate_eq_ok hwrite
    obtain ⟨hthere, rfl⟩ := (resolve_templatePath_iff unlinked.1).1 hplace
    dsimp only
    have hfree := get?_project_eq_none ht hthere unlinked.1 hreplaced.not_directory unresolved
    have hisFree : t.IsFree (t.workingDirectory ++ ["tidemark.toml"]) := ⟨hfree, unlinked.1⟩
    have hworking : tree.workingDirectory = t.workingDirectory := hreplaced.workingDirectory
    have hproject := resolve_project (hwellFormed ht)
      (by rw [hworking]; exact (hreplaced.directory_iff _).2 hthere)
      (by rw [hworking]; exact hreplaced.link?_self)
    rw [hworking] at hproject
    have hpending : t.Pending (t.workingDirectory ++ ["tidemark.toml"]) tree := by
      rw [hset]
      exact (Pending.refl hisFree).set_file hisFree _
    exact ⟨⟨ht, hwellFormed ht, hpending, hfree, unlinked, by decide⟩,
      isFile_iff.2 ⟨_, _, hproject, hreplaced.self⟩, readText_eq_ok hproject hreplaced.self⟩

/-! ## Lint runs before and after -/

namespace LintArguments

variable {a : LintArguments} {c c' : Config}

theorem chooseRules_congr
    (h : ∀ rule ∈ Catalog.rules, c'.isOptedIn rule.identifier = c.isOptedIn rule.identifier) :
    a.chooseRules c' = a.chooseRules c := by
  have hadded : ∀ chosen : List Rule, (Catalog.rules.filter fun rule =>
        c'.isOptedIn rule.identifier && !chosen.any (·.identifier == rule.identifier))
      = Catalog.rules.filter fun rule =>
        c.isOptedIn rule.identifier && !chosen.any (·.identifier == rule.identifier) :=
    fun chosen => List.filter_congr fun rule hrule => by rw [h rule hrule]
  rw [chooseRules, chooseRules]
  simp only [hadded]

/-- The command line has no influence on how rules answer. -/
theorem treatsAlike_adjust {rule : Rule} (h : c.TreatsAlike c' rule) :
    (a.adjust c).TreatsAlike (a.adjust c') rule :=
  ⟨h.isEnabled, h.isOptedIn, h.severity?, h.validate⟩

/-- **Lint runs end alike** under configurations that choose the same rules, ask for as many workers
and lead to the same reports. -/
theorem run_congr {s s' : Surroundings} {common : Common} (faults : Faults)
    (hload : loadConfig s common = .ok c) (hload' : loadConfig s' common = .ok c')
    (hchoose : a.chooseRules c' = a.chooseRules c)
    (hreport : ∀ rules, a.chooseRules c = .ok rules →
      a.report s' faults ⟨rules, a.adjust c'⟩ = a.report s faults ⟨rules, a.adjust c⟩)
    (hjobs : c'.linter.jobs = c.linter.jobs) (hfailOn : c'.linter.failOn = c.linter.failOn) :
    a.run s' common faults = a.run s common faults := by
  rw [loadConfig_eq_ok_iff] at hload hload'
  cases hrules : a.chooseRules c with
  | error e =>
    rw [run_eq_error_of_chooseRules hload hrules,
      run_eq_error_of_chooseRules hload' (hchoose.trans hrules)]
  | ok rules =>
    have hthreshold : a.threshold c' = a.threshold c := congrArg a.failOn.getD hfailOn
    have hworkers : (a.adjust c').linter.jobs = (a.adjust c).linter.jobs := congrArg a.jobs.or hjobs
    have hchosen : a.Chosen s common c rules := ⟨hload, hrules⟩
    have hchosen' : a.Chosen s' common c' rules := ⟨hload', hchoose.trans hrules⟩
    rw [hchosen.run_eq, hchosen'.run_eq, hthreshold, Linter.build, Linter.build, hworkers]
    split
    · simp only [bind, Except.bind, Except.mapError]
    · simp only [bind, Except.bind, Except.mapError, hreport rules hrules]

/-- **A new file that nobody looks for** is in no report. -/
theorem report_eq_of_newcomer {parent : Place} {name : String} (h : t.Newcomer parent name t')
    {linter : Linter} (hextension : Path.extensionOf? name ≠ some linter.config.linter.extension)
    (environment : Environment) (input : ByteArray) (faults : Faults) :
    a.report ⟨t', environment, input⟩ faults linter
      = a.report ⟨t, environment, input⟩ faults linter := by
  have hinput : Surroundings.inputText ⟨t', environment, input⟩ faults
      = Surroundings.inputText ⟨t, environment, input⟩ faults := rfl
  rw [report, report, Linter.lintPaths_eq_of_newcomer h hextension, hinput]

/-- **Leaving out dependencies** leaves out nothing where there are none. -/
theorem discover_adjust (ht : t.WellFormed) (hc : c.RestatesDefaults)
    (clear : ∀ p ∈ Discovery.discover { exclude := a.exclude } t a.roots,
      ∀ part ∈ ["/Pods/", "/Carthage/", "/.build/"], ¬part.toList <:+: p.text.toList) :
    (Discovery.ofSettings (a.adjust c).linter).discover t a.roots
      = Discovery.discover { exclude := a.exclude } t a.roots := by
  have hsettings : Discovery.ofSettings (a.adjust c).linter
      = { exclude := Config.dependencies ++ a.exclude } := by
    rw [adjust, hc.linter]
    rfl
  have hmore : ∀ pattern, pattern ∈ Config.dependencies ++ a.exclude ↔
      pattern ∈ a.exclude ∨ pattern ∈ Config.dependencies := fun pattern => by
    rw [List.mem_append, or_comm]
  rw [hsettings, Discovery.discover_exclude (d := { exclude := a.exclude }) ht hmore]
  refine List.filter_eq_self.2 fun p hp => List.all_eq_true.2 fun pattern hpattern => ?_
  have habsolute : p.text.toList.head? = some '/' :=
    beq_iff_eq.1 (Discovery.tidy_of_mem_discover ht hp).1
  rw [excludes_dependencies hpattern habsolute (clear p hp)]
  rfl

end LintArguments

/-- A first configuration file is the one that counts. -/
theorem resolve_eq_project (environment : Environment)
    (hfile : t.isFile (projectDirectory.join templatePath) = true) :
    Config.resolve t environment projectDirectory none
      = .project (projectDirectory.join templatePath) := by
  have hfound : (Config.projectNames.map projectDirectory.join).find? t.isFile
      = some (projectDirectory.join templatePath) := List.find?_cons_of_pos hfile
  simp only [Config.resolve, hfound]

/-- Where no configuration is found none was asked for, and none is in the project directory. -/
theorem of_resolve_eq_default {environment : Environment} {explicit : Option Path}
    (h : Config.resolve t environment projectDirectory explicit = .default) :
    explicit = none ∧ t.isFile (projectDirectory.join templatePath) = false := by
  cases explicit with
  | some path => cases h
  | none =>
    refine ⟨rfl, Bool.not_eq_true _ ▸ fun hfile => ?_⟩
    rw [resolve_eq_project environment hfile] at h
    cases h

theorem load_eq_of_isFile {environment : Environment} {text : String} {c : Config}
    (hfile : t.isFile (projectDirectory.join templatePath) = true)
    (htext : t.readText (projectDirectory.join templatePath) = .ok text)
    (hc : Config.parse? text = some c) :
    Config.load t environment projectDirectory none = .ok c := by
  rw [Config.load, resolve_eq_project environment hfile]
  simp only [ConfigSource.path?, Config.ofFile, htext, hc, Except.mapError]

end Command

end SwiftStyle
