import SwiftStyle.Proofs.Files.Replacement
import SwiftStyle.Proofs.Lint.Roots

/-!
# Proofs/Lint/Newcomer — a new file that nobody looks for

A tree gets a file where nothing was and where no link leads.  If it is no ignore file and its
extension is not the one that is looked for, then the same files are discovered as before, they are
read as before, and a lint run reports the same (`lintPaths_eq_of_newcomer`).
-/

namespace SwiftStyle

open FileTree

/-- The names by which a walk finds ignore files and repositories. -/
def FileTree.ignoreNames : List String := [".ignore", ".gitignore", ".git", "exclude"]

/-- **A new file**: in a directory, where nothing was and no link leads, and under a name that no
walk asks for. -/
structure FileTree.Newcomer (t : FileTree) (parent : Place) (name : String) (t' : FileTree) : Prop
    where
  wellFormed : t.WellFormed
  wellFormed' : t'.WellFormed
  pending : t.Pending (parent ++ [name]) t'
  free : t.get? (parent ++ [name]) = none
  unlinked : t.Unlinked (parent ++ [name])
  quiet : name ∉ ignoreNames

namespace FileTree.Newcomer

variable {t t' : FileTree} {parent : Place} {name : String} (h : t.Newcomer parent name t')
include h

theorem isFree : t.IsFree (parent ++ [name]) := ⟨h.free, h.unlinked.1⟩

theorem leads_iff {links : Nat} {place q : Place} {pieces : List (List Char)} :
    t'.Leads links place pieces q ↔ t.Leads links place pieces q :=
  ⟨Leads.mono (fun q => (h.pending.directory_iff h.isFree q).1) fun q =>
      (link?_congr h.pending.links q).symm,
    Leads.mono (fun q => (h.pending.directory_iff h.isFree q).2) (link?_congr h.pending.links)⟩

theorem resolve_iff {p : Path} {q : Place} : t'.resolve p = .ok q ↔ t.resolve p = .ok q :=
  h.pending.resolve_eq_ok_iff h.isFree

theorem absolute_eq (p : Path) : t'.absolute p = t.absolute p := by
  rw [absolute, absolute, workingPath, workingPath, h.pending.workingDirectory]

/-- **Steps lead to the new file** by its name. -/
theorem getLast?_of_leads {place : Place} {pieces : List (List Char)} (hne : pieces ≠ [])
    (hway : t.Leads maxLinks place pieces (parent ++ [name])) :
    ∃ last, pieces.getLast? = some last ∧ Path.Component.ofPiece? last = some (.name name) := by
  obtain ⟨_, _, last, heq, hlast, hread⟩ :=
    h.wellFormed.exists_name_of_unlinked hway hne h.unlinked (Nat.le_refl _) (by simp [h.free])
  obtain ⟨-, hname⟩ := List.append_inj' heq rfl
  obtain rfl := (List.cons.inj hname).1
  exact ⟨last, hlast, hread⟩

/-! ## Walks -/

/-- What walks ask for shows what it showed. -/
theorem shown?_eq {place : Place} {last : String} (hlast : last ∈ ignoreNames) :
    t'.shown? (place ++ [last]) = t.shown? (place ++ [last]) := by
  have hfollow : ∀ q, t'.follow maxLinks [] ((place ++ [last]).map String.toList) = .ok q ↔
      t.follow maxLinks [] ((place ++ [last]).map String.toList) = .ok q := fun q => by
    rw [follow_eq_ok_iff, follow_eq_ok_iff, h.leads_iff]
  rw [shown?, shown?]
  cases hway : t.follow maxLinks [] ((place ++ [last]).map String.toList) with
  | error e =>
    cases hway' : t'.follow maxLinks [] ((place ++ [last]).map String.toList) with
    | error e' => rfl
    | ok q => cases hway.symm.trans ((hfollow q).1 hway')
  | ok q =>
    rw [(hfollow q).2 hway]
    refine h.pending.others q fun heq => h.quiet ?_
    -- steps to the new file end in its name
    obtain ⟨piece, hpiece, hread⟩ := h.getLast?_of_leads (by simp)
      (heq ▸ follow_eq_ok_iff.1 hway)
    rw [List.map_append, List.map_singleton, List.getLast?_concat] at hpiece
    have htext := Path.Component.toList_text hread
    rw [← Option.some.inj hpiece, String.toList_inj] at htext
    obtain rfl : name = last := htext
    exact hlast

theorem rulesAt_eq {place : Place} {last : String} (hlast : last ∈ ignoreNames) :
    t'.rulesAt (place ++ [last]) = t.rulesAt (place ++ [last]) := by
  rw [rulesAt, rulesAt, h.shown?_eq hlast]

/-- **Ignore files say the same.** -/
theorem verdict?_eq (place : Place) (isDirectory : Bool) :
    t'.verdict? place isDirectory = t.verdict? place isDirectory := by
  have hgit : ∀ d, t'.shown? (d ++ [".git"]) = t.shown? (d ++ [".git"]) := fun d =>
    h.shown?_eq (by simp [ignoreNames])
  have hignore : ∀ d, t'.rulesAt (d ++ [".ignore"]) = t.rulesAt (d ++ [".ignore"]) := fun d =>
    h.rulesAt_eq (by simp [ignoreNames])
  have hgitignore : ∀ d, t'.rulesAt (d ++ [".gitignore"]) = t.rulesAt (d ++ [".gitignore"]) :=
    fun d => h.rulesAt_eq (by simp [ignoreNames])
  have hexclude : ∀ d, t'.rulesAt (d ++ [".git", "info", "exclude"])
      = t.rulesAt (d ++ [".git", "info", "exclude"]) := fun d => by
    have hrules : t'.rulesAt (d ++ [".git", "info"] ++ ["exclude"])
        = t.rulesAt (d ++ [".git", "info"] ++ ["exclude"]) := h.rulesAt_eq (by simp [ignoreNames])
    simpa using hrules
  unfold verdict?
  simp only [hgit, hignore, hgitignore, hexclude]

theorem skips_eq (d : Discovery) (place : Place) (isDirectory : Bool) :
    d.skips t' place isDirectory = d.skips t place isDirectory := by
  rw [Discovery.skips, Discovery.skips, h.verdict?_eq]

theorem reaches_eq (d : Discovery) (root way : Place) :
    d.reaches t' root way = d.reaches t root way := by
  fun_induction Discovery.reaches d t root way with
  | case1 => rfl
  | case2 root name => rw [Discovery.reaches, h.skips_eq]
  | case3 root name way hway ih =>
    rw [Discovery.reaches, h.skips_eq, ih]
    exact hway

/-! ## Discovery -/

/-- **A path to the new file** has the extension of its name. -/
theorem extension?_eq {p : Path} (hp : t.resolve p = .ok (parent ++ [name])) :
    p.extension? = Path.extensionOf? name := by
  obtain ⟨last, hlast, hread⟩ := h.getLast?_of_leads (Text.splitAt_ne_nil _ _)
    (resolve_eq_ok_iff_leads.1 hp).2
  rw [Path.extension?, Path.fileName?, Path.getLast?_components hlast hread]
  rfl

/-- **Where other paths lead** everything is as it was. -/
theorem get?_eq_of_resolve {p : Path} {place : Place} (hp : t.resolve p = .ok place)
    (hextension : p.extension? ≠ Path.extensionOf? name) : t'.get? place = t.get? place :=
  h.pending.others place fun heq => hextension (h.extension?_eq (heq ▸ hp))

theorem isFile_iff {p : Path} (hextension : p.extension? ≠ Path.extensionOf? name) :
    t'.isFile p = true ↔ t.isFile p = true := by
  simp only [FileTree.isFile_iff, h.resolve_iff]
  refine exists_congr fun place => exists_congr fun bytes => and_congr_right fun hp => ?_
  rw [h.get?_eq_of_resolve hp hextension]

/-- **Walks come to the same files**, but for the new one. -/
theorem mem_walk_iff {d : Discovery} {p : Path} (hp : p.IsCanonical) {root way : Place}
    (hroot : t.resolve p = .ok root)
    (hextension : (p.join ⟨"/".intercalate way⟩).extension? ≠ Path.extensionOf? name) :
    way ∈ d.walk t' root ↔ way ∈ d.walk t root := by
  simp only [Discovery.mem_walk_iff, h.reaches_eq]
  refine and_congr_left fun hreaches => exists_congr fun bytes => ?_
  have hway : way ≠ [] := Discovery.ne_nil_of_reaches hreaches
  have hne : root ++ way ≠ [] := by simp [hway]
  constructor
  · intro hentry
    have hfile := h.wellFormed'.get?_of_mem hentry
    have hjoin := h.wellFormed'.resolve_join hp hway (h.resolve_iff.2 hroot) hfile
    rw [h.get?_eq_of_resolve (h.resolve_iff.1 hjoin) hextension] at hfile
    exact mem_of_get?_eq hne hfile
  · intro hentry
    have hfile := h.wellFormed.get?_of_mem hentry
    refine mem_of_get?_eq hne ((h.pending.others _ fun heq => ?_).trans hfile)
    simp [heq, h.free] at hfile

theorem yields_iff {d : Discovery} {root p : Path}
    (hextension : p.extension? ≠ Path.extensionOf? name) :
    d.Yields t' root p ↔ d.Yields t root p := by
  rw [Discovery.Yields, Discovery.Yields, h.absolute_eq]
  refine or_congr (and_congr_left ?_) (exists_congr fun place => ?_)
  · rintro rfl
    exact h.isFile_iff hextension
  · rw [h.resolve_iff, h.pending.directory_iff h.isFree]
    refine and_congr_right fun hplace => and_congr_right fun _ => exists_congr fun way =>
      and_congr_left ?_
    rintro rfl
    exact h.mem_walk_iff (t.isCanonical_absolute root) hplace hextension

variable {d : Discovery} (hextension : Path.extensionOf? name ≠ some d.extension)
include hextension

/-- **The same files are discovered.** -/
theorem discover_eq (roots : List Path) : d.discover t' roots = d.discover t roots := by
  refine (Discovery.increasing_discover d t' roots).eq_of_mem_iff
    (Discovery.increasing_discover d t roots) fun p => ?_
  rw [Discovery.mem_discover_iff_yields h.wellFormed',
    Discovery.mem_discover_iff_yields h.wellFormed]
  refine and_congr_right fun haccepts => exists_congr fun root => and_congr_right fun _ =>
    h.yields_iff ?_
  rw [(Discovery.accepts_iff.1 haccepts).1]
  exact hextension.symm

/-- **A discovered file is read as before.** -/
theorem read_eq {roots : List Path} {p : Path} (hp : p ∈ d.discover t roots) :
    t'.read p = t.read p := by
  obtain ⟨root, -, hfile⟩ := (Discovery.mem_discover_iff h.wellFormed).1 hp
  obtain ⟨place, bytes, hplace, -⟩ := Discovery.resolve_of_mem_filesOf h.wellFormed hfile
  obtain ⟨haccepts, -⟩ := (Discovery.mem_discover_iff_yields h.wellFormed).1 hp
  have hget := h.get?_eq_of_resolve hplace
    (by rw [(Discovery.accepts_iff.1 haccepts).1]; exact hextension.symm)
  rw [read, read, h.resolve_iff.2 hplace, hplace]
  simp only [bind, Except.bind, hget]

end FileTree.Newcomer

/-- **A lint run reports the same** when a file comes that nobody looks for. -/
theorem Linter.lintPaths_eq_of_newcomer {t t' : FileTree} {parent : Place} {name : String}
    (h : t.Newcomer parent name t') {linter : Linter}
    (hextension : Path.extensionOf? name ≠ some linter.config.linter.extension) (x : Extractor)
    (roots : List Path) : linter.lintPaths x t' roots = linter.lintPaths x t roots := by
  have hfiles : (Discovery.ofSettings linter.config.linter).discover t' roots
      = (Discovery.ofSettings linter.config.linter).discover t roots :=
    h.discover_eq hextension roots
  have hreports : ((Discovery.ofSettings linter.config.linter).discover t roots).map
        (linter.lintFile x t')
      = ((Discovery.ofSettings linter.config.linter).discover t roots).map (linter.lintFile x t) :=
    List.map_congr_left fun p hp => by
      rw [lintFile, lintFile, Extractor.load, Extractor.load,
        h.read_eq (d := .ofSettings linter.config.linter) hextension hp]
  rw [lintPaths, lintPaths, hfiles, lintFiles, lintFiles, hreports]

end SwiftStyle
