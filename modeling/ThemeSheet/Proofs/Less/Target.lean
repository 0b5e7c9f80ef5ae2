/-
# The file that a prefixed import names

A path behind the tilde is read in two ways.  Where files are put in the place of import
lines, it gets the suffix of source files and is then taken from the package directory;
before compiling, it is taken from there first, and the compiler puts the suffix behind
the path that was written.  Both come to the same file, since what is written ends with
the last name of the path and the suffix goes to that name.
-/

import ThemeSheet.Proofs.File.Written
import ThemeSheet.Proofs.Less.Bundle
import ThemeSheet.Proofs.Less.Prefixed
import ThemeSheet.Proofs.Style.Import

namespace ThemeSheet
namespace Less

open Text

/-- An import line: the word, a blank, the path between quotes and a semicolon. -/
def importLine (path : Text) : Text := importWord ++ ' ' :: '"' :: (path ++ ['"', ';'])

variable {p name root : Text} {packages : Path}

/-! ### The line as an import line -/

/-- **An import line imports its path,** whatever stands in it. -/
theorem importOf?_importLine (path : Text) : importOf? (importLine path) = some path := by
  have hword : dropPrefix? importWord (importLine path) = some (' ' :: '"' :: (path ++ ['"', ';'])) :=
    dropPrefix?_eq_some.2 rfl
  have hcut : lastCut? afterStatement? (path ++ ['"', ';']) = some (path, []) :=
    Style.lastCut?_afterStatement?_iff.2 ⟨'"', by decide, rfl, fun q _ h => absurd (List.infix_nil.1 h) (by simp)⟩
  have hat : importAt? (importLine path) = some path := by
    have hblanks : (' ' :: '"' :: (path ++ ['"', ';'])).dropWhile isBlank = '"' :: (path ++ ['"', ';']) := by
      simp [show isBlank ' ' = true by decide, show isBlank '"' = false by decide]
    rw [importAt?, hword]
    dsimp only
    rw [hblanks, show (' ' :: '"' :: (path ++ ['"', ';'])).head?.any isBlank = true from rfl]
    dsimp only
    rw [hcut]
    rfl
  rw [importOf?, beginsWith, hword, Option.isSome_some, if_pos rfl]
  exact (congrArg (Option.or · _) hat).trans Option.some_or

/-- **A prefixed path gets the suffix before it is taken from the package directory.** -/
theorem importTarget_prefixed (directory packages : Path) (p : Text) :
    importTarget directory packages ('~' :: p) = packages.child (withSuffix suffix p) := by
  have hends : endsWith suffix ('~' :: p) = endsWith suffix p := by
    rw [Bool.eq_iff_iff, endsWith_iff, endsWith_iff]
    constructor
    · rintro ⟨front, h⟩
      cases front with
      | nil => exact absurd (List.cons.inj h).1 (by decide)
      | cons c front => exact ⟨front, (List.cons.inj h).2⟩
    · rintro ⟨front, rfl⟩
      exact ⟨'~' :: front, rfl⟩
  have hsuffix : withSuffix suffix ('~' :: p) = '~' :: withSuffix suffix p := by
    rw [withSuffix, withSuffix, hends]
    split <;> rfl
  rw [importTarget, hsuffix]
  rfl

/-- A file that is nothing but an import line is bundled as the file that it names. -/
theorem bundleWithin_importLine {tree : FileTree} {file : Path} {path : Text} (hpath : '\n' ∉ path)
    (h : tree.read file = .ok (importLine path)) (room : Nat) :
    bundleWithin tree packages (room + 1) file =
      bundleWithin tree packages room (importTarget file.parent packages path) := by
  have hline : '\n' ∉ importLine path := by
    rw [importLine]
    simp [hpath]
    decide
  have hlines : lines (importLine path) = [importLine path] := splitOn_of_notMem hline
  rw [bundleWithin_succ, h]
  show ((lines (importLine path)).mapM (bundleLine tree packages room file.parent) >>= fun ls =>
    pure (join ['\n'] ls)) = _
  rw [hlines, List.mapM_cons, bundleLine_of_some (importOf?_importLine path)]
  cases bundleWithin tree packages room (importTarget file.parent packages path) <;> rfl

/-! ### The line as a prefixed statement -/

/-- **An import line is rewritten** to the path that is taken from the package directory. -/
theorem resolvePrefixed_importLine (hne : p ≠ []) (hquote : ∀ c ∈ p, isQuote c = false) (hword : ¬ importWord <:+: p) :
    resolvePrefixed packages tilde (importLine ('~' :: p)) = importLine (packages.child p).written := by
  have hplain : IsPlainPath ('~' :: p) := by
    refine ⟨List.forall_mem_cons.2 ⟨by decide, hquote⟩, fun h => ?_⟩
    rcases infix_of_infix_mark (a := []) (by decide) h with hnil | h
    · exact absurd (List.infix_nil.1 hnil) (by decide)
    · exact hword h
  let s : ImportStatement := ⟨[' '], none, '"', '~' :: p, '"', by decide, by decide, by decide, hplain, by decide⟩
  have hs : s.OptionsApart := fun o ho => absurd ho (by simp [s])
  have hline (path : Text) : importLine path = s.writtenWith path ++ [';'] := by
    simp [importLine, ImportStatement.writtenWith, ImportStatement.front, ImportStatement.writtenOptions, s]
  have hresolved : resolvedPath packages ('~' :: p) = (packages.child p).written := by
    obtain ⟨c, own, rfl⟩ := List.exists_cons_of_ne_nil hne
    rfl
  have hend : resolvePrefixed packages tilde [';'] = [';'] := by
    have h : resolvePrefixed packages tilde ([';'] ++ []) = [';'] ++ resolvePrefixed packages tilde [] :=
      resolvePrefixed_chunk (by decide) (by simp)
    have hnil : resolvePrefixed packages tilde [] = [] := by rw [resolvePrefixed, replaceMatches]
    rwa [hnil, List.append_nil] at h
  rw [hline, resolvePrefixed_statement hs hplain, hresolved, hend, ← hline]

/-! ### One file -/

/-- **A suffix goes to the last name of a path,** whether it is put behind the text that names the path, or behind
the written form of the path that is taken from a place. -/
theorem ofText_withSuffix_written (hpackages : packages.IsProper) (hlast : (splitOn '/' p).getLast? = some name)
    (hname : Path.isName name = true) :
    Path.ofText (withSuffix suffix (packages.child p).written) = packages.child (withSuffix suffix p) := by
  have hslash : '/' ∉ suffix := by decide
  obtain ⟨hparts, hextend⟩ := Path.ofText_append hlast hname hslash
  have hne : (Path.ofText p).parts ≠ [] := List.ne_nil_of_mem (List.mem_of_getLast? hparts)
  have hproper : (packages.child p).IsProper := hpackages.join (Path.isProper_ofText p)
  have hchild : (packages.child p).parts.getLast? = some name := getLast?_child packages hparts
  have hends : endsWith suffix (packages.child p).written = endsWith suffix p :=
    (Path.endsWith_written hproper hchild hslash).trans (endsWith_last hslash hlast).symm
  rw [withSuffix, withSuffix, hends]
  split
  · exact Path.ofText_written hproper
  · rw [← Path.written_extend hchild, Path.ofText_written (hproper.extend hslash)]
    exact (Path.join_extend hne suffix).trans (by rw [← hextend]; rfl)

/-- **Both readings of a prefixed path name one file.** Of the line that imports a path behind the tilde, the path that
is written before compiling names, with the suffix of source files where it does not end with it, the file that is put
in the place of the line, from whatever directory the line is read.  The path may be of any shape as long as it ends
with a name. -/
theorem importTarget_eq_resolved (root : Text) {p : Text} (hquote : ∀ c ∈ p, isQuote c = false) (hline : '\n' ∉ p)
    (hword : ¬ importWord <:+: p) (hlast : (splitOn '/' p).getLast?.any Path.isName = true) :
    ∃ path, resolvePrefixed (.ofText root) tilde (importLine ('~' :: p)) = importLine path ∧
      (∀ directory, (importOf? (importLine ('~' :: p))).map (importTarget directory (.ofText root)) =
        some (.ofText (withSuffix suffix path))) ∧
      ∀ (tree : FileTree) (file : Path), tree.read file = .ok (importLine ('~' :: p)) → ∀ room,
        bundleWithin tree (.ofText root) (room + 1) file =
          bundleWithin tree (.ofText root) room (.ofText (withSuffix suffix path)) := by
  obtain ⟨name, hlast, hname⟩ := (Option.any_eq_true ..).1 hlast
  have hne : p ≠ [] := by
    rintro rfl
    obtain rfl : [] = name := Option.some.inj hlast
    exact absurd hname (by decide)
  have hfile (directory : Path) : importTarget directory (.ofText root) ('~' :: p) =
      .ofText (withSuffix suffix ((Path.ofText root).child p).written) := by
    rw [importTarget_prefixed, ofText_withSuffix_written (Path.isProper_ofText root) hlast hname]
  refine ⟨_, resolvePrefixed_importLine hne hquote hword, fun directory => ?_, fun tree file hread room => ?_⟩
  · rw [importOf?_importLine, Option.map_some, hfile]
  · have hpath : '\n' ∉ '~' :: p := List.not_mem_cons_of_ne_of_not_mem (by decide) hline
    rw [bundleWithin_importLine hpath hread, hfile]

/-- A path that goes back and holds slashes without names between them. -/
theorem importTarget_eq_resolved_back :
    let p : Text := "antd//lib/./style/../v1.less/index.css".toList
    ((∀ c ∈ p, isQuote c = false) ∧ '\n' ∉ p ∧ ¬ importWord <:+: p ∧ (splitOn '/' p).getLast?.any Path.isName = true) ∧
      resolvePrefixed (.ofText "/p//node_modules/".toList) tilde (importLine ('~' :: p)) =
        importLine "/p/node_modules/antd/lib/style/../v1.less/index.css".toList ∧
      ∀ directory, importTarget directory (.ofText "/p//node_modules/".toList) ('~' :: p) =
        .ofText "/p/node_modules/antd/lib/style/../v1.less/index.css.less".toList := by
  intro p
  have hp : (∀ c ∈ p, isQuote c = false) ∧ '\n' ∉ p ∧ ¬ importWord <:+: p ∧
      (splitOn '/' p).getLast?.any Path.isName = true := by decide +kernel
  obtain ⟨path, hwritten, hfile, -⟩ :=
    importTarget_eq_resolved "/p//node_modules/".toList hp.1 hp.2.1 hp.2.2.1 hp.2.2.2
  have hpath : path = "/p/node_modules/antd/lib/style/../v1.less/index.css".toList := by
    have himport := (congrArg importOf? hwritten).trans (importOf?_importLine path)
    have hrun : importOf? (resolvePrefixed (.ofText "/p//node_modules/".toList) tilde (importLine ('~' :: p))) =
        some "/p/node_modules/antd/lib/style/../v1.less/index.css".toList := by decide +kernel
    exact Option.some.inj (himport.symm.trans hrun)
  refine ⟨hp, by rw [hwritten, hpath], fun directory => ?_⟩
  have hdirectory := hfile directory
  rw [importOf?_importLine ('~' :: p), Option.map_some, hpath] at hdirectory
  exact (Option.some.inj hdirectory).trans (congrArg Path.ofText (by decide +kernel))

end Less
end ThemeSheet
