/-
# Bundling files

A file imports other files, line by line, and these import further ones.  `visits` lists
the files that are met on the way, depth first and line by line; `Expansion` says what
the lines of a file become when every import line gives way to the lines of the imported
file.  Bundling stops at the first file on the way that cannot be read, or that lies
deeper than imports may be nested; if there is none, it gives the expansion.

Only files that import each other in a circle are met more often than there are files:
without a circle no chain of imports is longer than the number of places of the tree.
What was bundled holds no import line, so bundling it again leaves it as it is.
-/

import Mathlib.Data.List.Nodup
import Mathlib.Data.List.Perm.Subperm
import ThemeSheet.Less.Import
import ThemeSheet.Proofs.File.Place
import ThemeSheet.Proofs.Text.Split

namespace ThemeSheet
namespace Less

open Text

variable (tree : FileTree) (packages : Path)

/-! ### Which files are met -/

/-- The files that the lines of a file in `directory` import. -/
def importsIn (directory : Path) (lines : List Text) : List Path :=
  lines.filterMap fun line => (importOf? line).map (importTarget directory packages)

/-- The files that a file imports, in the order of its lines; none if it cannot be read. -/
def imports (file : Path) : List Path :=
  match tree.read file with
  | .ok content => importsIn packages file.parent (lines content)
  | .error _ => []

/-- From the first file to the second one lead `n` imports, each from the file before it. -/
inductive ReachedIn : Nat → Path → Path → Prop
  | here (file : Path) : ReachedIn 0 file file
  | step {n : Nat} {file next last : Path} : next ∈ imports tree packages file →
      ReachedIn n next last → ReachedIn (n + 1) file last

/-- Imports lead from the file to one that is reached again from itself. -/
def ReachesCircle (file : Path) : Prop :=
  ∃ n m a b, ReachedIn tree packages n file a ∧ ReachedIn tree packages (m + 1) a b ∧ tree.SameFile a b

/-- A file that is met, and how deep the imports from there on may be nested. -/
structure Visit where
  file : Path
  room : Nat

/-- Why the bundling stops at a file: there is no room for it, or it cannot be read. -/
def Visit.fault? (v : Visit) : Option Fault :=
  if v.room = 0 then some (.importsTooDeep v.file.written) else Fallible.fault? (tree.read v.file)

/-- The files that are met from a file on, itself first, depth first and in the order of the lines. -/
def visits : Nat → Path → List Visit
  | 0, file => [⟨file, 0⟩]
  | room + 1, file => ⟨file, room + 1⟩ :: (imports tree packages file).flatMap (visits room)

variable {tree packages}

/-- The imports of a file that is read are those of its lines. -/
theorem imports_of_read {file : Path} {content : Text} (h : tree.read file = .ok content) :
    imports tree packages file = importsIn packages file.parent (lines content) := by
  rw [imports, h]

/-- Chains of imports one behind the other are a chain. -/
theorem ReachedIn.trans {n m : Nat} {a b c : Path} (h : ReachedIn tree packages n a b)
    (h' : ReachedIn tree packages m b c) : ReachedIn tree packages (n + m) a c := by
  induction h with
  | here => simpa using h'
  | step hnext _ ih => rw [Nat.add_right_comm]; exact .step hnext (ih h')

/-- A chain of imports has a beginning of every smaller length. -/
theorem ReachedIn.exists_of_le {n m : Nat} {a c : Path} (h : ReachedIn tree packages n a c) (hm : m ≤ n) :
    ∃ b, ReachedIn tree packages m a b := by
  induction h generalizing m with
  | here file => exact ⟨file, by rw [Nat.le_zero.1 hm]; exact .here file⟩
  | @step n file next last hnext _ ih =>
    cases m with
    | zero => exact ⟨file, .here file⟩
    | succ m =>
      obtain ⟨b, hb⟩ := ih (Nat.le_of_succ_le_succ hm)
      exact ⟨b, .step hnext hb⟩

/-- **The files that are met** are those that imports lead to, as far as there is room. -/
theorem mem_visits {room : Nat} {file : Path} {v : Visit} : v ∈ visits tree packages room file ↔
    ∃ n, n + v.room = room ∧ ReachedIn tree packages n file v.file := by
  induction room generalizing file with
  | zero =>
    rw [visits, List.mem_singleton]
    constructor
    · rintro rfl
      exact ⟨0, rfl, .here file⟩
    · rintro ⟨n, hn, h⟩
      obtain ⟨rfl, hroom⟩ := Nat.add_eq_zero_iff.1 hn
      cases h
      rw [← hroom]
  | succ room ih =>
    rw [visits, List.mem_cons, List.mem_flatMap]
    constructor
    · rintro (rfl | ⟨next, hnext, hv⟩)
      · exact ⟨0, Nat.zero_add _, .here file⟩
      · obtain ⟨n, hn, h⟩ := ih.1 hv
        exact ⟨n + 1, by omega, .step hnext h⟩
    · rintro ⟨n, hn, h⟩
      cases h with
      | here => exact .inl (by rw [← hn, Nat.zero_add])
      | @step n _ next _ hnext h => exact .inr ⟨next, hnext, ih.2 ⟨n, by omega, h⟩⟩

/-! ### Where the bundling stops -/

/-- The imports of lines are those of the first one and those of the others. -/
theorem importsIn_cons (directory : Path) (line : Text) (ls : List Text) :
    importsIn packages directory (line :: ls) =
      ((importOf? line).map (importTarget directory packages)).toList ++ importsIn packages directory ls := by
  rw [importsIn, List.filterMap_cons]
  cases importOf? line <;> rfl

/-- What becomes of a line of a file in `directory`. -/
def bundleLine (tree : FileTree) (packages : Path) (room : Nat) (directory : Path) (line : Text) :
    Except Fault Text :=
  match importOf? line with
  | some path => bundleWithin tree packages room (importTarget directory packages path)
  | none => pure line

/-- Where there is room, a file is read, its lines are bundled, and they are joined. -/
theorem bundleWithin_succ (tree : FileTree) (packages : Path) (room : Nat) (file : Path) :
    bundleWithin tree packages (room + 1) file = tree.read file >>= fun content =>
      (lines content).mapM (bundleLine tree packages room file.parent) >>= fun ls =>
        pure (join ['\n'] ls) := rfl

/-- A line without an import stays. -/
theorem bundleLine_of_none {room : Nat} {directory : Path} {line : Text} (h : importOf? line = none) :
    bundleLine tree packages room directory line = .ok line := by
  rw [bundleLine, h]
  rfl

/-- An import line gives way to the file that it imports. -/
theorem bundleLine_of_some {room : Nat} {directory : Path} {line path : Text}
    (h : importOf? line = some path) : bundleLine tree packages room directory line =
      bundleWithin tree packages room (importTarget directory packages path) := by
  rw [bundleLine, h]

/-- The first fault in the lines is that of the files that they import. -/
theorem findSome?_bundleLine {room : Nat}
    (h : ∀ file, Fallible.fault? (bundleWithin tree packages room file) =
      (visits tree packages room file).findSome? (Visit.fault? tree)) (directory : Path) (ls : List Text) :
    (ls.findSome? fun line => Fallible.fault? (bundleLine tree packages room directory line)) =
      ((importsIn packages directory ls).flatMap (visits tree packages room)).findSome?
        (Visit.fault? tree) := by
  induction ls with
  | nil => rfl
  | cons line ls ih =>
    rw [List.findSome?_cons, ih, importsIn_cons]
    cases hline : importOf? line with
    | none => rw [bundleLine_of_none hline]; rfl
    | some path =>
      rw [bundleLine_of_some hline, h, Option.map_some, Option.toList_some, List.singleton_append,
        List.flatMap_cons, List.findSome?_append]
      cases (visits tree packages room (importTarget directory packages path)).findSome? _ <;> rfl

/-- **Bundling stops with the fault of the first file on the way that has one.** -/
theorem fault?_bundleWithin (tree : FileTree) (packages : Path) (room : Nat) (file : Path) :
    Fallible.fault? (bundleWithin tree packages room file) =
      (visits tree packages room file).findSome? (Visit.fault? tree) := by
  induction room generalizing file with
  | zero => rfl
  | succ room ih =>
    rw [visits, List.findSome?_cons, Visit.fault?, if_neg (Nat.succ_ne_zero room), bundleWithin_succ]
    cases hread : tree.read file with
    | error fault => rfl
    | ok content =>
      rw [imports_of_read hread]
      dsimp only [Fallible.fault?]
      rw [← findSome?_bundleLine ih, ← Fallible.fault?_mapM]
      show Fallible.fault? ((lines content).mapM (bundleLine tree packages room file.parent) >>= _) = _
      cases (lines content).mapM (bundleLine tree packages room file.parent) <;> rfl

/-- Every file that imports lead to can be read. -/
def AllReadable (tree : FileTree) (packages file : Path) : Prop :=
  ∀ n b, ReachedIn tree packages n file b → ∃ content, tree.read b = .ok content

/-- **Bundling gives a result** exactly if all files on the way can be read and none of them lies too
deep. -/
theorem exists_bundleWithin_eq_ok {limit : Nat} {file : Path} :
    (∃ text, bundleWithin tree packages limit file = .ok text) ↔
      AllReadable tree packages file ∧ ¬ ∃ b, ReachedIn tree packages limit file b := by
  rw [← Fallible.fault?_eq_none, fault?_bundleWithin, List.findSome?_eq_none_iff]
  constructor
  · intro h
    have hlimit : ¬ ∃ b, ReachedIn tree packages limit file b := by
      rintro ⟨b, hb⟩
      have := h ⟨b, 0⟩ (mem_visits.2 ⟨limit, rfl, hb⟩)
      simp [Visit.fault?] at this
    refine ⟨fun n b hb => ?_, hlimit⟩
    have hn : n < limit := by
      by_contra hge
      exact hlimit (hb.exists_of_le (Nat.not_lt.1 hge))
    have hv := h ⟨b, limit - n⟩ (mem_visits.2 ⟨n, by dsimp only; omega, hb⟩)
    rw [Visit.fault?, if_neg (by dsimp only; omega)] at hv
    exact Fallible.fault?_eq_none.1 hv
  · rintro ⟨hread, hlimit⟩ ⟨b, room⟩ hv
    obtain ⟨n, hn, hb⟩ := mem_visits.1 hv
    have hroom : room ≠ 0 := by
      rintro rfl
      exact hlimit ⟨b, by rwa [← hn]⟩
    rw [Visit.fault?, if_neg hroom]
    exact Fallible.fault?_eq_none.2 (hread n b hb)

/-! ### Circles -/

/-- A text with a suffix ends with it. -/
theorem exists_eq_append_of_withSuffix (s t : Text) : ∃ front, withSuffix s t = front ++ s := by
  rw [withSuffix]
  split
  · next h =>
    obtain ⟨r, hr⟩ := beginsWith_iff.1 h
    exact ⟨r.reverse, by rw [← List.reverse_reverse t, hr, List.reverse_append, List.reverse_reverse]⟩
  · exact ⟨t, rfl⟩

/-- A path with the suffix of source files ends with a name that does not lead back. -/
theorem exists_getLast?_ofText (front : Text) :
    ∃ name, (Path.ofText (front ++ suffix)).parts.getLast? = some name ∧ name ≠ Path.up := by
  obtain ⟨before, piece, hsplit⟩ := @splitOn_append_last '/' suffix (by decide) front
  have hlong : suffix.length ≤ (piece ++ suffix).length := by simp
  refine ⟨piece ++ suffix, ?_, fun h => absurd (h ▸ hlong) (by decide)⟩
  have hname : Path.isName (piece ++ suffix) = true := by
    rw [Path.isName, decide_eq_true_iff]
    exact ⟨fun h => absurd (h ▸ hlong) (by decide), fun h => absurd (h ▸ hlong) (by decide)⟩
  rw [Path.ofText, hsplit, List.filter_append, List.filter_singleton, hname]
  simp

/-- **An import path is taken from the package directory or from beside the file,** and ends with the
suffix of source files. -/
theorem importTarget_cases (packages : Path) (path : Text) : ∃ front,
    (∀ directory, importTarget directory packages path = packages.child (front ++ suffix)) ∨
      ∀ directory : Path, importTarget directory packages path = directory.child (front ++ suffix) := by
  obtain ⟨front, hfront⟩ := exists_eq_append_of_withSuffix suffix path
  cases front with
  | nil => exact ⟨[], .inr fun directory => by rw [importTarget, hfront]; rfl⟩
  | cons c front =>
    by_cases hc : c = '~'
    · subst hc
      exact ⟨front, .inl fun directory => by rw [importTarget, hfront]; rfl⟩
    · refine ⟨c :: front, .inr fun directory => ?_⟩
      rw [importTarget, hfront]
      split
      · next he => exact absurd (List.cons.inj he).1 hc
      · rfl

/-- What is named from beside a directory ends with the last name of its path. -/
theorem getLast?_child (p : Path) {t name : Text} (h : (Path.ofText t).parts.getLast? = some name) :
    (p.child t).parts.getLast? = some name := by
  have hne : (Path.ofText t).parts ≠ [] := by
    intro hnil
    rw [hnil] at h
    simp at h
  rw [Path.child]
  cases hq : (Path.ofText t).isAbsolute with
  | true => rwa [Path.join_of_absolute _ hq]
  | false =>
    rw [Path.join_of_relative _ hq]
    simpa [List.getLast?_append_of_ne_nil _ hne] using h

/-- An imported file has a name that does not lead back. -/
theorem ReachedIn.exists_getLast? {n : Nat} {a b : Path} (h : ReachedIn tree packages (n + 1) a b) :
    ∃ name, b.parts.getLast? = some name ∧ name ≠ Path.up := by
  induction n generalizing a with
  | zero =>
    cases h with
    | step hnext h =>
      cases h
      rw [imports] at hnext
      split at hnext
      · obtain ⟨line, -, hpath⟩ := List.mem_filterMap.1 hnext
        obtain ⟨path, -, rfl⟩ := Option.map_eq_some_iff.1 hpath
        obtain ⟨front, hfront⟩ := importTarget_cases packages path
        obtain ⟨name, hname, hup⟩ := exists_getLast?_ofText front
        rcases hfront with h | h <;> exact ⟨name, by rw [h]; exact getLast?_child _ hname, hup⟩
      · exact absurd hnext List.not_mem_nil
  | succ n ih =>
    cases h with
    | step _ h => exact ih h

/-- **Two paths of a file import the same files.** -/
theorem exists_mem_imports {a b c : Path} {s t : Text} (h : tree.SameFile a b)
    (ha : tree.read a = .ok s) (hb : tree.read b = .ok t) (hc : c ∈ imports tree packages a) :
    ∃ d ∈ imports tree packages b, tree.SameFile c d := by
  obtain rfl := h.read_eq ha hb
  rw [imports_of_read ha] at hc
  obtain ⟨line, hline, hpath⟩ := List.mem_filterMap.1 hc
  obtain ⟨path, himport, rfl⟩ := Option.map_eq_some_iff.1 hpath
  refine ⟨importTarget b.parent packages path, ?_, ?_⟩
  · rw [imports_of_read hb]
    exact List.mem_filterMap.2 ⟨line, hline, by rw [himport]; rfl⟩
  · obtain ⟨front, hfront | hfront⟩ := importTarget_cases packages path
    · rw [hfront, hfront]
      exact .refl ..
    · rw [hfront, hfront]
      obtain ⟨name, hname, -⟩ := exists_getLast?_ofText front
      exact h.join fun hnil => by rw [hnil] at hname; simp at hname

/-- If all files that a file leads to can be read, so can those that one of them leads to. -/
theorem AllReadable.of_reachedIn {n : Nat} {a b : Path} (h : AllReadable tree packages a)
    (hb : ReachedIn tree packages n a b) : AllReadable tree packages b :=
  fun m c hc => h (n + m) c (hb.trans hc)

/-- Chains of imports go alike from two paths of a file. -/
theorem ReachedIn.exists_sameFile {n : Nat} {a b c : Path} (hc : ReachedIn tree packages n a c)
    (h : tree.SameFile a b) (ha : AllReadable tree packages a) (hb : AllReadable tree packages b) :
    ∃ d, ReachedIn tree packages n b d ∧ tree.SameFile c d := by
  induction hc generalizing b with
  | here => exact ⟨b, .here b, h⟩
  | @step n a next c hnext _ ih =>
    obtain ⟨s, hs⟩ := ha 0 a (.here a)
    obtain ⟨t, ht⟩ := hb 0 b (.here b)
    obtain ⟨next', hnext', hsame⟩ := exists_mem_imports h hs ht hnext
    obtain ⟨d, hd, hcd⟩ := ih hsame (ha.of_reachedIn (.step hnext (.here _)))
      (hb.of_reachedIn (.step hnext' (.here _)))
    exact ⟨d, .step hnext' hd, hcd⟩

/-- **Once round a circle, imports lead round it any number of times.** -/
theorem exists_reachedIn_mul {m : Nat} {a b : Path} (hread : AllReadable tree packages a)
    (hab : ReachedIn tree packages (m + 1) a b) (hsame : tree.SameFile a b) (k : Nat) :
    ∃ c, ReachedIn tree packages (k * (m + 1)) a c ∧ tree.SameFile a c := by
  induction k with
  | zero => exact ⟨a, by rw [Nat.zero_mul]; exact .here a, .refl ..⟩
  | succ k ih =>
    obtain ⟨c, hc, hac⟩ := ih
    obtain ⟨d, hd, hbd⟩ := hab.exists_sameFile hac hread (hread.of_reachedIn hc)
    exact ⟨d, by rw [Nat.succ_mul]; exact hc.trans hd, hsame.trans hbd⟩

/-- **A circle is a chain of imports of any length.** -/
theorem ReachesCircle.exists_reachedIn {file : Path} (h : ReachesCircle tree packages file)
    (hread : AllReadable tree packages file) (limit : Nat) :
    ∃ b, ReachedIn tree packages limit file b := by
  obtain ⟨n, m, a, b, ha, hab, hsame⟩ := h
  obtain ⟨c, hc, -⟩ := exists_reachedIn_mul (hread.of_reachedIn ha) hab hsame limit
  exact (ha.trans hc).exists_of_le ((Nat.le_mul_of_pos_right limit m.succ_pos).trans (Nat.le_add_left ..))

/-- Without a circle, the files on a chain of imports stand at different places. -/
theorem ReachedIn.exists_places {n : Nat} {file last : Path} (h : ReachedIn tree packages n file last)
    (hread : AllReadable tree packages file) (hcircle : ¬ ReachesCircle tree packages file) :
    ∃ places : List (List Text), places.length = n ∧ places.Nodup ∧
      ∀ place ∈ places, place ∈ tree.entries.map Prod.fst ∧
        ∃ m b, ReachedIn tree packages (m + 1) file b ∧ tree.walk? b = some place := by
  induction h with
  | here => exact ⟨[], rfl, .nil, by simp⟩
  | @step n file next last hnext _ ih =>
    have hone : ReachedIn tree packages 1 file next := .step hnext (.here next)
    obtain ⟨content, hcontent⟩ := hread 1 next hone
    obtain ⟨place, hwalk, hmem⟩ := FileTree.exists_place_of_read hcontent
    obtain ⟨name, hname, hup⟩ := hone.exists_getLast?
    obtain ⟨places, hlength, hnodup, hplaces⟩ := ih (hread.of_reachedIn hone) fun ⟨k, m, a, b, ha, hab⟩ =>
      hcircle ⟨k + 1, m, a, b, .step hnext ha, hab⟩
    refine ⟨place :: places, by simp [hlength], List.nodup_cons.2 ⟨fun hm => ?_, hnodup⟩, ?_⟩
    · -- the place would be met again from itself
      obtain ⟨-, m, b, hb, hwalk'⟩ := hplaces place hm
      obtain ⟨name', hname', hup'⟩ := hb.exists_getLast?
      exact hcircle ⟨1, m, next, b, hone, hb,
        FileTree.sameFile_of_walk?_eq hname hname' hup hup' hwalk hwalk'⟩
    · intro p hp
      rcases List.mem_cons.1 hp with rfl | hp
      · exact ⟨hmem, 0, next, hone, hwalk⟩
      · obtain ⟨hkey, m, b, hb, hw⟩ := hplaces p hp
        exact ⟨hkey, m + 1, b, .step hnext hb, hw⟩

/-- **Without a circle, no chain of imports is longer than the tree has places.** -/
theorem ReachedIn.le_length_entries {n : Nat} {file last : Path}
    (h : ReachedIn tree packages n file last) (hread : AllReadable tree packages file)
    (hcircle : ¬ ReachesCircle tree packages file) : n ≤ tree.entries.length := by
  obtain ⟨places, rfl, hnodup, hplaces⟩ := h.exists_places hread hcircle
  simpa using (hnodup.subperm fun p hp => (hplaces p hp).1).length_le

/-! ### What the bundling gives -/

variable (tree packages) in
/-- What the lines of a file in `directory` become when the lines of imported files stand in the place
of import lines. -/
inductive Expansion : Path → List Text → List Text → Prop
  | nil (directory : Path) : Expansion directory [] []
  | kept {directory : Path} {line : Text} {ls out : List Text} : importOf? line = none →
      Expansion directory ls out → Expansion directory (line :: ls) (line :: out)
  | imported {directory : Path} {line path content : Text} {ls new out : List Text} :
      importOf? line = some path → tree.read (importTarget directory packages path) = .ok content →
      Expansion (importTarget directory packages path).parent (lines content) new →
      Expansion directory ls out → Expansion directory (line :: ls) (new ++ out)

/-- The lines of a file with those of imported files in their places. -/
def ExpandsTo (tree : FileTree) (packages file : Path) (out : List Text) : Prop :=
  ∃ content, tree.read file = .ok content ∧ Expansion tree packages file.parent (lines content) out

/-- Lines have one expansion at most. -/
theorem Expansion.unique {directory : Path} {ls out out' : List Text}
    (h : Expansion tree packages directory ls out) (h' : Expansion tree packages directory ls out') :
    out = out' := by
  induction h generalizing out' with
  | nil => cases h'; rfl
  | kept hline _ ih =>
    cases h' with
    | kept _ h' => rw [ih h']
    | imported hline' => exact absurd (hline.symm.trans hline') (by simp)
  | imported hline hread _ _ ihnew ih =>
    cases h' with
    | kept hline' => exact absurd (hline.symm.trans hline') (by simp)
    | imported hline' hread' hnew' h' =>
      obtain rfl := Option.some.inj (hline.symm.trans hline')
      obtain rfl := Except.ok.inj (hread.symm.trans hread')
      rw [ihnew hnew', ih h']

/-- **A file has one expansion at most.** -/
theorem ExpandsTo.unique {file : Path} {out out' : List Text} (h : ExpandsTo tree packages file out)
    (h' : ExpandsTo tree packages file out') : out = out' := by
  obtain ⟨content, hread, hout⟩ := h
  obtain ⟨content', hread', hout'⟩ := h'
  obtain rfl := Except.ok.inj (hread.symm.trans hread')
  exact hout.unique hout'

/-- The expansion of lines is not empty unless there are none. -/
theorem Expansion.ne_nil {directory : Path} {ls out : List Text}
    (h : Expansion tree packages directory ls out) (hls : ls ≠ []) : out ≠ [] := by
  induction h with
  | nil => exact absurd rfl hls
  | kept => simp
  | imported _ _ _ _ ihnew _ => simp [ihnew (splitOn_ne_nil _ _)]

/-- The lines of a file that is read hold no line end of any kind. -/
theorem notMem_of_mem_lines {file : Path} {content line : Text} (h : tree.read file = .ok content)
    (hline : line ∈ lines content) : '\n' ∉ line ∧ '\r' ∉ line :=
  ⟨(mem_splitOn hline).1, fun hm => FileTree.notMem_of_read h ((mem_splitOn hline).2 _ hm)⟩

/-- **No line of an expansion imports a file,** and all of them are lines. -/
theorem Expansion.mem_out {directory : Path} {ls out : List Text}
    (h : Expansion tree packages directory ls out) (hls : ∀ line ∈ ls, '\n' ∉ line ∧ '\r' ∉ line) :
    ∀ line ∈ out, importOf? line = none ∧ '\n' ∉ line ∧ '\r' ∉ line := by
  induction h with
  | nil => simp
  | kept hline _ ih =>
    rw [List.forall_mem_cons] at hls ⊢
    exact ⟨⟨hline, hls.1⟩, ih hls.2⟩
  | imported _ hread _ _ ihnew ih =>
    rw [List.forall_mem_cons] at hls
    rw [List.forall_mem_append]
    exact ⟨ihnew fun _ => notMem_of_mem_lines hread, ih hls.2⟩

/-- The lines of a file, each bundled, are its expansion. -/
theorem exists_expansion {room : Nat} {directory : Path} {ls parts : List Text}
    (hbundle : ∀ file text, bundleWithin tree packages room file = .ok text →
      ∃ out, ExpandsTo tree packages file out ∧ text = join ['\n'] out)
    (h : List.Forall₂ (fun line part => bundleLine tree packages room directory line = .ok part) ls parts) :
    ∃ outs : List (List Text), Expansion tree packages directory ls outs.flatten ∧
      parts = outs.map (join ['\n']) ∧ ∀ out ∈ outs, out ≠ [] := by
  induction h with
  | nil => exact ⟨[], .nil directory, rfl, by simp⟩
  | @cons line part ls parts hpart _ ih =>
    obtain ⟨outs, hout, rfl, hne⟩ := ih
    cases hline : importOf? line with
    | none =>
      rw [bundleLine_of_none hline] at hpart
      obtain rfl := Except.ok.inj hpart
      refine ⟨[line] :: outs, .kept hline hout, rfl, ?_⟩
      exact List.forall_mem_cons.2 ⟨by simp, hne⟩
    | some path =>
      rw [bundleLine_of_some hline] at hpart
      obtain ⟨new, ⟨content, hread, hnew⟩, rfl⟩ := hbundle _ _ hpart
      refine ⟨new :: outs, .imported hline hread hnew hout, rfl, ?_⟩
      exact List.forall_mem_cons.2 ⟨hnew.ne_nil (splitOn_ne_nil _ _), hne⟩

/-- **What bundling gives is the expansion of the file.** -/
theorem exists_expandsTo {room : Nat} {file : Path} {text : Text}
    (h : bundleWithin tree packages room file = .ok text) :
    ∃ out, ExpandsTo tree packages file out ∧ text = join ['\n'] out := by
  induction room generalizing file text with
  | zero => exact absurd h (by simp [bundleWithin])
  | succ room ih =>
    rw [bundleWithin_succ] at h
    obtain ⟨content, hread, h⟩ := Fallible.bind_eq_ok.1 h
    obtain ⟨parts, hparts, h⟩ := Fallible.bind_eq_ok.1 h
    obtain ⟨outs, hout, rfl, hne⟩ := exists_expansion (fun _ _ => ih) (Fallible.mapM_eq_ok.1 hparts)
    refine ⟨outs.flatten, ⟨content, hread, hout⟩, ?_⟩
    rw [← join_map_join _ hne]
    exact (Except.ok.inj h).symm

/-- A file without import lines is bundled as it is. -/
theorem bundleWithin_of_read {room : Nat} {file : Path} {text : Text} (h : tree.read file = .ok text)
    (hlines : ∀ line ∈ lines text, importOf? line = none) :
    bundleWithin tree packages (room + 1) file = .ok text := by
  have hmap : (lines text).mapM (bundleLine tree packages room file.parent) = .ok ((lines text).map id) :=
    Fallible.mapM_of_forall fun line hline => bundleLine_of_none (hlines line hline)
  rw [bundleWithin_succ, h]
  refine Fallible.bind_eq_ok.2 ⟨text, rfl, Fallible.bind_eq_ok.2 ⟨_, hmap, ?_⟩⟩
  rw [List.map_id, lines, join_splitOn]
  rfl

/-- The lines of an expansion are those of the text that they make. -/
theorem ExpandsTo.lines_eq {file : Path} {out : List Text} (h : ExpandsTo tree packages file out) :
    lines (join ['\n'] out) = out ∧ (∀ line ∈ out, importOf? line = none) ∧ '\r' ∉ join ['\n'] out := by
  obtain ⟨content, hread, hout⟩ := h
  have hmem := hout.mem_out fun _ => notMem_of_mem_lines hread
  refine ⟨splitOn_join (hout.ne_nil (splitOn_ne_nil _ _)) fun line hl => (hmem line hl).2.1,
    fun line hl => (hmem line hl).1, fun hr => ?_⟩
  rcases mem_join hr with hr | ⟨line, hl, hr⟩
  · exact absurd hr (by decide)
  · exact (hmem line hl).2.2 hr

/-- **Bundling, whatever the limit on nested imports** (for `bundle` it is `importDepth`).  It gives a
result exactly if every file that imports lead to can be read and imports lead neither round in a circle
nor as deep as the limit; without a circle they go no deeper than the tree has places.  Otherwise it
stops with the fault of the first file, depth first and line by line, that has one.  The result is the
expansion of the file; it holds no import line, and a file with this text, wherever it stands, is bundled
as it is. -/
theorem bundleWithin_spec (tree : FileTree) (packages file : Path) (limit : Nat) :
    ((∃ text, bundleWithin tree packages limit file = .ok text) ↔
        AllReadable tree packages file ∧ ¬ ReachesCircle tree packages file ∧
          ¬ ∃ b, ReachedIn tree packages limit file b) ∧
      (AllReadable tree packages file → ¬ ReachesCircle tree packages file →
        ∀ n b, ReachedIn tree packages n file b → n ≤ tree.entries.length) ∧
      (∀ fault, bundleWithin tree packages limit file = .error fault ↔
        (visits tree packages limit file).findSome? (Visit.fault? tree) = some fault) ∧
      ∀ text, bundleWithin tree packages limit file = .ok text →
        (∃ out, (∀ out', ExpandsTo tree packages file out' ↔ out' = out) ∧ text = join ['\n'] out) ∧
        (∀ line ∈ lines text, importOf? line = none) ∧
        ∀ (tree' : FileTree) (packages' file' : Path) (limit' : Nat),
          tree'.bytes file' = .ok (Utf8.encode text) →
            bundleWithin tree' packages' (limit' + 1) file' = .ok text := by
  refine ⟨?_, fun hread hcircle n b hb => hb.le_length_entries hread hcircle, fun fault => ?_, ?_⟩
  · rw [exists_bundleWithin_eq_ok]
    exact ⟨fun ⟨hread, hlimit⟩ => ⟨hread, fun hcircle => hlimit (hcircle.exists_reachedIn hread limit), hlimit⟩,
      fun ⟨hread, _, hlimit⟩ => ⟨hread, hlimit⟩⟩
  · rw [← Fallible.fault?_eq_some, fault?_bundleWithin]
  · intro text h
    obtain ⟨out, hout, rfl⟩ := exists_expandsTo h
    obtain ⟨hlines, hnone, hr⟩ := hout.lines_eq
    refine ⟨⟨out, fun out' => ⟨fun h' => h'.unique hout, fun he => he ▸ hout⟩, rfl⟩, ?_, ?_⟩
    · rwa [hlines]
    · intro tree' packages' file' limit' hbytes
      exact bundleWithin_of_read (FileTree.read_of_bytes hbytes hr) (by rwa [hlines])

/-- Two files that import each other by paths that grow, and one that imports a package twice. -/
def circleTree : FileTree :=
  (FileTree.empty [])
    |>.addFile (.ofText "/x/a.less".toList) "@import '../x/b';".toUTF8.toList
    |>.addFile (.ofText "/x/b.less".toList) "@import \"../x/a.less\";".toUTF8.toList
    |>.addFile (.ofText "/c.less".toList) "@import '~p';\r\n.c;\r\n@import \"~p.less\"; gone".toUTF8.toList
    |>.addFile (.ofText "/m/p.less".toList) "@p: 1;\n".toUTF8.toList

example : (bundle circleTree (.ofText "/m".toList) (.ofText "/c.less".toList)).toOption =
    some "@p: 1;\n\n.c;\n@p: 1;\n".toList := by
  decide +kernel

example : Fallible.fault? (bundleWithin circleTree (.ofText "/m".toList) 3 (.ofText "/x/a.less".toList)) =
    some (.importsTooDeep "/x/../x/../x/../x/b.less".toList) := by
  decide +kernel

end Less
end ThemeSheet
