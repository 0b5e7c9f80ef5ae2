/-
# Paths of one file

Many paths lead to the same file: two dots go back, and a path may pass through a
directory more than once.  Two paths are those of one file if they end with the same
name and what stands before it leads to the same directory.  Such paths read alike, and
what is named from beside the one is also named from beside the other.
-/

import ThemeSheet.File.Tree
import ThemeSheet.Proofs.Fallible
import ThemeSheet.Proofs.Text.Utf8

namespace ThemeSheet

namespace Path

/-- A path with a last name is that name in its parent. -/
theorem parts_eq_of_getLast? {p : Path} {name : Text} (h : p.parts.getLast? = some name) :
    p.parts = p.parent.parts ++ [name] :=
  (List.dropLast_append_getLast? name h).symm

/-- Joined with an absolute path, a path gives way to it. -/
theorem join_of_absolute (p : Path) {q : Path} (hq : q.isAbsolute = true) : p.join q = q :=
  if_neg (by simpa [isAbsolute] using hq)

/-- Joined with a relative path, a path is continued by it. -/
theorem join_of_relative (p : Path) {q : Path} (hq : q.isAbsolute = false) :
    p.join q = ⟨p.anchor, p.parts ++ q.parts⟩ :=
  if_pos (by simpa [isAbsolute] using hq)

end Path

namespace FileTree

variable {tree : FileTree} {a b p : Path}

/-! ### Walking to the last name -/

/-- The last step of a walk goes from the directory by the name. -/
theorem walk?_of_getLast? {name : Text} (h : p.parts.getLast? = some name) :
    tree.walk? p = (tree.walk? p.parent).bind (tree.walkStep · name) := by
  rw [walk?, Path.parts_eq_of_getLast? h, List.foldlM_append]
  show (tree.walk? p.parent >>= fun place => [name].foldlM tree.walkStep place) = _
  simp [Option.bind_eq_bind]

/-- A path without names leads where its walk begins. -/
theorem walk?_of_getLast?_none (h : p.parts.getLast? = none) : tree.walk? p = tree.walk? p.parent := by
  have hnil : p.parts = [] := List.getLast?_eq_none_iff.1 h
  rw [walk?, walk?, Path.parent, hnil]
  rfl

/-- A step by a name other than `..` leads on from a directory, to the place of that name in it. -/
theorem walkStep_eq_some {place next : List Text} {name : Text} (hname : name ≠ Path.up) :
    tree.walkStep place name = some next ↔ tree.entry? place = some .directory ∧ next = place ++ [name] := by
  unfold walkStep
  split
  · next hdir => rw [Path.step, if_neg hname, hdir]; simp [eq_comm]
  · next hdir => exact ⟨fun h => absurd h (by simp), fun h => absurd h.1 hdir⟩

/-- A path without null characters is looked at unless it is too long. -/
theorem look_eq_ok {found : Option FileEntry} (h : p.hasNull = false) :
    tree.look p = .ok found ↔ tree.isTooLong p = false ∧ tree.find? p = found := by
  rw [look, h, if_neg Bool.false_ne_true]
  cases tree.isTooLong p <;> simp

/-- **The bytes of a file** are given exactly if the path can be walked and the file stands at its end. -/
theorem bytes_eq_ok {bytes : List UInt8} : tree.bytes p = .ok bytes ↔
    p.hasNull = false ∧ tree.isTooLong p = false ∧ tree.find? p = some (.file bytes) := by
  rw [FileTree.bytes, Fallible.bind_eq_ok, Path.checked]
  cases hnull : p.hasNull with
  | true => simp
  | false =>
    simp only [Bool.false_eq_true, if_false, true_and]
    constructor
    · rintro ⟨_, ⟨⟩, h⟩
      obtain ⟨found, hfound, h⟩ := Fallible.bind_eq_ok.1 h
      obtain ⟨hlong, hfind⟩ := (look_eq_ok hnull).1 hfound
      split at h
      · exact ⟨hlong, hfind.trans (by rw [Except.ok.inj h])⟩
      · exact absurd h (by simp [throw, throwThe, MonadExceptOf.throw])
    · intro h
      exact ⟨p, rfl, Fallible.bind_eq_ok.2 ⟨_, (look_eq_ok hnull).2 h, rfl⟩⟩

/-- **A file that is read** stands at the end of its path, and its bytes are UTF-8. -/
theorem read_eq_ok {t : Text} : tree.read p = .ok t ↔
    p.hasNull = false ∧ tree.isTooLong p = false ∧ ∃ bytes, tree.find? p = some (.file bytes) ∧
      ∃ u, Utf8.decode? bytes = some u ∧ t = Text.unixLines u := by
  rw [read, Fallible.bind_eq_ok]
  constructor
  · rintro ⟨bytes, hb, h⟩
    obtain ⟨hnull, hlong, hfind⟩ := bytes_eq_ok.1 hb
    refine ⟨hnull, hlong, bytes, hfind, ?_⟩
    split at h
    · next u hu => exact ⟨u, hu, (Except.ok.inj h).symm⟩
    · exact absurd h (by simp [throw, throwThe, MonadExceptOf.throw])
  · rintro ⟨hnull, hlong, bytes, hfind, u, hu, rfl⟩
    exact ⟨bytes, bytes_eq_ok.2 ⟨hnull, hlong, hfind⟩, by rw [hu]; rfl⟩

/-- The text of a file holds no carriage return. -/
theorem notMem_of_read {t : Text} (h : tree.read p = .ok t) : '\r' ∉ t := by
  obtain ⟨-, -, bytes, -, u, -, rfl⟩ := read_eq_ok.1 h
  exact Text.notMem_unixLines u

/-- **Bytes that write a text without carriage returns** are read as this text. -/
theorem read_of_bytes {t : Text} (hb : tree.bytes p = .ok (Utf8.encode t)) (ht : '\r' ∉ t) :
    tree.read p = .ok t := by
  rw [read, Fallible.bind_eq_ok]
  refine ⟨_, hb, ?_⟩
  rw [Utf8.decode?_encode]
  exact congrArg Except.ok (Text.unixLines_of_notMem ht)

/-! ### Paths of one file -/

/-- **Two paths of one file:** the same name in the same directory. -/
structure SameFile (tree : FileTree) (a b : Path) : Prop where
  directory : tree.walk? a.parent = tree.walk? b.parent
  name : a.parts.getLast? = b.parts.getLast?

/-- A path leads where it leads. -/
theorem SameFile.refl (tree : FileTree) (a : Path) : tree.SameFile a a := ⟨rfl, rfl⟩

/-- Leading to the same file goes on from path to path. -/
theorem SameFile.trans {c : Path} (h : tree.SameFile a b) (h' : tree.SameFile b c) : tree.SameFile a c :=
  ⟨h.directory.trans h'.directory, h.name.trans h'.name⟩

/-- Paths of one file lead to one place. -/
theorem SameFile.walk?_eq (h : tree.SameFile a b) : tree.walk? a = tree.walk? b := by
  cases hlast : a.parts.getLast? with
  | none =>
    have hlast' : b.parts.getLast? = none := h.name.symm.trans hlast
    rw [walk?_of_getLast?_none hlast, walk?_of_getLast?_none hlast', h.directory]
  | some name =>
    have hlast' : b.parts.getLast? = some name := h.name.symm.trans hlast
    rw [walk?_of_getLast? hlast, walk?_of_getLast? hlast', h.directory]

/-- **Paths of one file read alike.** -/
theorem SameFile.read_eq (h : tree.SameFile a b) {s t : Text} (ha : tree.read a = .ok s)
    (hb : tree.read b = .ok t) : s = t := by
  obtain ⟨-, -, bytes, hfa, u, hu, rfl⟩ := read_eq_ok.1 ha
  obtain ⟨-, -, bytes', hfb, u', hu', rfl⟩ := read_eq_ok.1 hb
  rw [find?, h.walk?_eq, ← find?, hfb] at hfa
  obtain rfl : bytes' = bytes := by simpa using hfa
  rw [Option.some.inj (hu.symm.trans hu')]

/-- A path that goes on with names, taken from a place: the walk to its last name. -/
theorem walk?_parent_join {q : Path} (hq : q.isAbsolute = false) (hne : q.parts ≠ []) :
    tree.walk? (p.join q).parent = (tree.walk? p).bind (q.parts.dropLast.foldlM tree.walkStep ·) := by
  rw [Path.join_of_relative p hq, walk?, Path.parent]
  dsimp only
  rw [List.dropLast_append_of_ne_nil hne, List.foldlM_append]
  rfl

/-- **What is named from beside one path of a file** is named from beside the other. -/
theorem SameFile.join (h : tree.SameFile a b) {q : Path} (hne : q.parts ≠ []) :
    tree.SameFile (a.parent.join q) (b.parent.join q) := by
  cases hq : q.isAbsolute with
  | true =>
    rw [Path.join_of_absolute _ hq, Path.join_of_absolute _ hq]
    exact .refl tree q
  | false =>
    refine ⟨?_, ?_⟩
    · rw [walk?_parent_join hq hne, walk?_parent_join hq hne, h.directory]
    · rw [Path.join_of_relative _ hq, Path.join_of_relative _ hq]
      simp [List.getLast?_append_of_ne_nil _ hne]

/-- **Paths that end with names and lead to one place** are those of one file. -/
theorem sameFile_of_walk?_eq {name name' : Text} (ha : a.parts.getLast? = some name)
    (hb : b.parts.getLast? = some name') (hname : name ≠ Path.up) (hname' : name' ≠ Path.up)
    {place : List Text} (hwa : tree.walk? a = some place) (hwb : tree.walk? b = some place) :
    tree.SameFile a b := by
  rw [walk?_of_getLast? ha] at hwa
  rw [walk?_of_getLast? hb] at hwb
  obtain ⟨dir, hda, hsa⟩ := Option.bind_eq_some_iff.1 hwa
  obtain ⟨dir', hdb, hsb⟩ := Option.bind_eq_some_iff.1 hwb
  obtain ⟨-, rfl⟩ := (walkStep_eq_some hname).1 hsa
  obtain ⟨-, he⟩ := (walkStep_eq_some hname').1 hsb
  obtain ⟨rfl, hlast⟩ := List.append_inj' he rfl
  exact ⟨hda.trans hdb.symm, by rw [ha, hb, List.singleton_inj.1 hlast]⟩

/-- A file that is read is one of the places of the tree. -/
theorem exists_place_of_read {t : Text} (h : tree.read p = .ok t) :
    ∃ place, tree.walk? p = some place ∧ place ∈ tree.entries.map Prod.fst := by
  obtain ⟨-, -, bytes, hfind, -⟩ := read_eq_ok.1 h
  obtain ⟨place, hwalk, hentry⟩ := Option.bind_eq_some_iff.1 hfind
  refine ⟨place, hwalk, ?_⟩
  unfold entry? at hentry
  split at hentry
  · simp at hentry
  · obtain ⟨l, r, he, -⟩ := List.lookup_eq_some_iff.1 hentry
    simp [he]

end FileTree
end ThemeSheet
