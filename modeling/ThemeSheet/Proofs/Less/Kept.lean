/-
# What bundling keeps of the files

An import line gives way as a whole.  So the lines of the result are the lines of the
bundled files that import nothing, in their order, and what stands beside an import
statement on its line comes into the result only where it stands on such a line too.
Where import lines hold nothing but statements, all text beside the statements is kept.
-/

import ThemeSheet.Less.Evaluator
import ThemeSheet.Proofs.Less.Bundle
import ThemeSheet.Proofs.Less.Import
import ThemeSheet.Proofs.Text.InOrder

namespace ThemeSheet
namespace Less

open Text

variable {tree : FileTree} {packages file f : Path} {content line s t text : Text} {ls out : List Text}

/-! ### The text beside the statements -/

/-- The pieces between import statements, the first and the last one often empty. -/
def pieces : List Evaluator.Part → List Text
  | [] => [[]]
  | .importOf _ :: ps => [] :: pieces ps
  | .char c :: ps =>
    match pieces ps with
    | [] => [[c]]
    | piece :: rest => (c :: piece) :: rest

/-- The import statements of lines, and the characters between them. -/
def partsOfLines : List Text → List Evaluator.Part
  | [] => []
  | [line] => Evaluator.parts line
  | line :: next :: ls => Evaluator.parts line ++ .char '\n' :: partsOfLines (next :: ls)

/-- **The text of a file beside its import statements,** each of them from the word to its own semicolon: what stands
before, between and behind them. -/
def besideStatements (content : Text) : List Text := pieces (partsOfLines (lines content))

/-- Is the piece of a text an import statement? -/
def isStatement : Evaluator.Part → Bool
  | .importOf _ => true
  | .char _ => false

/-- Nothing but import statements stands on the line. -/
def OnlyStatements (line : Text) : Prop := ∀ part ∈ Evaluator.parts line, isStatement part = true

/-- Whether a line has import statements only can be checked. -/
instance (line : Text) : Decidable (OnlyStatements line) := inferInstanceAs (Decidable (∀ part ∈ _, _))

/-- **A text with something in the place of its import statements.** -/
inductive Replaced : List Evaluator.Part → Text → Prop
  | nil : Replaced [] []
  | char (c : Char) {ps : List Evaluator.Part} {t : Text} : Replaced ps t → Replaced (.char c :: ps) (c :: t)
  | importOf (path new : Text) {ps : List Evaluator.Part} {t : Text} : Replaced ps t →
      Replaced (.importOf path :: ps) (new ++ t)

namespace Replaced

variable {ps qs : List Evaluator.Part}

/-- What replaces the statements of two texts replaces those of both in one. -/
theorem append (hs : Replaced ps s) (ht : Replaced qs t) : Replaced (ps ++ qs) (s ++ t) := by
  induction hs with
  | nil => exact ht
  | char c _ ih => exact .char c ih
  | importOf path new _ ih => rw [List.append_assoc]; exact .importOf path new ih

/-- A text has its own statements in their place. -/
theorem parts (t : Text) : Replaced (Evaluator.parts t) t := by
  fun_induction Evaluator.parts t with
  | case1 => exact .nil
  | case2 c t path rest hstatement hle ih =>
    obtain ⟨blanks, q, q', ht, -⟩ := Evaluator.statement?_eq_some.1 hstatement
    have hfront : c :: t = (importWord ++ blanks ++ q :: path ++ [q', ';']) ++ rest := by rw [ht]; simp
    rw [hfront]
    exact .importOf path _ ih
  | case3 c t path rest hstatement hle ih => exact .char c ih
  | case4 c t hstatement ih => exact .char c ih

/-- In the place of statements, anything may stand. -/
theorem of_isStatement (hne : ps ≠ []) (h : ∀ part ∈ ps, isStatement part = true) (t : Text) : Replaced ps t := by
  induction ps generalizing t with
  | nil => exact absurd rfl hne
  | cons part ps ih =>
    obtain ⟨hpart, hps⟩ := List.forall_mem_cons.1 h
    cases part with
    | char c => exact absurd hpart (by simp [isStatement])
    | importOf path =>
      cases ps with
      | nil => simpa using importOf path t .nil
      | cons next ps => exact importOf path [] (ih (List.cons_ne_nil next ps) hps t)

/-- The first piece stands at the beginning, and the others behind it in order. -/
theorem exists_pieces (h : Replaced ps t) :
    ∃ first rest u, pieces ps = first :: rest ∧ t = first ++ u ∧ InOrder rest u := by
  induction h with
  | nil => exact ⟨[], [], [], rfl, rfl, .nil []⟩
  | char c _ ih =>
    obtain ⟨first, rest, u, hpieces, rfl, hrest⟩ := ih
    exact ⟨c :: first, rest, u, by rw [pieces, hpieces], rfl, hrest⟩
  | importOf path new _ ih =>
    obtain ⟨first, rest, u, hpieces, rfl, hrest⟩ := ih
    refine ⟨[], first :: rest, new ++ first ++ u, by rw [pieces, hpieces], by rw [List.append_assoc]; rfl, ?_⟩
    exact .cons new hrest

/-- **The text beside the statements stands in order** in the text with something in their place. -/
theorem inOrder (h : Replaced ps t) : InOrder (pieces ps) t := by
  obtain ⟨first, rest, u, hpieces, rfl, hrest⟩ := h.exists_pieces
  rw [hpieces]
  exact .cons [] hrest

end Replaced

/-- A line with something on it has parts. -/
theorem parts_ne_nil (h : line ≠ []) : Evaluator.parts line ≠ [] := by
  obtain ⟨c, t, rfl⟩ := List.exists_cons_of_ne_nil h
  rw [Evaluator.parts]
  split
  · split <;> exact List.cons_ne_nil _ _
  · exact List.cons_ne_nil _ _

/-- A line with an import has something on it. -/
theorem ne_nil_of_importOf? {path : Text} (h : importOf? line = some path) : line ≠ [] := by
  rintro rfl
  exact absurd h (by simp [importOf?, firstImport?])

/-- **Lines that keep all but their statements** do so together. -/
theorem replaced_join (h : List.Forall₂ (fun line part => Replaced (Evaluator.parts line) part) ls out) :
    Replaced (partsOfLines ls) (join ['\n'] out) := by
  induction h with
  | nil => exact .nil
  | @cons line part ls out hpart hrest ih =>
    cases hrest with
    | nil => exact hpart
    | cons hnext hrest =>
      rw [partsOfLines, join, List.append_assoc]
      exact hpart.append (.char '\n' ih)

/-! ### Lines that are kept -/

/-- The lines that import nothing are kept in order. -/
theorem Expansion.filter_sublist {directory : Path} (h : Expansion tree packages directory ls out) :
    (ls.filter fun line => (importOf? line).isNone).Sublist out := by
  induction h with
  | nil => exact .slnil
  | kept hline _ ih =>
    rw [List.filter_cons_of_pos (by rw [hline]; rfl)]
    exact ih.cons_cons _
  | imported hline _ _ _ _ ih =>
    rw [List.filter_cons_of_neg (by rw [hline]; simp)]
    exact ih.trans (List.sublist_append_right _ _)

/-- What an imported file becomes stands in what the lines become. -/
theorem Expansion.exists_infix {directory next : Path} (h : Expansion tree packages directory ls out)
    (hnext : next ∈ importsIn packages directory ls) :
    ∃ new, ExpandsTo tree packages next new ∧ new <:+: out := by
  induction h with
  | nil => exact absurd hnext List.not_mem_nil
  | @kept directory line ls out hline _ ih =>
    rw [importsIn_cons, hline] at hnext
    obtain ⟨new, hnew, hinfix⟩ := ih hnext
    exact ⟨new, hnew, hinfix.trans (List.suffix_cons line out).isInfix⟩
  | @imported directory line path content ls new out hline hread hnew _ _ ih =>
    rw [importsIn_cons, hline, Option.map_some, Option.toList_some, List.singleton_append, List.mem_cons] at hnext
    rcases hnext with rfl | hnext
    · exact ⟨new, ⟨content, hread, hnew⟩, (List.prefix_append new out).isInfix⟩
    · obtain ⟨later, hlater, hinfix⟩ := ih hnext
      exact ⟨later, hlater, hinfix.trans (List.suffix_append new out).isInfix⟩

/-- **What a file becomes that imports lead to** stands in what the first file becomes. -/
theorem ExpandsTo.exists_infix {n : Nat} (h : ExpandsTo tree packages file out)
    (hf : ReachedIn tree packages n file f) : ∃ new, ExpandsTo tree packages f new ∧ new <:+: out := by
  induction hf generalizing out with
  | here => exact ⟨out, h, List.infix_refl out⟩
  | step hnext _ ih =>
    obtain ⟨content, hread, hout⟩ := h
    rw [imports_of_read hread] at hnext
    obtain ⟨between, hbetween, hinfix⟩ := hout.exists_infix hnext
    obtain ⟨new, hnew, hin⟩ := ih hbetween
    exact ⟨new, hnew, hin.trans hinfix⟩

/-- A line that imports nothing, in a file that imports lead to. -/
def IsKeptLine (tree : FileTree) (packages file : Path) (line : Text) : Prop :=
  ∃ n f content, ReachedIn tree packages n file f ∧ tree.read f = .ok content ∧ line ∈ lines content ∧
    importOf? line = none

/-- Every line comes from a file. -/
theorem Expansion.isKeptLine {directory : Path} (h : Expansion tree packages directory ls out) (hline : line ∈ out) :
    (line ∈ ls ∧ importOf? line = none) ∨ ∃ next ∈ importsIn packages directory ls, IsKeptLine tree packages next line := by
  induction h with
  | nil => exact absurd hline List.not_mem_nil
  | @kept directory first ls out hfirst _ ih =>
    rw [importsIn_cons, hfirst]
    rcases List.mem_cons.1 hline with rfl | hline
    · exact .inl ⟨List.mem_cons_self .., hfirst⟩
    · exact (ih hline).imp (And.imp_left (List.mem_cons_of_mem _)) id
  | @imported directory first path content ls new out hfirst hread _ _ ihnew ih =>
    rw [importsIn_cons, hfirst, Option.map_some, Option.toList_some, List.singleton_append]
    rcases List.mem_append.1 hline with hline | hline
    · refine .inr ⟨importTarget directory packages path, List.mem_cons_self .., ?_⟩
      rcases ihnew hline with ⟨hmem, hnone⟩ | ⟨next, hnext, n, f, c, hf, hc, hkept⟩
      · exact ⟨0, _, content, .here _, hread, hmem, hnone⟩
      · exact ⟨n + 1, f, c, .step (by rwa [imports_of_read hread]) hf, hc, hkept⟩
    · rcases ih hline with ⟨hmem, hnone⟩ | ⟨next, hnext, hkept⟩
      · exact .inl ⟨List.mem_cons_of_mem _ hmem, hnone⟩
      · exact .inr ⟨next, List.mem_cons_of_mem _ hnext, hkept⟩

/-- **The lines of an expansion** are the lines of the files on the way that import nothing. -/
theorem ExpandsTo.mem_iff (h : ExpandsTo tree packages file out) : line ∈ out ↔ IsKeptLine tree packages file line := by
  constructor
  · intro hline
    obtain ⟨content, hread, hout⟩ := h
    rcases hout.isKeptLine hline with ⟨hmem, hnone⟩ | ⟨next, hnext, n, f, c, hf, hc, hkept⟩
    · exact ⟨0, file, content, .here file, hread, hmem, hnone⟩
    · exact ⟨n + 1, f, c, .step (by rwa [imports_of_read hread]) hf, hc, hkept⟩
  · rintro ⟨n, f, content, hf, hread, hmem, hnone⟩
    obtain ⟨new, ⟨content', hread', hnew⟩, hinfix⟩ := h.exists_infix hf
    obtain rfl := Except.ok.inj (hread.symm.trans hread')
    exact hinfix.subset (hnew.filter_sublist.subset (List.mem_filter.2 ⟨hmem, by rw [hnone]; rfl⟩))

/-! ### The text of one file -/

/-- **A line is bundled with something in the place of its statements,** if it imports nothing or holds nothing
else. -/
theorem replaced_bundleLine {room : Nat} {directory : Path} {part : Text}
    (hline : (importOf? line).isSome → OnlyStatements line)
    (h : bundleLine tree packages room directory line = .ok part) : Replaced (Evaluator.parts line) part := by
  cases himport : importOf? line with
  | none =>
    rw [bundleLine_of_none himport] at h
    exact Except.ok.inj h ▸ .parts line
  | some path =>
    rw [himport] at hline
    exact .of_isStatement (parts_ne_nil (ne_nil_of_importOf? himport)) (hline rfl) part

/-- A bundle is made of what becomes of the lines of its file. -/
theorem exists_of_bundleWithin {room : Nat} (h : bundleWithin tree packages room file = .ok text) :
    ∃ room' content parts, tree.read file = .ok content ∧
      List.Forall₂ (fun line part => bundleLine tree packages room' file.parent line = .ok part) (lines content) parts ∧
      text = join ['\n'] parts := by
  cases room with
  | zero => exact absurd h (by simp [bundleWithin])
  | succ room =>
    rw [bundleWithin_succ] at h
    obtain ⟨content, hread, h⟩ := Fallible.bind_eq_ok.1 h
    obtain ⟨parts, hparts, h⟩ := Fallible.bind_eq_ok.1 h
    exact ⟨room, content, parts, hread, Fallible.mapM_eq_ok.1 hparts, (Except.ok.inj h).symm⟩

/-- **A file whose import lines hold nothing but statements** is bundled with something in the place of them. -/
theorem replaced_bundleWithin {room : Nat} (h : bundleWithin tree packages room file = .ok text)
    (hread : tree.read file = .ok content)
    (hlines : ∀ line ∈ lines content, (importOf? line).isSome → OnlyStatements line) :
    Replaced (partsOfLines (lines content)) text := by
  obtain ⟨room', content', parts, hread', hparts, rfl⟩ := exists_of_bundleWithin h
  obtain rfl := Except.ok.inj (hread.symm.trans hread')
  have hboth := (List.forall₂_and_left _ _).2 ⟨hlines, hparts⟩
  exact replaced_join (hboth.imp fun _ _ hline => replaced_bundleLine hline.1 hline.2)

/-- The bundle of a file that imports lead to stands in the bundle. -/
theorem exists_infix_bundleWithin {n room : Nat} (h : bundleWithin tree packages room file = .ok text)
    (hf : ReachedIn tree packages n file f) :
    ∃ room' part, bundleWithin tree packages room' f = .ok part ∧ part <:+: text := by
  induction hf generalizing room text with
  | here => exact ⟨room, text, h, List.infix_refl text⟩
  | @step n file next last hnext _ ih =>
    obtain ⟨below, content, parts, hread, hparts, rfl⟩ := exists_of_bundleWithin h
    rw [imports_of_read hread] at hnext
    obtain ⟨line, hline, hpath⟩ := List.mem_filterMap.1 hnext
    obtain ⟨path, himport, rfl⟩ := Option.map_eq_some_iff.1 hpath
    obtain ⟨part, hpart, hbundle⟩ := Fallible.exists_of_mem_left hparts hline
    rw [bundleLine_of_some himport] at hbundle
    obtain ⟨room', inner, hinner, hinfix⟩ := ih hbundle
    exact ⟨room', inner, hinner, hinfix.trans (infix_join hpart)⟩

/-- **What bundling keeps of the files that it takes in.** Of each of them, the lines that import nothing are lines of
the result, in their order; and if its import lines hold nothing but statements, all its text beside its statements
stands in the result in order.  Nothing else of a line comes into the result: a text on one line stands in it exactly
if it stands on a line that imports nothing in one of the files.  So what stands beside a statement on an import line
is lost, unless it stands on such a line too. -/
theorem bundleWithin_keeps {limit : Nat} (h : bundleWithin tree packages limit file = .ok text) :
    (∀ n f content, ReachedIn tree packages n file f → tree.read f = .ok content →
      ((lines content).filter fun line => (importOf? line).isNone).Sublist (lines text) ∧
        ((∀ line ∈ lines content, (importOf? line).isSome → OnlyStatements line) →
          InOrder (besideStatements content) text)) ∧
      ∀ w, '\n' ∉ w → (w <:+: text ↔ ∃ line, IsKeptLine tree packages file line ∧ w <:+: line) := by
  obtain ⟨out, hexpands, hjoin⟩ := exists_expandsTo h
  have hlines : lines text = out := by rw [hjoin, hexpands.lines_eq.1]
  refine ⟨fun n f content hf hread => ⟨?_, fun honly => ?_⟩, fun w hw => ⟨fun hinfix => ?_, ?_⟩⟩
  · obtain ⟨new, ⟨content', hread', hnew⟩, hinfix⟩ := hexpands.exists_infix hf
    obtain rfl := Except.ok.inj (hread.symm.trans hread')
    rw [hlines]
    exact hnew.filter_sublist.trans hinfix.sublist
  · obtain ⟨room, part, hpart, front, back, rfl⟩ := exists_infix_bundleWithin h hf
    exact (replaced_bundleWithin hpart hread honly).inOrder.around front back
  · have hline : ∃ line ∈ out, w <:+: line := by
      by_cases hne : w = []
      · obtain ⟨line, rest, hout⟩ := List.exists_cons_of_ne_nil (splitOn_ne_nil '\n' text)
        exact ⟨line, by rw [← hlines, lines, hout]; exact List.mem_cons_self .., hne ▸ List.nil_infix⟩
      · exact exists_infix_of_infix_join hw hne (hjoin ▸ hinfix)
    obtain ⟨line, hmem, hin⟩ := hline
    exact ⟨line, hexpands.mem_iff.1 hmem, hin⟩
  · rintro ⟨line, hkept, hin⟩
    rw [hjoin]
    exact hin.trans (infix_join (hexpands.mem_iff.2 hkept))

/-- A file with a rule behind an import statement, one that imports it between rules, and a package. -/
def ruleTree : FileTree :=
  (FileTree.empty [])
    |>.addFile (.ofText "/a.less".toList) ".a {}\n@import 'b';\n.c {}".toUTF8.toList
    |>.addFile (.ofText "/b.less".toList) "@import \"~p\"; .x { color: red }\n.b {}".toUTF8.toList
    |>.addFile (.ofText "/m/p.less".toList) "@p: 1;".toUTF8.toList

/-- The imported file comes between the two rules. -/
theorem bundle_ruleTree : bundle ruleTree (.ofText "/m".toList) (.ofText "/a.less".toList) =
    .ok ".a {}\n@p: 1;\n.b {}\n.c {}".toList := by
  decide +kernel

/-- Both rules stay in order, and a rule that stands in no file is not in the bundle. -/
theorem bundleWithin_keeps_ruleTree :
    let content : Text := ".a {}\n@import 'b';\n.c {}".toList
    let text : Text := ".a {}\n@p: 1;\n.b {}\n.c {}".toList
    bundle ruleTree (.ofText "/m".toList) (.ofText "/a.less".toList) = .ok text ∧
      (ruleTree.read (.ofText "/a.less".toList) = .ok content ∧
        ∀ line ∈ lines content, (importOf? line).isSome → OnlyStatements line) ∧
      InOrder (besideStatements content) text ∧
      ¬ ∃ line, IsKeptLine ruleTree (.ofText "/m".toList) (.ofText "/a.less".toList) line ∧ ".x".toList <:+: line := by
  intro content text
  have hread : ruleTree.read (.ofText "/a.less".toList) = .ok content := by decide +kernel
  have honly : ∀ line ∈ lines content, (importOf? line).isSome → OnlyStatements line := by decide +kernel
  obtain ⟨hfiles, hpiece⟩ := bundleWithin_keeps bundle_ruleTree
  refine ⟨bundle_ruleTree, ⟨hread, honly⟩, (hfiles 0 _ content (.here _) hread).2 honly, fun hline => ?_⟩
  exact absurd ((hpiece ".x".toList (by decide)).2 hline) (by decide)

/-- **A rule behind an import statement on its line** is lost. -/
theorem not_forall_besideStatements : ¬ ∀ (tree : FileTree) (packages file : Path) (text : Text),
    bundle tree packages file = .ok text → ∀ n f content, ReachedIn tree packages n file f →
      tree.read f = .ok content → InOrder (besideStatements content) text := by
  intro hall
  have hbundle : bundle ruleTree (.ofText "/m".toList) (.ofText "/b.less".toList) = .ok "@p: 1;\n.b {}".toList := by
    decide +kernel
  have hread : ruleTree.read (.ofText "/b.less".toList) = .ok "@import \"~p\"; .x { color: red }\n.b {}".toList := by
    decide +kernel
  have horder := hall _ _ _ _ hbundle 0 _ _ (.here _) hread
  have hbeside : besideStatements "@import \"~p\"; .x { color: red }\n.b {}".toList =
      [[], " .x { color: red }\n.b {}".toList] := by
    decide +kernel
  rw [hbeside] at horder
  exact absurd (horder.infix_of_mem (List.mem_cons_of_mem _ (List.mem_cons_self ..))) (by decide)

end Less
end ThemeSheet
