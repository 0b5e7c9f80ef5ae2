/-
# Declarations as they are laid out

A declaration is a name, a colon, a value and perhaps the mark `!important`, with
separators around the colon and inside the mark; declarations stand one behind the
other with semicolons between them.  Reading such a block gives the declarations back.
-/

import ThemeSheet.Css.Prune
import ThemeSheet.Proofs.Text.Split

namespace ThemeSheet
namespace Css

/-- What is taken while no node ends it, and what is left then. -/
theorem takeWhile_not {ends : Node → Bool} {front ns : List Node} (hf : ∀ n ∈ front, ends n = false)
    (hns : ∀ n, ns.head? = some n → ends n = true) :
    (front ++ ns).takeWhile (fun n => !ends n) = front ∧ (front ++ ns).dropWhile (fun n => !ends n) = ns := by
  have hf' : ∀ n ∈ front, (!ends n) = true := by simpa using hf
  have hns' : ∀ n, ns.head? = some n → (!ends n) = false := by simpa using hns
  exact ⟨Text.takeWhile_run hf' hns', Text.dropWhile_run hf' hns'⟩

/-- Nothing but separators. -/
def AllSpace (ns : List Node) : Prop := ∀ n ∈ ns, n.isSpace = true

/-- The node that a single literal character is. -/
def Node.mark (c : Char) : Node := .token (.literal [c])

/-! ### The mark of importance -/

namespace ValueReader

/-- What a reader knows of what it has read, but for the nodes themselves. -/
inductive Phase where
  | absent
  | announced
  | given
deriving DecidableEq

/-- How far the reader has read the mark. -/
def phase (r : ValueReader) : Phase :=
  match r.importance with
  | .absent => .absent
  | .announced _ => .announced
  | .given _ => .given

/-- A separator changes nothing that a reader knows. -/
theorem push_space (r : ValueReader) {n : Node} (h : n.isSpace = true) :
    r.push n = { r with read := n :: r.read } := by
  rw [push, if_pos h]

/-- Separators change nothing that a reader knows. -/
theorem foldl_push_spaces (r : ValueReader) {ns : List Node} (h : AllSpace ns) :
    ns.foldl push r = { r with read := ns.reverse ++ r.read } := by
  induction ns generalizing r with
  | nil => rfl
  | cons n ns ih =>
    obtain ⟨hn, hns⟩ := List.forall_mem_cons.1 h
    rw [List.foldl_cons, push_space r hn, ih _ hns]
    simp

/-- A reader keeps every node it has read. -/
theorem read_push (r : ValueReader) (n : Node) : (r.push n).read = n :: r.read := by
  rw [push]
  split
  · rfl
  · split
    · split <;> rfl
    · split <;> rfl
    · rfl

/-- All nodes are remembered. -/
theorem read_foldl_push (ns : List Node) (r : ValueReader) :
    (ns.foldl push r).read = ns.reverse ++ r.read := by
  induction ns generalizing r with
  | nil => rfl
  | cons n ns ih => rw [List.foldl_cons, ih, read_push, List.reverse_cons, List.append_assoc,
      List.singleton_append]

end ValueReader

/-- The mark behind a value, in any letter case and with separators inside and behind, or nothing. -/
inductive IsMarkOf : Bool → List Node → Prop
  | absent : IsMarkOf false []
  | given {a b : List Node} {w : Text} : AllSpace a → Text.asciiLower w = "important".toList →
      AllSpace b → IsMarkOf true (.mark '!' :: (a ++ .token (.ident w) :: b))

/-- **The value ends where it does:** no semicolon stands in it, no block behind other content, and
it does not end in a mark, or in what a mark behind it would make another thing of. -/
structure Declaration.IsDelimited (d : Declaration) : Prop where
  semicolon : ∀ n ∈ d.value, n.isLiteral ";" = false
  block : (d.value.foldl ValueReader.push .start).hasLateBlock = false
  mark : (d.value.foldl ValueReader.push .start).phase ≠ .given
  unmarked : d.important = true → (d.value.foldl ValueReader.push .start).phase = .absent

/-- A node that is neither an exclamation mark nor a block. -/
theorem ValueReader.push_plain {r : ValueReader} {n : Node} (hbang : n.isLiteral "!" = false)
    (hcurly : n.isCurly = false) (hphase : r.phase = .absent) (hlate : r.hasLateBlock = false) :
    (r.push n).phase = .absent ∧ (r.push n).hasLateBlock = false := by
  obtain ⟨read, importance, content, late⟩ := r
  cases importance <;> cases hphase
  unfold push
  split
  · exact ⟨rfl, hlate⟩
  · rw [if_neg (by simp [hbang])]
    exact ⟨rfl, by simpa [pushContent, hcurly] using hlate⟩

/-- Without exclamation marks and blocks, a reader sees no mark and no late block. -/
theorem ValueReader.foldl_push_plain {ns : List Node}
    (h : ∀ n ∈ ns, n.isLiteral "!" = false ∧ n.isCurly = false) {r : ValueReader}
    (hphase : r.phase = .absent) (hlate : r.hasLateBlock = false) :
    (ns.foldl push r).phase = .absent ∧ (ns.foldl push r).hasLateBlock = false := by
  induction ns generalizing r with
  | nil => exact ⟨hphase, hlate⟩
  | cons n ns ih =>
    obtain ⟨⟨hbang, hcurly⟩, hns⟩ := List.forall_mem_cons.1 h
    obtain ⟨hphase', hlate'⟩ := push_plain hbang hcurly hphase hlate
    exact ih hns hphase' hlate'

/-- **A value ends where it does** if no semicolon, no exclamation mark and no block in curly brackets
stands in it. -/
theorem Declaration.isDelimited_of_plain {d : Declaration}
    (h : ∀ n ∈ d.value, n.isLiteral ";" = false ∧ n.isLiteral "!" = false ∧ n.isCurly = false) :
    d.IsDelimited := by
  obtain ⟨hphase, hlate⟩ := ValueReader.foldl_push_plain (r := .start) (fun n hn => (h n hn).2) rfl rfl
  exact ⟨fun n hn => (h n hn).1, hlate, by rw [hphase]; simp, fun _ => hphase⟩

/-- A value that ends where it does, and the mark behind it, are read as this value and this mark. -/
theorem ValueReader.finish_append {d : Declaration} (h : d.IsDelimited) {m : List Node}
    (hm : IsMarkOf d.important m) :
    ((d.value ++ m).foldl push start).finish = some (d.value, d.important) := by
  have hread := read_foldl_push d.value start
  generalize hr : d.value.foldl push start = r at hread
  have hblock := h.block
  have hmark := h.mark
  have hun := h.unmarked
  rw [hr] at hblock hmark hun
  rw [List.foldl_append, hr]
  obtain ⟨name, value, important⟩ := d
  simp only at *
  cases hm with
  | absent =>
    rw [List.foldl_nil, finish, if_neg (by simp [hblock])]
    have hval : r.read.reverse = value := by simp [hread, start]
    split
    · next v hv => exact absurd (by simp [phase, hv]) hmark
    · rw [hval]
  | @given a b w ha hw hb =>
    obtain ⟨read, imp, content, late⟩ := r
    have himp : imp = .absent := by
      have := hun rfl
      cases imp <;> simp_all [phase]
    subst himp
    have hval : read.reverse = value := by simpa [start] using congrArg List.reverse hread
    simp only at hblock
    subst hblock
    have hbang : push ⟨read, .absent, content, false⟩ (.mark '!') =
        ⟨.mark '!' :: read, .announced read, content, false⟩ := rfl
    have hword : ∀ read', push ⟨read', .announced read, content, false⟩ (.token (.ident w)) =
        ⟨.token (.ident w) :: read', .given read, content, false⟩ := by
      intro read'
      simp [push, Node.isSpace, isImportantWord, hw]
    rw [List.foldl_cons, hbang, List.foldl_append, foldl_push_spaces _ ha, List.foldl_cons, hword,
      foldl_push_spaces _ hb, finish, if_neg (by simp)]
    simp [hval]

/-! ### Blocks of declarations -/

/-- **The nodes of a declaration.** -/
inductive Declaration.LaidOut (d : Declaration) : List Node → Prop
  | intro {a m : List Node} : d.IsDelimited → AllSpace a → IsMarkOf d.important m →
      d.LaidOut (.token (.ident d.name) :: (a ++ .mark ':' :: (d.value ++ m)))

/-- **The nodes of a block of declarations:** a semicolon between any two, and separators and further
semicolons around them. -/
inductive Content : List Declaration → List Node → Prop
  | nil : Content [] []
  | skip {n : Node} {ns : List Node} {ds : List Declaration} :
      n.isSpace = true ∨ n.isLiteral ";" = true → Content ds ns → Content ds (n :: ns)
  | last {d : Declaration} {ns : List Node} : d.LaidOut ns → Content [d] ns
  | cons {d : Declaration} {ns ms : List Node} {ds : List Declaration} : d.LaidOut ns →
      Content ds ms → Content (d :: ds) (ns ++ .mark ';' :: ms)

/-- Such a value directly behind its name and a colon. -/
theorem Declaration.laidOut_of_plain {name : Text} {value : List Node}
    (h : ∀ n ∈ value, n.isLiteral ";" = false ∧ n.isLiteral "!" = false ∧ n.isCurly = false) :
    Declaration.LaidOut ⟨name, value, false⟩ (.token (.ident name) :: .mark ':' :: value) := by
  have hlaid := Declaration.LaidOut.intro (d := ⟨name, value, false⟩) (a := []) (isDelimited_of_plain h)
    (by simp [AllSpace]) .absent
  rwa [List.append_nil] at hlaid

/-- Separators at the beginning are left out. -/
theorem AllSpace.dropWhile_append {a ns : List Node} (h : AllSpace a) :
    (a ++ ns).dropWhile Node.isSpace = ns.dropWhile Node.isSpace := by
  rw [List.dropWhile_append_of_pos h]

/-- A separator is no single character. -/
theorem not_isLiteral_of_isSpace {n : Node} {s : String} (h : n.isSpace = true) : n.isLiteral s = false := by
  unfold Node.isSpace at h
  split at h
  · rfl
  · simp at h

/-- What a laid out declaration is read as. -/
theorem Declaration.LaidOut.ofNodes? {d : Declaration} {ns : List Node} (h : d.LaidOut ns) :
    ∃ rest, ns = .token (.ident d.name) :: rest ∧
      Declaration.ofNodes? (.token (.ident d.name)) rest = some d ∧
      ∀ n ∈ rest, n.isLiteral ";" = false := by
  obtain @⟨a, m, hd, ha, hm⟩ := h
  refine ⟨_, rfl, ?_, ?_⟩
  · have hcolon : (a ++ .mark ':' :: (d.value ++ m)).dropWhile Node.isSpace =
        .mark ':' :: (d.value ++ m) := by
      rw [ha.dropWhile_append, List.dropWhile_cons_of_neg (by decide)]
    unfold Declaration.ofNodes?
    rw [hcolon]
    simp only
    rw [if_pos (by decide), ValueReader.finish_append hd hm]
    rfl
  · have hmark : ∀ n ∈ m, n.isLiteral ";" = false := by
      generalize d.important = important at hm
      cases hm with
      | absent => simp
      | given ha hw hb =>
        simp only [List.mem_cons, List.mem_append]
        rintro n (rfl | hn | rfl | hn)
        · decide
        · exact not_isLiteral_of_isSpace (ha n hn)
        · rfl
        · exact not_isLiteral_of_isSpace (hb n hn)
    simp only [List.mem_cons, List.mem_append]
    rintro n (hn | rfl | hn | hn)
    · exact not_isLiteral_of_isSpace (ha n hn)
    · decide
    · exact hd.semicolon n hn
    · exact hmark n hn

/-- Separators and semicolons between declarations are left out. -/
theorem declarations_skip {n : Node} (h : n.isSpace = true ∨ n.isLiteral ";" = true) (ns : List Node) :
    declarations (n :: ns) = declarations ns := by
  rw [declarations.eq_def]
  simp only
  rw [if_pos (by simpa using h)]

/-- A declaration with what stands behind it, up to a semicolon or the end. -/
theorem declarations_append {d : Declaration} {ns ms : List Node} (h : d.LaidOut ns)
    (hms : ms = [] ∨ ∃ rest, ms = .mark ';' :: rest) :
    declarations (ns ++ ms) = d :: declarations (ms.drop 1) := by
  obtain ⟨rest, rfl, hread, hsemi⟩ := h.ofNodes?
  have hends : ∀ n, ms.head? = some n → n.isLiteral ";" = true := by
    rcases hms with rfl | ⟨rest', rfl⟩
    · simp
    · rintro n ⟨⟩; decide
  obtain ⟨htake, hdrop⟩ := takeWhile_not hsemi hends
  rw [List.cons_append, declarations.eq_def]
  simp only
  rw [if_neg (by simp [Node.isSpace, Node.isLiteral]), htake, hdrop, hread]
  rfl

/-- **A laid out block is read as its declarations.** -/
theorem Content.declarations_eq {ds : List Declaration} {ns : List Node} (h : Content ds ns) :
    declarations ns = ds := by
  induction h with
  | nil => rw [declarations]
  | skip hn _ ih => rw [declarations_skip hn, ih]
  | @last d ns hd =>
    have := declarations_append hd (.inl rfl)
    rw [List.append_nil] at this
    rw [this, List.drop_nil, declarations]
  | cons hd _ ih => rw [declarations_append hd (.inr ⟨_, rfl⟩), List.drop_one, List.tail_cons, ih]

end Css
end ThemeSheet
