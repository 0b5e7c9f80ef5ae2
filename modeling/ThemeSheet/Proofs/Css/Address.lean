/-
# Addresses in values

An address is a bare one, which is a token, or a call of `url` in any letter case; it may
stand deep inside other calls and brackets.  Pruning looks for addresses in the written
form of a value, in lower case and on one line, so the addresses in a declaration that
stays are those that this search overlooks.
-/

import ThemeSheet.Proofs.Css.Pruning
import ThemeSheet.Proofs.Css.Trimming

namespace ThemeSheet
namespace Css

/-! ### Nodes inside nodes -/

mutual

/-- The node and all nodes inside it. -/
def Node.parts : Node → List Node
  | .token t => [.token t]
  | .block b content => .block b content :: Node.allParts content
  | .call name arguments => .call name arguments :: Node.allParts arguments

/-- The neighbours and all nodes inside them. -/
def Node.allParts : List Node → List Node
  | [] => []
  | n :: ns => n.parts ++ Node.allParts ns

end

mutual

/-- **What stands inside a node is written inside its written form.** -/
theorem Node.written_inside {m : Node} : (n : Node) → m ∈ n.parts → m.written <:+: n.written
  | .token t, h => by
    rw [Node.parts, List.mem_singleton] at h
    exact h ▸ List.infix_rfl
  | .block b content, h => by
    rw [Node.parts, List.mem_cons] at h
    rcases h with rfl | h
    · exact List.infix_rfl
    · rw [Node.written]
      refine (Node.writtenAll_inside none content h).trans ⟨[b.opening], [b.closing], ?_⟩
      rw [List.append_assoc, List.singleton_append, List.cons_append]
  | .call name arguments, h => by
    rw [Node.parts, List.mem_cons] at h
    rcases h with rfl | h
    · exact List.infix_rfl
    · rw [Node.written]
      refine (Node.writtenAll_inside none arguments h).trans
        ⟨writtenIdent name ++ ['('], if Node.lastEndsInString arguments then [] else [')'], ?_⟩
      simp only [List.append_assoc, List.cons_append, List.nil_append]

/-- A node among neighbours, or inside them, is written somewhere in their written form. -/
theorem Node.writtenAll_inside {m : Node} (before : Option Kind) :
    (ns : List Node) → m ∈ Node.allParts ns → m.written <:+: Node.writtenAll before ns
  | [], h => by simp [Node.allParts] at h
  | n :: ns, h => by
    rw [Node.allParts, List.mem_append] at h
    rw [Node.writtenAll]
    rcases h with h | h
    · exact (Node.written_inside n h).trans ⟨gap before n, Node.writtenAll (some n.kind) ns, rfl⟩
    · exact (Node.writtenAll_inside (some n.kind) ns h).trans (List.suffix_append ..).isInfix

end

mutual

/-- The lexemes of what stands inside a node stand side by side among its own. -/
theorem Node.lexemes_inside {m : Node} : (n : Node) → m ∈ n.parts → m.lexemes <:+: n.lexemes
  | .token t, h => by
    rw [Node.parts, List.mem_singleton] at h
    exact h ▸ List.infix_rfl
  | .block b content, h => by
    rw [Node.parts, List.mem_cons] at h
    rcases h with rfl | h
    · exact List.infix_rfl
    · rw [Node.lexemes]
      exact (Node.allLexemes_inside content h).trans ⟨[.opens b], [.closes b], rfl⟩
  | .call name arguments, h => by
    rw [Node.parts, List.mem_cons] at h
    rcases h with rfl | h
    · exact List.infix_rfl
    · rw [Node.lexemes]
      exact (Node.allLexemes_inside arguments h).trans ⟨[.calls name], [.closes .round], rfl⟩

/-- The lexemes of a node among neighbours, or inside them, stand together among theirs. -/
theorem Node.allLexemes_inside {m : Node} :
    (ns : List Node) → m ∈ Node.allParts ns → m.lexemes <:+: Node.allLexemes ns
  | [], h => by simp [Node.allParts] at h
  | n :: ns, h => by
    rw [Node.allParts, List.mem_append] at h
    rw [Node.allLexemes]
    rcases h with h | h
    · exact (Node.lexemes_inside n h).trans (List.prefix_append ..).isInfix
    · exact (Node.allLexemes_inside ns h).trans (List.suffix_append ..).isInfix

end

/-! ### Addresses -/

/-- Is the node an address, bare or as a call? -/
def Node.isAddress : Node → Bool
  | .token (.url _ _) => true
  | .call name _ => isUrlName name
  | _ => false

/-- The addresses in the value, those inside calls and brackets too. -/
def Declaration.addresses (d : Declaration) : List Node := (Node.allParts d.value).filter Node.isAddress

/-- A separator is no address. -/
theorem Node.filter_parts_of_isSpace {n : Node} (h : n.isSpace = true) : n.parts.filter Node.isAddress = [] := by
  obtain ⟨run, rfl⟩ := Node.eq_space h
  rw [Node.parts]
  rfl

/-- Separators between the nodes of a value hold no addresses. -/
theorem Declaration.addresses_eq (d : Declaration) :
    d.addresses = (Node.allParts (d.value.filter fun n => !n.isSpace)).filter Node.isAddress := by
  rw [addresses]
  induction d.value with
  | nil => rfl
  | cons n ns ih =>
    rw [Node.allParts, List.filter_append, ih, List.filter_cons]
    split
    · rw [Node.allParts, List.filter_append]
    · next hspace => rw [Node.filter_parts_of_isSpace (by simpa using hspace), List.nil_append]

/-- **An address that pruning overlooks:** its name is not in lower case, a line end stands in it, or
the text ends inside it. -/
def Node.IsOverlooked : Node → Prop
  | .token (.url _ closed) => closed = false
  | .call name arguments =>
    name ≠ "url".toList ∨ '\n' ∈ Css.written arguments ∨ Node.lastEndsInString arguments = true
  | _ => False

/-- An address in a part of a text is one in the text. -/
theorem hasUrl_of_infix {s t : Text} (h : s <:+: t) (hs : hasUrl s = true) : hasUrl t = true := by
  obtain ⟨w, v, rfl⟩ := h
  obtain ⟨a, b, c, rfl, hb⟩ := hasUrl_iff.1 hs
  exact hasUrl_iff.2 ⟨w ++ a, b, c ++ v, by simp, hb⟩

/-- A text on one line between `url(` and a closing bracket. -/
theorem hasUrl_enclosed {b : Text} (h : '\n' ∉ b) : hasUrl ("url(".toList ++ b ++ [')']) = true :=
  hasUrl_iff.2 ⟨[], b, [], by simp, h⟩

/-- An address is written on one line. -/
theorem newline_not_mem_urlChar (c : Char) : '\n' ∉ urlChar c := by
  unfold urlChar lineEndEscape?
  grind

/-- **A closed address that the search does not see** is overlooked. -/
theorem Node.isOverlooked_of_not_hasUrl {n : Node} (hn : n.isAddress = true)
    (h : hasUrl n.written = false) : n.IsOverlooked := by
  unfold Node.isAddress at hn
  split at hn
  · next v closed =>
    cases closed with
    | false => rfl
    | true =>
      have hline : '\n' ∉ v.flatMap urlChar := by
        rw [List.mem_flatMap]
        rintro ⟨c, -, hc⟩
        exact newline_not_mem_urlChar c hc
      rw [Node.written, Token.written_url, hasUrl_enclosed hline] at h
      exact Bool.noConfusion h
  · next name arguments =>
    by_contra hseen
    simp only [Node.IsOverlooked, not_or, not_not] at hseen
    obtain ⟨rfl, hline, hclosed⟩ := hseen
    have hcall : (Node.call "url".toList arguments).written =
        "url(".toList ++ Css.written arguments ++ [')'] := by
      rw [Node.written, if_neg hclosed]
      rfl
    rw [hcall, hasUrl_enclosed hline] at h
    exact Bool.noConfusion h
  · exact Bool.noConfusion hn

/-- **The addresses of a declaration that stays are overlooked,** whatever style sheet it stands in. -/
theorem Declaration.isOverlooked_of_isKept {d : Declaration} (h : d.isKept = true) :
    ∀ n ∈ d.addresses, n.IsOverlooked := by
  intro n hn
  obtain ⟨hpart, haddress⟩ := List.mem_filter.1 hn
  rw [Declaration.isKept, Bool.and_eq_true, Bool.not_eq_true'] at h
  refine Node.isOverlooked_of_not_hasUrl haddress ?_
  rw [Bool.eq_false_iff]
  intro hurl
  have hvalue := hasUrl_of_infix (Node.writtenAll_inside none d.value hpart) hurl
  exact Bool.noConfusion (hvalue.symm.trans h.1)

/-! ### The addresses of the written form -/

mutual

/-- The nodes inside a softened node are those inside it, softened. -/
theorem Node.parts_soft : (n : Node) → n.soft.parts = n.parts.map Node.soft
  | .token t => by rw [Node.soft, Node.parts, Node.parts, List.map_singleton, Node.soft]
  | .block b content => by
    rw [Node.soft, Node.parts, Node.parts, Node.allParts_allSoft content, List.map_cons, Node.soft]
  | .call name arguments => by
    rw [Node.soft, Node.parts, Node.parts, Node.allParts_allSoft arguments, List.map_cons, Node.soft]

/-- The nodes inside softened nodes are those inside them, softened. -/
theorem Node.allParts_allSoft :
    (ns : List Node) → Node.allParts (Node.allSoft ns) = (Node.allParts ns).map Node.soft
  | [] => by rw [Node.allSoft, Node.allParts, List.map_nil]
  | n :: ns => by
    rw [Node.allSoft, Node.allParts, Node.allParts, Node.parts_soft n, Node.allParts_allSoft ns, List.map_append]

end

/-- Softening makes no address and unmakes none. -/
theorem Node.isAddress_soft (n : Node) : n.soft.isAddress = n.isAddress := by
  cases n with
  | token t => rw [Node.soft]; cases t <;> rfl
  | _ => rw [Node.soft]; rfl

mutual

/-- Softening does not change whether a node ends inside a string. -/
theorem Node.endsInString_soft : (n : Node) → n.soft.endsInString = n.endsInString
  | .token t => by rw [Node.soft]; cases t <;> rfl
  | .block b content => by rw [Node.soft, Node.endsInString, Node.endsInString]
  | .call name arguments => by
    rw [Node.soft, Node.endsInString, Node.endsInString, Node.lastEndsInString_allSoft arguments]

/-- Softening does not change whether the last node ends inside a string. -/
theorem Node.lastEndsInString_allSoft :
    (ns : List Node) → Node.lastEndsInString (Node.allSoft ns) = Node.lastEndsInString ns
  | [] => by rw [Node.allSoft]
  | [n] => by
    rw [Node.allSoft, Node.allSoft, Node.lastEndsInString, Node.lastEndsInString, Node.endsInString_soft n]
  | n :: m :: ns => by
    rw [Node.allSoft, Node.allSoft, Node.lastEndsInString, Node.lastEndsInString, ← Node.allSoft,
      Node.lastEndsInString_allSoft (m :: ns)]

end

/-- Softening does not change the gap before a node. -/
theorem Node.gap_soft (before : Option Kind) (n : Node) : gap before n.soft = gap before n := by
  have hline : n.soft.startsLine = n.startsLine := by
    cases n with
    | token t => rw [Node.soft]; cases t <;> rfl
    | _ => rw [Node.soft]; rfl
  unfold gap
  rw [n.kind_soft, hline]

mutual

/-- A node is written as what its written form is read as. -/
theorem Node.written_soft : (n : Node) → n.soft.written = n.written
  | .token t => by rw [Node.soft, Node.written, Node.written, t.written_soft]
  | .block b content => by rw [Node.soft, Node.written, Node.written, Node.writtenAll_allSoft none content]
  | .call name arguments => by
    rw [Node.soft, Node.written, Node.written, Node.writtenAll_allSoft none arguments,
      Node.lastEndsInString_allSoft arguments]

/-- Nodes are written as their softened forms. -/
theorem Node.writtenAll_allSoft (before : Option Kind) :
    (ns : List Node) → Node.writtenAll before (Node.allSoft ns) = Node.writtenAll before ns
  | [] => by rw [Node.allSoft]
  | n :: ns => by
    rw [Node.allSoft, Node.writtenAll, Node.writtenAll, Node.gap_soft, n.kind_soft, Node.written_soft n,
      Node.writtenAll_allSoft (some n.kind) ns]

end

/-- What is read of a declaration's line has its addresses, as their written form says. -/
theorem Declaration.addresses_soft {d d' : Declaration}
    (h : d'.value.filter (fun n => !n.isSpace) = (d.value.filter fun n => !n.isSpace).map Node.soft) :
    d'.addresses = d.addresses.map Node.soft := by
  rw [d'.addresses_eq, d.addresses_eq, h, ← Node.allSoft_eq, Node.allParts_allSoft, List.filter_map]
  exact congrArg _ (List.filter_congr fun n _ => n.isAddress_soft)

end Css
end ThemeSheet
