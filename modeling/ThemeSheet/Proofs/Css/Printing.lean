/-
# The written form, lexeme by lexeme

What nodes are written as is what their lexemes are written as, one behind the other,
with an empty comment between two that would fuse.  Units are written with the same
first letter whatever its case was, so their written form stays when it is read again.
-/

import ThemeSheet.Css.Printer
import ThemeSheet.Proofs.Css.Nesting

namespace ThemeSheet
namespace Css

/-- The written form of a lexeme. -/
def Lexeme.written : Lexeme → Text
  | .token t => t.written
  | .opens b => [b.opening]
  | .closes b => [b.closing]
  | .calls name => writtenIdent name ++ ['(']

/-- A dimension is written as its numeral and its unit. -/
theorem Token.written_dimension (ds u : Text) : (Token.dimension ds u).written = ds ++ writtenUnit u := rfl

/-- A hash is written as a number sign and a name. -/
theorem Token.written_hash (n : Text) (isIdent : Bool) :
    (Token.hash n isIdent).written = '#' :: (if isIdent then writtenIdent n else writtenName n) := rfl

/-- An address is written without quotes, character by character. -/
theorem Token.written_url (v : Text) :
    (Token.url v true).written = "url(".toList ++ v.flatMap urlChar ++ [')'] := rfl

/-- A string is written in double quotes, character by character. -/
theorem Token.written_string (v : Text) :
    (Token.string v true).written = '"' :: (v.flatMap stringChar ++ ['"']) := rfl

/-- What the lexeme is for the one before it. -/
def Lexeme.kind? : Lexeme → Option Kind
  | .token t => some t.kind
  | .opens b => some (.block b)
  | .calls _ => some .call
  | .closes _ => none

/-- What the lexeme is for the one behind it, if they can fuse at all. -/
def Lexeme.kindBehind? : Lexeme → Option Kind
  | .token t => some t.kind
  | _ => none

/-- What stands between two lexemes: an empty comment if they would fuse. -/
def fusionGap : Option Kind → Option Kind → Text
  | some a, some b => if a.fuses b then "/**/".toList else []
  | _, _ => []

/-- The written form of lexemes behind one of the given kind. -/
def writtenBehind (before : Option Kind) : List Lexeme → Text
  | [] => []
  | l :: ls => fusionGap before l.kind? ++ l.written ++ writtenBehind l.kindBehind? ls

/-! ### Nodes and lexemes -/

/-- Neither a lone backslash nor the place where the text ends inside a string. -/
def Lexeme.isOrdinary (l : Lexeme) : Bool :=
  l != .token .endInString && l != .token (.literal ['\\'])

/-- A block fuses with nothing behind it. -/
theorem Kind.not_fuses_block (b : Bracket) (k : Kind) : (Kind.block b).fuses k = false := by
  simp [Kind.fuses, Kind.endsInName, Kind.mark]

/-- A call fuses with nothing behind it. -/
theorem Kind.not_fuses_call (k : Kind) : Kind.call.fuses k = false := by
  simp [Kind.fuses, Kind.endsInName, Kind.mark]

/-- White space fuses with nothing behind it. -/
theorem Kind.not_fuses_space (k : Kind) : Kind.space.fuses k = false := by
  simp [Kind.fuses, Kind.endsInName, Kind.mark]

/-- Nothing has to stand before the first lexeme. -/
theorem fusionGap_none (k : Option Kind) : fusionGap none k = [] := rfl

/-- Nothing has to stand behind a lexeme that fuses with nothing. -/
theorem fusionGap_of_not_fuses {a : Kind} (h : ∀ k, a.fuses k = false) (k : Option Kind) :
    fusionGap (some a) k = [] := by
  cases k with
  | none => rfl
  | some b => simp [fusionGap, h]

/-- Lexemes are written alike behind kinds that call for the same gaps. -/
theorem writtenBehind_congr {a b : Option Kind} (h : ∀ k, fusionGap a k = fusionGap b k)
    (ls : List Lexeme) : writtenBehind a ls = writtenBehind b ls := by
  cases ls with
  | nil => rfl
  | cons l ls => rw [writtenBehind, writtenBehind, h]

/-- Behind a block or a call nothing fuses. -/
theorem writtenBehind_block (b : Bracket) (ls : List Lexeme) :
    writtenBehind (some (.block b)) ls = writtenBehind none ls :=
  writtenBehind_congr (fun k => fusionGap_of_not_fuses (Kind.not_fuses_block b) k) ls

/-- Behind the opening bracket of a call, lexemes are written as if they came first. -/
theorem writtenBehind_call (ls : List Lexeme) :
    writtenBehind (some .call) ls = writtenBehind none ls :=
  writtenBehind_congr (fun k => fusionGap_of_not_fuses Kind.not_fuses_call k) ls

mutual

/-- A node of ordinary lexemes does not end inside a string. -/
theorem Node.endsInString_of_ordinary :
    (n : Node) → (∀ l ∈ n.lexemes, l.isOrdinary = true) → n.endsInString = false
  | .token t, h => by
    cases t with
    | endInString => exact absurd (h (.token .endInString) (by simp [Node.lexemes])) (by decide)
    | _ => rw [Node.endsInString]; simp
  | .block _ _, _ => by rw [Node.endsInString]
  | .call name arguments, h => by
    rw [Node.endsInString]
    refine Node.lastEndsInString_of_ordinary arguments fun l hl => h l ?_
    rw [Node.lexemes]
    simp [hl]

/-- Nodes of ordinary lexemes do not end inside a string. -/
theorem Node.lastEndsInString_of_ordinary :
    (ns : List Node) → (∀ l ∈ Node.allLexemes ns, l.isOrdinary = true) →
      Node.lastEndsInString ns = false
  | [], _ => by rw [Node.lastEndsInString]
  | [n], h => by
    rw [Node.lastEndsInString]
    refine Node.endsInString_of_ordinary n fun l hl => h l ?_
    rw [Node.allLexemes]
    simp [hl]
  | n :: m :: ns, h => by
    rw [Node.lastEndsInString]
    · refine Node.lastEndsInString_of_ordinary (m :: ns) fun l hl => h l ?_
      rw [Node.allLexemes]
      simp [hl]

end

/-- The first lexeme of a node is of the kind of the node. -/
theorem Lexeme.kind?_lexemes (n : Node) :
    ∃ l ls, n.lexemes = l :: ls ∧ l.kind? = some n.kind := by
  cases n <;> rw [Node.lexemes] <;> exact ⟨_, _, rfl, rfl⟩

/-- The gap before a node is the one before its first lexeme. -/
theorem gap_eq {k : Option Kind} (hk : k ≠ some (.mark '\\')) (n : Node) :
    gap k n = fusionGap k (some n.kind) := by
  cases k with
  | none => rfl
  | some a =>
    have ha : ¬ (a = .mark '\\' ∧ n.startsLine = false) := fun h => hk (by rw [h.1])
    rw [gap, if_neg ha, fusionGap]

/-- A node of ordinary lexemes is no lone backslash. -/
theorem Node.kind_ne_backslash {n : Node} (h : ∀ l ∈ n.lexemes, l.isOrdinary = true) :
    some n.kind ≠ some (.mark '\\') := by
  intro hk
  have hk := Option.some.inj hk
  cases n with
  | token t =>
    have ht := h (.token t) (by simp [Node.lexemes])
    cases t <;> simp [Node.kind, Token.kind, Kind.mark] at hk
    subst hk
    exact absurd ht (by decide)
  | block b content => simp [Node.kind, Kind.mark] at hk
  | call name arguments => simp [Node.kind, Kind.mark] at hk

/-- A closing bracket is written as it is, and what stands behind it as if it came first. -/
theorem writtenBehind_closes (k : Option Kind) (b : Bracket) (ls : List Lexeme) :
    writtenBehind k (.closes b :: ls) = b.closing :: writtenBehind none ls := by
  have hgap : fusionGap k (Lexeme.closes b).kind? = [] := by cases k <;> rfl
  rw [writtenBehind, hgap]
  rfl

/-- The kind of the last node, or the one before if there is none. -/
def lastKind (k : Option Kind) (ns : List Node) : Option Kind := ns.foldl (fun _ n => some n.kind) k

mutual

/-- The lexemes of a node are written as the node, with the gap before it. -/
theorem writtenBehind_node {k : Option Kind} (hk : k ≠ some (.mark '\\')) (ls : List Lexeme) :
    (n : Node) → (∀ l ∈ n.lexemes, l.isOrdinary = true) →
      writtenBehind k (n.lexemes ++ ls) = gap k n ++ n.written ++ writtenBehind (some n.kind) ls
  | .token t, _ => by
    rw [gap_eq hk, Node.lexemes, List.singleton_append, writtenBehind, Node.written]
    rfl
  | .block b content, h => by
    have hc : ∀ l ∈ Node.allLexemes content, l.isOrdinary = true := fun l hl => h l (by
      rw [Node.lexemes]; simp [hl])
    rw [gap_eq hk, Node.lexemes, List.cons_append, List.append_assoc, writtenBehind,
      writtenBehind_nodes (by simp [Lexeme.kindBehind?]) _ content hc, List.singleton_append,
      writtenBehind_closes, Node.written, Node.kind, writtenBehind_block]
    simp [Lexeme.kind?, Lexeme.kindBehind?, Lexeme.written]
  | .call name arguments, h => by
    have hc : ∀ l ∈ Node.allLexemes arguments, l.isOrdinary = true := fun l hl => h l (by
      rw [Node.lexemes]; simp [hl])
    rw [gap_eq hk, Node.lexemes, List.cons_append, List.append_assoc, writtenBehind,
      writtenBehind_nodes (by simp [Lexeme.kindBehind?]) _ arguments hc, List.singleton_append,
      writtenBehind_closes, Node.written, Node.kind, writtenBehind_call,
      Node.lastEndsInString_of_ordinary arguments hc]
    simp [Lexeme.kind?, Lexeme.kindBehind?, Lexeme.written, Bracket.closing]

/-- **The lexemes of nodes are written as the nodes,** with the gaps between them. -/
theorem writtenBehind_nodes {k : Option Kind} (hk : k ≠ some (.mark '\\')) (ls : List Lexeme) :
    (ns : List Node) → (∀ l ∈ Node.allLexemes ns, l.isOrdinary = true) →
      writtenBehind k (Node.allLexemes ns ++ ls) =
        Node.writtenAll k ns ++ writtenBehind (lastKind k ns) ls
  | [], _ => by rw [Node.allLexemes, Node.writtenAll]; rfl
  | n :: ns, h => by
    have hn : ∀ l ∈ n.lexemes, l.isOrdinary = true := fun l hl => h l (by
      rw [Node.allLexemes]; simp [hl])
    have hns : ∀ l ∈ Node.allLexemes ns, l.isOrdinary = true := fun l hl => h l (by
      rw [Node.allLexemes]; simp [hl])
    rw [Node.allLexemes, List.append_assoc, writtenBehind_node hk _ n hn,
      writtenBehind_nodes (Node.kind_ne_backslash hn) _ ns hns, Node.writtenAll]
    simp [lastKind]

end

/-- **Nodes are written lexeme by lexeme.** -/
theorem written_eq {ns : List Node} (h : ∀ l ∈ Node.allLexemes ns, l.isOrdinary = true) :
    written ns = writtenBehind none (Node.allLexemes ns) := by
  have := writtenBehind_nodes (k := none) (by simp) [] ns h
  rw [List.append_nil] at this
  rw [this, written, writtenBehind, List.append_nil]

/-! ### Units -/

/-- Could the unit be taken for an exponent? -/
def isExponentLike : Text → Bool
  | c :: rest => (c == 'e' || c == 'E') && (rest.isEmpty || rest.head? == some '-')
  | [] => false

/-- The unit with the letter that its written form stands for. -/
def softUnit (u : Text) : Text := if isExponentLike u then 'e' :: u.tail else u

/-- The token that the written form of a token is read as. -/
def Token.soft : Token → Token
  | .dimension ds u => .dimension ds (softUnit u)
  | t => t

/-- The lexeme that the written form of a lexeme is read as. -/
def Lexeme.soft : Lexeme → Lexeme
  | .token t => .token t.soft
  | l => l

mutual

/-- The node with all its units as their written form stands for them. -/
def Node.soft : Node → Node
  | .token t => .token t.soft
  | .block b content => .block b (Node.allSoft content)
  | .call name arguments => .call name (Node.allSoft arguments)

/-- The nodes with all their units as their written form stands for them. -/
def Node.allSoft : List Node → List Node
  | [] => []
  | n :: ns => n.soft :: Node.allSoft ns

end

/-- Softening nodes is softening each of them. -/
theorem Node.allSoft_eq (ns : List Node) : Node.allSoft ns = ns.map Node.soft := by
  induction ns with
  | nil => rw [Node.allSoft]; rfl
  | cons n ns ih => rw [Node.allSoft, ih, List.map_cons]

/-- A unit that could be taken for an exponent is written with an escape for its first letter. -/
theorem writtenUnit_of_exponentLike {u : Text} (h : isExponentLike u = true) :
    writtenUnit u = "\\65 ".toList ++ writtenName u.tail := by
  cases u with
  | nil => simp [isExponentLike] at h
  | cons c rest =>
    rw [writtenUnit, if_pos (by simpa [isExponentLike] using h)]
    rfl

/-- Any other unit is written as an identifier. -/
theorem writtenUnit_of_not_exponentLike {u : Text} (h : isExponentLike u = false) :
    writtenUnit u = writtenIdent u := by
  cases u with
  | nil => rfl
  | cons c rest =>
    rw [writtenUnit, if_neg]
    intro hc
    rw [show isExponentLike (c :: rest) = true by simpa [isExponentLike] using hc] at h
    exact Bool.noConfusion h

/-- Softening a unit does not change whether it could be taken for an exponent. -/
theorem isExponentLike_softUnit (u : Text) : isExponentLike (softUnit u) = isExponentLike u := by
  unfold softUnit
  split
  · next h =>
    cases u with
    | nil => simp [isExponentLike] at h
    | cons c rest => simp [isExponentLike] at h ⊢; simp [h]
  · rfl

/-- Softening a unit changes its first letter only. -/
theorem tail_softUnit (u : Text) : (softUnit u).tail = u.tail := by
  unfold softUnit
  split <;> rfl

/-- A unit is written as its softened form. -/
theorem writtenUnit_softUnit (u : Text) : writtenUnit (softUnit u) = writtenUnit u := by
  cases h : isExponentLike u with
  | true =>
    rw [writtenUnit_of_exponentLike h, writtenUnit_of_exponentLike (by rw [isExponentLike_softUnit, h]),
      tail_softUnit]
  | false => rw [softUnit, h]; rfl

/-- A token is written as its softened form. -/
theorem Token.written_soft (t : Token) : t.soft.written = t.written := by
  cases t with
  | dimension ds u => exact congrArg (ds ++ ·) (writtenUnit_softUnit u)
  | _ => rfl

/-- Softening a token does not change its kind. -/
theorem Token.kind_soft (t : Token) : t.soft.kind = t.kind := by cases t <;> rfl

/-- Softening a node does not change its kind. -/
theorem Node.kind_soft (n : Node) : n.soft.kind = n.kind := by
  cases n with
  | token t => rw [Node.soft]; exact t.kind_soft
  | block b content => rw [Node.soft]; rfl
  | call name arguments => rw [Node.soft]; rfl

mutual

/-- The lexemes of a softened node are its lexemes, softened. -/
theorem Node.lexemes_soft : (n : Node) → n.soft.lexemes = n.lexemes.map Lexeme.soft
  | .token t => by rw [Node.soft, Node.lexemes, Node.lexemes]; rfl
  | .block b content => by
    rw [Node.soft, Node.lexemes, Node.lexemes, Node.allLexemes_allSoft]
    simp [Lexeme.soft]
  | .call name arguments => by
    rw [Node.soft, Node.lexemes, Node.lexemes, Node.allLexemes_allSoft]
    simp [Lexeme.soft]

/-- The lexemes of softened nodes are their lexemes, softened. -/
theorem Node.allLexemes_allSoft :
    (ns : List Node) → Node.allLexemes (Node.allSoft ns) = (Node.allLexemes ns).map Lexeme.soft
  | [] => by rw [Node.allSoft, Node.allLexemes]; rfl
  | n :: ns => by
    rw [Node.allSoft, Node.allLexemes, Node.allLexemes, Node.lexemes_soft, Node.allLexemes_allSoft,
      List.map_append]

end

/-- A lexeme is written as its softened form. -/
theorem Lexeme.written_soft (l : Lexeme) : l.soft.written = l.written := by
  cases l with
  | token t => exact t.written_soft
  | _ => rfl

/-- Softening a lexeme does not change what it is for the one before it. -/
theorem Lexeme.kind?_soft (l : Lexeme) : l.soft.kind? = l.kind? := by
  cases l with
  | token t => exact congrArg some t.kind_soft
  | _ => rfl

/-- Softening a lexeme does not change what it is for the one behind it. -/
theorem Lexeme.kindBehind?_soft (l : Lexeme) : l.soft.kindBehind? = l.kindBehind? := by
  cases l with
  | token t => exact congrArg some t.kind_soft
  | _ => rfl

/-! ### Without the separator at the end -/

/-- The written form of a lexeme without the separator that ends the escape of a lone letter. -/
def Lexeme.tight : Lexeme → Text
  | .token (.dimension ds u) =>
    if isExponentLike u && u.tail.isEmpty then ds ++ "\\65".toList else ds ++ writtenUnit u
  | l => l.written

/-- Does the written form of the lexeme end in the separator of an escape? -/
def Lexeme.endsInEscape : Lexeme → Bool
  | .token (.dimension _ u) => isExponentLike u && u.tail.isEmpty
  | _ => false

/-- The written form of lexemes, the last one without such a separator. -/
def tightBehind (before : Option Kind) : List Lexeme → Text
  | [] => []
  | [l] => fusionGap before l.kind? ++ l.tight
  | l :: m :: ls => fusionGap before l.kind? ++ l.written ++ tightBehind l.kindBehind? (m :: ls)

/-- Does the written form of the lexemes end in the separator of an escape? -/
def endEscaped (ls : List Lexeme) : Bool := ls.getLast?.any Lexeme.endsInEscape

/-- The separator behind the escape of a lone letter can be written apart from the unit. -/
theorem written_unit (ds u : Text) : ds ++ writtenUnit u =
    (if isExponentLike u && u.tail.isEmpty then ds ++ "\\65".toList else ds ++ writtenUnit u) ++
      if isExponentLike u && u.tail.isEmpty then [' '] else [] := by
  generalize hb : (isExponentLike u && u.tail.isEmpty) = escaped
  cases escaped with
  | true =>
    obtain ⟨hu, ht⟩ := Bool.and_eq_true_iff.1 hb
    have hunit : writtenUnit u = "\\65".toList ++ [' '] := by
      rw [writtenUnit_of_exponentLike hu, List.isEmpty_iff.1 ht]
      rfl
    rw [hunit]
    simp
  | false => simp

/-- The written form of a lexeme is its tight form and the separator of an escape, if there is one. -/
theorem Lexeme.written_eq_tight (l : Lexeme) :
    l.written = l.tight ++ if l.endsInEscape then [' '] else [] := by
  have hplain : ∀ {l : Lexeme}, l.tight = l.written → l.endsInEscape = false →
      l.written = l.tight ++ if l.endsInEscape then [' '] else [] := fun h1 h2 => by
    rw [h1, h2, if_neg (by simp), List.append_nil]
  cases l with
  | token t =>
    cases t with
    | dimension ds u => exact written_unit ds u
    | _ => exact hplain rfl rfl
  | _ => exact hplain rfl rfl

/-- The written form of lexemes is their tight form and the separator of an escape, if there is one. -/
theorem writtenBehind_eq_tightBehind (k : Option Kind) (ls : List Lexeme) :
    writtenBehind k ls = tightBehind k ls ++ if endEscaped ls then [' '] else [] := by
  induction ls generalizing k with
  | nil => rfl
  | cons l ls ih =>
    cases ls with
    | nil =>
      rw [writtenBehind, writtenBehind, tightBehind, List.append_nil, l.written_eq_tight,
        ← List.append_assoc]
      rfl
    | cons m ls =>
      rw [writtenBehind, ih, tightBehind, ← List.append_assoc]
      rfl

end Css
end ThemeSheet
