/-
# What printed rules are read as

The lines of a pruned style sheet are read again as declarations with the same text: the
value has one separator before it, and perhaps one behind it, where the source may have
had others or none, and units stand as their written form says.
-/

import ThemeSheet.Proofs.Css.Standing

namespace ThemeSheet
namespace Css

/-! ### The nodes of the written form -/

/-- Softening makes no separator and unmakes none. -/
theorem Node.isSpace_soft (n : Node) : n.soft.isSpace = n.isSpace := by
  cases n with
  | token t => rw [Node.soft]; cases t <;> rfl
  | _ => rw [Node.soft]; rfl

/-- Softening does not change which character a node is. -/
theorem Node.isLiteral_soft (n : Node) (s : String) : n.soft.isLiteral s = n.isLiteral s := by
  cases n with
  | token t => rw [Node.soft]; cases t <;> rfl
  | _ => rw [Node.soft]; rfl

/-- Softening does not change whether a node is a block in curly brackets. -/
theorem Node.isCurly_soft (n : Node) : n.soft.isCurly = n.isCurly := by
  cases n with
  | token t => rw [Node.soft]; rfl
  | block b content => rw [Node.soft]; cases b <;> rfl
  | call name arguments => rw [Node.soft]; rfl

/-- Softening does not change whether a node is the word of the mark of importance. -/
theorem Node.isImportantWord_soft (n : Node) :
    ValueReader.isImportantWord n.soft = ValueReader.isImportantWord n := by
  cases n with
  | token t => rw [Node.soft]; cases t <;> rfl
  | _ => rw [Node.soft]; rfl

/-- What softens to a token is a token. -/
theorem Node.soft_eq_token {n : Node} {t : Token} (h : n.soft = .token t) : ∃ t', n = .token t' ∧ t'.soft = t := by
  cases n with
  | token t' =>
    rw [Node.soft] at h
    exact ⟨t', rfl, Node.token.inj h⟩
  | block b content => rw [Node.soft] at h; simp at h
  | call name arguments => rw [Node.soft] at h; simp at h

/-- A lexeme and its softened form have one tight form. -/
theorem Lexeme.tight_soft (l : Lexeme) : l.soft.tight = l.tight := by
  cases l with
  | token t =>
    cases t with
    | dimension ds u =>
      change (if _ then _ else _) = (if _ then _ else _)
      rw [isExponentLike_softUnit, tail_softUnit, writtenUnit_softUnit]
    | _ => rfl
  | _ => rfl

/-- Lexemes and their softened forms have one tight form. -/
theorem tightBehind_soft (k : Option Kind) (ls : List Lexeme) :
    tightBehind k (ls.map Lexeme.soft) = tightBehind k ls := by
  induction ls generalizing k with
  | nil => rfl
  | cons l ls ih =>
    cases ls with
    | nil => rw [List.map_cons, List.map_nil, tightBehind, tightBehind, Lexeme.kind?_soft, Lexeme.tight_soft]
    | cons m ls =>
      rw [List.map_cons, List.map_cons, tightBehind, tightBehind, ← List.map_cons, ih, Lexeme.kind?_soft,
        Lexeme.written_soft, Lexeme.kindBehind?_soft]

/-- The lexemes of softened nodes are their lexemes, softened. -/
theorem Node.allLexemes_soft (ns : List Node) :
    Node.allLexemes (ns.map Node.soft) = (Node.allLexemes ns).map Lexeme.soft := by
  rw [← Node.allSoft_eq, Node.allLexemes_allSoft]

/-- Nodes and their softened forms have one tight form. -/
theorem tightText_soft (ns : List Node) : tightText (ns.map Node.soft) = tightText ns := by
  rw [tightText, Node.allLexemes_soft, tightBehind_soft, tightText]

/-- Softening does not change whether a lexeme is ordinary. -/
theorem Lexeme.isOrdinary_soft (l : Lexeme) : l.soft.isOrdinary = l.isOrdinary := by
  cases l with
  | token t => cases t <;> rfl
  | _ => rfl

/-- Softening does not change which numeral of a lexeme is too long. -/
theorem Lexeme.overlong?_soft (l : Lexeme) : l.soft.overlong? = l.overlong? := by
  cases l with
  | token t => cases t <;> rfl
  | _ => rfl

/-- Softening does not change which numerals are too long. -/
theorem overlongs_soft (ls : List Lexeme) : overlongs (ls.map Lexeme.soft) = overlongs ls := by
  rw [overlongs, List.filterMap_map]
  exact List.filterMap_congr fun l _ => l.overlong?_soft

/-- **The nodes of a written core with blanks around it** are written as the core is. -/
theorem IsCore.strip_written_soft {core a b : List Node} (h : IsCore core) (ha : IsMargin a)
    (hb : IsMargin b) : Text.strip (written (a ++ (core.map Node.soft ++ b))) = tightText core := by
  have hmargin : ∀ {ms : List Node}, IsMargin ms → ∀ l ∈ Node.allLexemes ms, l.isOrdinary = true := by
    intro ms hms
    induction ms with
    | nil => simp [Node.allLexemes_nil]
    | cons n ms ih =>
      obtain ⟨⟨run, rfl, -⟩, hms'⟩ := List.forall_mem_cons.1 hms
      rw [Node.allLexemes_cons, Node.lexemes]
      exact List.forall_mem_cons.2 ⟨rfl, ih hms'⟩
  rw [← tightText_soft]
  refine strip_written_eq ?_ ha hb fun hne => ?_
  · rw [Node.allLexemes_append, Node.allLexemes_append, Node.allLexemes_soft]
    simp only [List.mem_append, List.mem_map]
    rintro l (hl | ⟨m, hm, rfl⟩ | hl)
    · exact hmargin ha l hl
    · rw [Lexeme.isOrdinary_soft]; exact h.stands.ordinary m hm
    · exact hmargin hb l hl
  · rw [tightText_soft]
    exact h.isSolid (by simpa using hne)

/-- What is stripped of the written form of nodes that stand in a source. -/
theorem IsCore.strip_written {core a b : List Node} (h : IsCore core) (hs : Stands (a ++ (core ++ b)))
    (ha : IsMargin a) (hb : IsMargin b) : Text.strip (written (a ++ (core ++ b))) = tightText core :=
  strip_written_eq hs.ordinary ha hb h.isSolid

/-! ### The last piece -/

/-- A text that begins with a still character is still. -/
theorem isStill_cons {c : Char} (hc : isStill c = true) (k : Text) : IsStill (c :: k) := by
  rintro d ⟨⟩
  exact hc

/-- A piece whose written form ends in an escape is a numeral with a lone letter. -/
theorem Spells.escaped {l : Lexeme} {s q : Text} (h : Spells l s q) (hb : '\\' ∉ s)
    (hesc : l.endsInEscape = true) :
    ∃ ds, IsNumeral ds ∧ l.soft = .token (.dimension ds ['e']) ∧ l.tight = ds ++ "\\65".toList := by
  obtain ⟨ds, u, rfl, hu, htight⟩ := Lexeme.endsInEscape_eq_true hesc
  refine ⟨ds, ?_, ?_, htight⟩
  · cases h with
    | dimension hds => exact hds
    | escapedUnit => exact absurd hb (by simp)
    | bareUnit => exact absurd hb (by simp)
    | unicodeRange _ hread =>
      obtain ⟨_, _, htok⟩ := Spells.isRange hread
      exact absurd htok (by simp)
  · rcases hu with rfl | rfl <;> rfl

/-- **A piece that ends a run:** no separator, and nothing that opens a level. -/
structure IsLast (l : Lexeme) (s q : Text) : Prop where
  spells : Spells l s q
  source : IsSource (s ++ q)
  space : ∀ run, l ≠ .token (.space run)
  calls : ∀ n, l ≠ .calls n

variable {l : Lexeme} {s q k : Text}

/-- It is written as it is before a text that carries nothing on. -/
theorem IsLast.spells_still (h : IsLast l s q) (hk : IsStill k) : Spells l.soft l.written k :=
  h.spells.respell h.source.noEscape h.source.left.lineEnds (.still hk)
    (fun run hl => absurd hl (h.space run)) (fun _ => rangeEnds_of_isStill hk)
    fun n hl => absurd hl (h.calls n)

/-- A piece that ends a run is spelled by its tight form before a semicolon. -/
theorem IsLast.spelled_semicolon (h : IsLast l s q) (k : Text) :
    Spelled (';' :: k) [l.soft] (l.tight ++ ';' :: k) := by
  cases hesc : l.endsInEscape with
  | true =>
    obtain ⟨ds, hds, hsoft, htight⟩ := h.spells.escaped h.source.left.noEscape hesc
    rw [hsoft, htight]
    exact (Spells.bareUnit hds).spelled
  | false =>
    rw [Lexeme.tight_of_not_endsInEscape hesc]
    exact (h.spells_still (isStill_cons (by decide) k)).spelled

/-- A piece that ends a run is spelled by its tight form before a space, which belongs to an escape or is
read by itself. -/
theorem IsLast.spelled_space (h : IsLast l s q) (hname : continuesName k = false)
    (hspace : k.head?.any isSpace = false) :
    Spelled k (l.soft :: if l.endsInEscape then [] else [.token (.space [' '])]) (l.tight ++ ' ' :: k) := by
  cases hesc : l.endsInEscape with
  | true =>
    obtain ⟨ds, hds, hsoft, htight⟩ := h.spells.escaped h.source.left.noEscape hesc
    have hspells := Spells.escapedUnit (u := []) (r := k) hds (by simp) hname
    rw [hsoft, htight, show ds ++ "\\65".toList ++ ' ' :: k = ds ++ ("\\65 ".toList ++ []) ++ k by simp]
    exact hspells.spelled
  | false =>
    rw [Lexeme.tight_of_not_endsInEscape hesc]
    exact .piece (h.spells_still (isStill_cons (by decide) k))
      (Spells.spelled (s := [' ']) (.space (by simp) (by decide) hspace))

/-! ### Cores -/

/-- Calls stay closed when a lexeme that opens none comes first. -/
theorem CallsClosed.cons {ls : List Lexeme} (h : CallsClosed ls) (hl : ∀ n, l ≠ .calls n) :
    CallsClosed (l :: ls) :=
  ⟨fun n hn => absurd hn (hl n), h⟩

mutual

/-- Behind every call in a node its bracket closes. -/
theorem Node.callsClosed_append {ls : List Lexeme} (h : CallsClosed ls) :
    (n : Node) → CallsClosed (n.lexemes ++ ls)
  | .token t => by
    rw [Node.lexemes]
    exact h.cons (by simp)
  | .block b content => by
    rw [Node.lexemes, List.cons_append, List.append_assoc]
    exact (Node.allCallsClosed_append (h.cons (by simp)) content).cons (by simp)
  | .call name arguments => by
    rw [Node.lexemes, List.cons_append, List.append_assoc]
    exact ⟨fun _ _ => ⟨.round, by simp⟩, Node.allCallsClosed_append (h.cons (by simp)) arguments⟩

/-- The calls of nodes are closed if those behind them are. -/
theorem Node.allCallsClosed_append {ls : List Lexeme} (h : CallsClosed ls) :
    (ns : List Node) → CallsClosed (Node.allLexemes ns ++ ls)
  | [] => by rw [Node.allLexemes]; exact h
  | n :: ns => by
    rw [Node.allLexemes, List.append_assoc]
    exact Node.callsClosed_append (Node.allCallsClosed_append h ns) n

end

/-- The calls of nodes are closed. -/
theorem Node.callsClosed (ns : List Node) : CallsClosed (Node.allLexemes ns) := by
  have h := Node.allCallsClosed_append (show CallsClosed [] from trivial) ns
  rwa [List.append_nil] at h

/-- Where calls are closed, no call comes last. -/
theorem CallsClosed.getLast?_ne {ls : List Lexeme} (h : CallsClosed ls) (n : Text) :
    ls.getLast? ≠ some (.calls n) := by
  induction ls with
  | nil => simp
  | cons m ls ih =>
    obtain ⟨hm, hls⟩ := h
    cases ls with
    | nil =>
      intro hl
      obtain ⟨b, hb⟩ := hm n (by simpa using hl)
      simp at hb
    | cons m' ls =>
      rw [List.getLast?_cons_cons]
      exact ih hls

/-- The last lexeme of a core ends a run. -/
theorem IsCore.isLast {core : List Node} (h : IsCore core)
    (hl : (Node.allLexemes core).getLast? = some l) : ∃ s q, IsLast l s q := by
  obtain ⟨⟨q, r, hs, hr⟩, -⟩ := h.stands
  obtain ⟨s, hspells, hsource⟩ := hs.last hr hl
  refine ⟨s, q, hspells, hsource, ?_, ?_⟩
  · rintro run rfl
    exact Node.getLast?_allLexemes h.last run hl
  · rintro n rfl
    exact (Node.callsClosed core).getLast?_ne n hl

/-- The separator that is read behind a core, unless it ends an escape. -/
def spaceBehind (core : List Node) : List Node :=
  if endEscaped (Node.allLexemes core) then [] else [.token (.space [' '])]

/-- **A core before a semicolon** is read as its written form says. -/
theorem IsCore.spelled_semicolon {core : List Node} (h : IsCore core) (k : Text) :
    Spelled (';' :: k) (Node.allLexemes (core.map Node.soft)) (tightText core ++ ';' :: k) := by
  rw [Node.allLexemes_soft]
  by_cases hne : core = []
  · subst hne
    rw [tightText_nil, Node.allLexemes_nil]
    exact .nil
  · obtain ⟨⟨q, r, hs, hr⟩, -⟩ := h.stands
    have hlast : ∀ l, (Node.allLexemes core).getLast? = some l →
        Spelled (';' :: k) (l.soft :: []) (l.tight ++ ';' :: k) := fun l hl => by
      obtain ⟨s, q, hlast⟩ := h.isLast hl
      exact hlast.spelled_semicolon k
    have hspelled := hs.spelled hr (isStill_cons (by decide) k) (Node.callsClosed core)
      (Node.allLexemes_ne_nil hne) hlast none
    rwa [List.append_nil] at hspelled

/-- **A core before a space** is read as its written form says, with the space behind it. -/
theorem IsCore.spelled_space {core : List Node} (h : IsCore core) (hne : core ≠ [])
    (hname : continuesName k = false) (hspace : k.head?.any isSpace = false) :
    Spelled k (Node.allLexemes (core.map Node.soft ++ spaceBehind core)) (tightText core ++ ' ' :: k) := by
  obtain ⟨⟨q, r, hs, hr⟩, -⟩ := h.stands
  rw [Node.allLexemes_append, Node.allLexemes_soft]
  refine hs.spelled hr (isStill_cons (by decide) k) (Node.callsClosed core) (Node.allLexemes_ne_nil hne)
    (fun l hl => ?_) none
  obtain ⟨s, q, hlast⟩ := h.isLast hl
  have hbehind : Node.allLexemes (spaceBehind core) =
      if l.endsInEscape then [] else [.token (.space [' '])] := by
    rw [spaceBehind, endEscaped, hl, Option.any_some]
    split
    · rw [Node.allLexemes_nil]
    · rw [Node.allLexemes_cons, Node.lexemes, Node.allLexemes_nil]; rfl
  rw [hbehind]
  exact hlast.spelled_space hname hspace

end Css
end ThemeSheet
