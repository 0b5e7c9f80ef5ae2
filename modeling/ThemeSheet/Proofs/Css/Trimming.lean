/-
# Written forms without blanks at their ends

In a source without odd blanks the written form of a run of nodes begins and ends with
blanks only where the run begins and ends with separators, or with the escape of a
lone letter.  Without these blanks it is the written form of the nodes in between.
-/

import ThemeSheet.Proofs.Css.Run
import ThemeSheet.Proofs.Css.Sheet
import ThemeSheet.Proofs.Text.AnyCase

namespace ThemeSheet
namespace Css

/-! ### Solid texts -/

/-- A text that neither begins nor ends with a blank. -/
structure IsSolid (t : Text) : Prop where
  ne_nil : t ≠ []
  front : ∀ c, t.head? = some c → isBlank c = false
  back : ∀ c, t.getLast? = some c → isBlank c = false

/-- **Blanks around a solid text are stripped, and no more.** -/
theorem IsSolid.strip_eq {t a b : Text} (h : IsSolid t) (ha : ∀ c ∈ a, isBlank c = true)
    (hb : ∀ c ∈ b, isBlank c = true) : Text.strip (a ++ (t ++ b)) = t := by
  obtain ⟨c, t', rfl⟩ := List.exists_cons_of_ne_nil h.ne_nil
  have hc := h.front c rfl
  have hfront : (a ++ (c :: t' ++ b)).dropWhile isBlank = c :: t' ++ b := by
    rw [List.dropWhile_append_of_pos ha, List.cons_append, List.dropWhile_cons_of_neg (by simp [hc])]
  obtain ⟨u, d, hu⟩ := List.eq_nil_or_concat (c :: t') |>.resolve_left (by simp)
  rw [List.concat_eq_append] at hu
  have hd : isBlank d = false := h.back d (by rw [hu]; simp)
  rw [Text.strip, Text.trim, hfront, hu, List.reverse_append,
    List.dropWhile_append_of_pos fun x hx => hb x (List.mem_reverse.1 hx)]
  simp [hd]

/-- A text without blanks, unless it is empty, is solid. -/
theorem IsSolid.of_all {t : Text} (hne : t ≠ []) (h : ∀ c ∈ t, isBlank c = false) : IsSolid t :=
  ⟨hne, fun c hc => h c (List.mem_of_mem_head? hc), fun c hc => h c (List.mem_of_getLast? hc)⟩

/-- Whatever stands between two solid texts, the whole is solid. -/
theorem IsSolid.around {a b : Text} (ha : IsSolid a) (hb : IsSolid b) (t : Text) : IsSolid (a ++ (t ++ b)) := by
  refine ⟨by simp [ha.ne_nil], fun c hc => ha.front c ?_, fun c hc => hb.back c ?_⟩
  · rwa [List.head?_append_of_ne_nil _ ha.ne_nil] at hc
  · rwa [List.getLast?_append_of_ne_nil _ (by simp [hb.ne_nil]), List.getLast?_append_of_ne_nil _ hb.ne_nil]
      at hc

/-- Two solid texts one behind the other are solid. -/
theorem IsSolid.append {a b : Text} (ha : IsSolid a) (hb : IsSolid b) : IsSolid (a ++ b) :=
  ha.around hb []

/-- A character that is no blank is solid. -/
theorem IsSolid.single {c : Char} (hc : isBlank c = false) : IsSolid [c] :=
  .of_all (by simp) (by simpa using hc)

/-- Nothing is left of blanks. -/
theorem strip_blanks {a : Text} (ha : ∀ c ∈ a, isBlank c = true) : Text.strip a = [] := by
  have : a.dropWhile isBlank = [] := by simpa using ha
  rw [Text.strip, Text.trim, this]
  rfl

/-! ### The last character of a piece -/

/-- A decimal digit is a hexadecimal one. -/
theorem isHexDigit_of_isDigit {c : Char} (h : c.isDigit = true) : isHexDigit c = true := by
  simp only [Char.isDigit, Bool.and_eq_true, decide_eq_true_eq, ge_iff_le, UInt32.le_iff_toNat_le] at h
  have hlt : 48 ≤ c.toNat ∧ c.toNat ≤ 57 := h
  simp [isHexDigit, hexValue?, hlt]

/-- A digit is no blank. -/
theorem not_isBlank_of_isDigit {c : Char} (h : c.isDigit = true) : isBlank c = false :=
  not_isBlank_of_isHexDigit (isHexDigit_of_isDigit h)

/-- A numeral holds no blank. -/
theorem IsNumeral.not_isBlank {ds : Text} (h : IsNumeral ds) : ∀ c ∈ ds, isBlank c = false := by
  have hdigits : ∀ {t : Text}, (∀ c ∈ t, c.isDigit = true) → ∀ c ∈ t, isBlank c = false :=
    fun ht c hc => not_isBlank_of_isDigit (ht c hc)
  have hsign : ∀ {t : Text}, IsSign t → ∀ c ∈ t, isBlank c = false := by
    rintro t ht
    cases ht <;> decide
  have hmantissa : ∀ {t : Text}, IsMantissa t → ∀ c ∈ t, isBlank c = false := by
    rintro t ht c hc
    cases ht with
    | whole hw => exact hdigits hw.2 c hc
    | fraction hw hf =>
      simp only [List.mem_append, List.mem_cons] at hc
      rcases hc with hc | rfl | hc
      · exact hdigits hw c hc
      · decide
      · exact hdigits hf.2 c hc
  cases h with
  | plain hs hm =>
    intro c hc
    exact (List.mem_append.1 hc).elim (hsign hs c) (hmantissa hm c)
  | power hs hm he =>
    obtain @⟨x, s, d, hx, hs', hd⟩ := he
    intro c hc
    simp only [List.mem_append, List.mem_cons, List.cons_append] at hc
    rcases hc with (hc | hc) | rfl | hc | hc
    · exact hsign hs c hc
    · exact hmantissa hm c hc
    · rcases hx with rfl | rfl <;> decide
    · exact hsign hs' c hc
    · exact hdigits hd.2 c hc

/-- A numeral is solid. -/
theorem IsNumeral.isSolid {ds : Text} (h : IsNumeral ds) : IsSolid ds := .of_all h.ne_nil h.not_isBlank

variable {q r k : Text} {ls : List Lexeme}

/-- A character of a source that is no separator is no blank. -/
theorem IsSource.not_isBlank {s : Text} (hs : IsSource s) {c : Char} (hc : c ∈ s) (h : isSpace c = false) :
    isBlank c = false := by
  cases hb : isBlank c with
  | false => rfl
  | true =>
    rw [(hs c hc).2.2 hb] at h
    exact Bool.noConfusion h

/-- A name in a source is solid. -/
theorem IsSource.isSolid_name {n : Text} (hs : IsSource n) (hne : n ≠ [])
    (hn : ∀ c ∈ n, isNamePart c = true) : IsSolid n :=
  .of_all hne fun c hc => hs.not_isBlank hc (isSpace_of_isNamePart (hn c hc))

/-- **The written form of a piece that is no separator is solid.** -/
theorem Spells.isSolid {l : Lexeme} {s : Text} (h : Spells l s r) (hs : IsSource s)
    (hspace : ∀ run, l ≠ .token (.space run)) : IsSolid l.tight := by
  cases h with
  | ident hn =>
    rw [show Lexeme.tight (.token (.ident s)) = s from hn.written_ident]
    exact hs.isSolid_name hn.ne_nil hn.parts
  | @atKeyword n _ hn =>
    rw [show Lexeme.tight (.token (.atKeyword n)) = ['@'] ++ n from hn.written_atKeyword]
    exact (IsSolid.single (by decide)).append (IsSource.isSolid_name (IsSource.right (s := ['@']) hs) hn.ne_nil hn.parts)
  | @hash n _ hne hn =>
    rw [show Lexeme.tight (.token (.hash n (startsIdent n))) = ['#'] ++ n from written_hash_eq hn]
    exact (IsSolid.single (by decide)).append (IsSource.isSolid_name (IsSource.right (s := ['#']) hs) hne hn)
  | number hds => exact hds.isSolid
  | percentage hds => exact hds.isSolid.append (.single (by decide))
  | @dimension ds u _ hds hu =>
    have hsu := hs.right
    rw [Lexeme.tight]
    split
    · exact hds.isSolid.append (.of_all (by decide) (by decide))
    · next hesc =>
      cases hexp : isExponentLike u with
      | true =>
        have hne : u.tail ≠ [] := fun h => hesc (by simp [hexp, h])
        have htail : IsSource u.tail := fun c hc => hsu c (List.mem_of_mem_tail hc)
        have hparts : ∀ c ∈ u.tail, isNamePart c = true := fun c hc => hu.parts c (List.mem_of_mem_tail hc)
        rw [hu.writtenUnit_of_exponentLike hexp]
        exact hds.isSolid.around (htail.isSolid_name hne hparts) _
      | false =>
        rw [hu.writtenUnit_of_not_exponentLike hexp]
        exact hds.isSolid.append (hsu.isSolid_name hu.ne_nil hu.parts)
  | escapedUnit => exact absurd hs.noEscape (by simp)
  | bareUnit => exact absurd hs.noEscape (by simp)
  | unicodeRange _ hread =>
    obtain ⟨first, last, rfl⟩ := Spells.isRange hread
    have hcode : ∀ n, ∀ c ∈ writtenCode n, isBlank c = false := fun n c hc =>
      not_isBlank_of_isHexDigit ((writtenCode_spec n).2.2 c hc)
    have htight : Lexeme.tight (.token (.unicodeRange first last)) =
        ['U', '+'] ++ (writtenCode first ++ if first = last then [] else '-' :: writtenCode last) := rfl
    rw [htight]
    refine (IsSolid.of_all (by simp) (by decide)).append (.of_all (by simp [(writtenCode_spec first).2.1]) ?_)
    intro c hc
    rcases List.mem_append.1 hc with hc | hc
    · exact hcode first c hc
    · split at hc
      · simp at hc
      · rcases List.mem_cons.1 hc with rfl | hc
        · decide
        · exact hcode last c hc
  | @quoted q v =>
    exact (IsSolid.single (c := '"') (by decide)).around (.single (c := '"') (by decide)) (v.flatMap stringChar)
  | @string v =>
    exact (IsSolid.single (c := '"') (by decide)).around (.single (c := '"') (by decide)) (v.flatMap stringChar)
  | @url n a v b =>
    rw [show Lexeme.tight (.token (.url v true)) = "url(".toList ++ (v.flatMap urlChar ++ [')']) by
      rw [Lexeme.tight_of_not_endsInEscape rfl, Lexeme.written, Token.written_url, List.append_assoc]]
    exact (IsSolid.of_all (by decide) (by decide)).around (.single (by decide)) _
  | space => exact absurd rfl (hspace _)
  | mark hm => exact .single (hs.not_isBlank (by simp) hm.space)
  | combination hcs =>
    have hall : ∀ cs ∈ combinations, cs ≠ [] ∧ ∀ c ∈ cs, isBlank c = false := by decide
    obtain ⟨h1, h2⟩ := hall s hcs
    exact .of_all h1 h2
  | opens b => cases b <;> exact .single (by decide)
  | closes b => cases b <;> exact .single (by decide)
  | @calls n _ hn =>
    rw [show Lexeme.tight (.calls n) = n ++ ['('] from hn.written_calls]
    exact (hs.left.isSolid_name hn.ne_nil hn.parts).append (.single (by decide))

/-! ### Pieces of a run -/

/-- A closing bracket may stand in a source. -/
theorem isSource_closing (b : Bracket) : IsSource [b.closing] := by
  intro c hc
  rw [List.mem_singleton.1 hc]
  cases b <;> decide

/-- Each lexeme that stands in a source is spelled in a source. -/
theorem Sourced.mem {l : Lexeme} (h : Sourced q ls r) (hr : IsSource r) (hl : l ∈ ls) :
    ∃ s t, Spells l s t ∧ IsSource s := by
  induction h with
  | nil => simp at hl
  | piece hs _ ih =>
    rcases List.mem_cons.1 hl with rfl | hl
    · exact ⟨_, _, hs, hr.left⟩
    · exact ih hr.right hl
  | @closing b ls _ ih =>
    rcases List.mem_cons.1 hl with rfl | hl
    · exact ⟨_, [], .closes b, isSource_closing b⟩
    · exact ih hr hl

/-- The last piece stands directly before the rest of the source. -/
theorem Sourced.last {l : Lexeme} (h : Sourced q ls r) (hr : IsSource r) (hl : ls.getLast? = some l) :
    ∃ s, Spells l s q ∧ IsSource (s ++ q) := by
  induction h with
  | nil => simp at hl
  | @piece m s r ls hs h ih =>
    cases ls with
    | nil =>
      obtain rfl : m = l := by simpa using hl
      cases h
      exact ⟨s, hs, hr⟩
    | cons m' ls => exact ih hr.right (by simpa using hl)
  | @closing b ls h ih =>
    cases ls with
    | nil =>
      obtain rfl : Lexeme.closes b = l := by simpa using hl
      cases h
      exact ⟨_, .closes b, by rw [List.append_nil]; exact isSource_closing b⟩
    | cons m' ls => exact ih hr (by simpa using hl)

/-- Lexemes that stand in a source part where their list is parted. -/
theorem Sourced.append_inv {as bs : List Lexeme} (h : Sourced q (as ++ bs) r) (hr : IsSource r) :
    ∃ m, Sourced m as r ∧ Sourced q bs m ∧ IsSource m := by
  generalize hls : as ++ bs = ls at h
  induction h generalizing as with
  | nil =>
    obtain ⟨rfl, rfl⟩ := List.append_eq_nil_iff.1 hls
    exact ⟨_, .nil, .nil, hr⟩
  | @piece l s r ls hs h ih =>
    cases as with
    | nil =>
      rw [List.nil_append] at hls
      exact ⟨_, .nil, hls ▸ .piece hs h, hr⟩
    | cons a as =>
      obtain ⟨rfl, hrest⟩ := List.cons.inj hls
      obtain ⟨m, h1, h2, hm⟩ := ih hr.right hrest
      exact ⟨m, .piece hs h1, h2, hm⟩
  | @closing b ls h ih =>
    cases as with
    | nil =>
      rw [List.nil_append] at hls
      exact ⟨_, .nil, hls ▸ .closing h, hr⟩
    | cons a as =>
      obtain ⟨rfl, hrest⟩ := List.cons.inj hls
      obtain ⟨m, h1, h2, hm⟩ := ih hr hrest
      exact ⟨m, .closing h1, h2, hm⟩

/-- The last piece ends the written form. -/
theorem tightBehind_last (before : Option Kind) {l : Lexeme} (hl : ls.getLast? = some l) :
    ∃ w, tightBehind before ls = w ++ l.tight := by
  induction ls generalizing before with
  | nil => simp at hl
  | cons m ls ih =>
    cases ls with
    | nil =>
      obtain rfl : m = l := by simpa using hl
      exact ⟨_, rfl⟩
    | cons m' ls =>
      obtain ⟨w, hw⟩ := ih m.kindBehind? (by simpa using hl)
      exact ⟨_, by rw [tightBehind, hw, ← List.append_assoc]⟩

/-- **The written form of a run is solid** if no separator stands at its ends. -/
theorem Sourced.isSolid (h : Sourced q ls r) (hr : IsSource r) (hne : ls ≠ [])
    (hfirst : ∀ run, ls.head? ≠ some (.token (.space run)))
    (hlast : ∀ run, ls.getLast? ≠ some (.token (.space run))) : IsSolid (tightBehind none ls) := by
  obtain ⟨l, ls', rfl⟩ := List.exists_cons_of_ne_nil hne
  obtain ⟨s, t, hs, hsource⟩ := h.mem hr (List.mem_cons_self ..)
  have hl := hs.isSolid hsource fun run hrun => hfirst run (by rw [hrun]; rfl)
  obtain ⟨m, hm⟩ : ∃ m, (l :: ls').getLast? = some m := ⟨_, List.getLast?_eq_some_getLast hne⟩
  obtain ⟨s', hs', hsource'⟩ := h.last hr hm
  have hm' := hs'.isSolid hsource'.left fun run hrun => hlast run (by rw [hm, hrun])
  obtain ⟨w, hw⟩ := tightBehind_last none hm
  obtain ⟨w', u, htext, hw'⟩ := tightBehind_cons none l ls' []
  rw [List.append_nil, fusionGap_none, List.nil_append] at htext
  refine ⟨by simp [hw, hm'.ne_nil], fun c hc => hl.front c ?_, fun c hc => hm'.back c ?_⟩
  · have hw'' : ∃ v, w' = l.tight ++ v := by
      rcases hw' with ⟨-, rfl, -⟩ | ⟨-, rfl, -⟩
      · exact ⟨[], by simp⟩
      · exact ⟨_, l.written_eq_tight⟩
    obtain ⟨v, rfl⟩ := hw''
    rwa [htext, List.append_assoc, List.head?_append_of_ne_nil _ hl.ne_nil] at hc
  · rwa [hw, List.getLast?_append_of_ne_nil _ hm'.ne_nil] at hc

/-! ### Nodes of a source -/

/-- **The nodes stand in a source,** and no numeral among them is too long. -/
structure Stands (ns : List Node) : Prop where
  sourced : ∃ q r, Sourced q (Node.allLexemes ns) r ∧ IsSource r
  numerals : overlongs (Node.allLexemes ns) = []

/-- Nodes that stand in a source part where their list is parted. -/
theorem Stands.append_inv {ns ms : List Node} (h : Stands (ns ++ ms)) : Stands ns ∧ Stands ms := by
  obtain ⟨⟨q, r, hs, hr⟩, hnum⟩ := h
  rw [Node.allLexemes_append] at hs
  rw [overlongs_nodes_append, List.append_eq_nil_iff] at hnum
  obtain ⟨m, h1, h2, hm⟩ := hs.append_inv hr
  exact ⟨⟨⟨m, r, h1, hr⟩, hnum.1⟩, ⟨⟨q, m, h2, hm⟩, hnum.2⟩⟩

/-- The first node stands in a source, and so do the others. -/
theorem Stands.cons_inv {n : Node} {ns : List Node} (h : Stands (n :: ns)) : Stands [n] ∧ Stands ns :=
  Stands.append_inv (show Stands ([n] ++ ns) from h)

/-- What is in a block that stands in a source stands in a source. -/
theorem Stands.sublist_block {b : Bracket} {content : List Node} (h : Stands [.block b content]) :
    Stands content := by
  obtain ⟨⟨q, r, hs, hr⟩, hnum⟩ := h
  rw [Node.allLexemes_cons, Node.allLexemes_nil, List.append_nil, Node.lexemes] at hs
  rw [overlongs_cons, Node.allLexemes_nil, overlongs_block] at hnum
  rw [← List.singleton_append] at hs
  obtain ⟨m, -, h2, hm⟩ := hs.append_inv hr
  obtain ⟨m', h3, -, -⟩ := h2.append_inv hm
  exact ⟨⟨m', m, h3, hm⟩, (List.append_eq_nil_iff.1 hnum).1⟩

/-- The lexemes of a source are written without regard to what a lone backslash asks for. -/
theorem Stands.ordinary {ns : List Node} (h : Stands ns) :
    ∀ l ∈ Node.allLexemes ns, l.isOrdinary = true := by
  obtain ⟨⟨q, r, hs, hr⟩, -⟩ := h
  intro l hl
  obtain ⟨s, t, hl', hsource⟩ := hs.mem hr hl
  cases hl' with
  | unicodeRange _ hread => obtain ⟨_, _, rfl⟩ := Spells.isRange hread; rfl
  | @mark c =>
    have hc : c ≠ '\\' := (hsource c (by simp)).1
    simp [Lexeme.isOrdinary, hc]
  | combination hcs =>
    have hall : ∀ cs ∈ combinations, (Lexeme.token (.literal cs)).isOrdinary = true := by decide
    exact hall s hcs
  | _ => rfl

/-- The separators of a source are blanks. -/
theorem Stands.space_run {ns : List Node} (h : Stands ns) {run : Text}
    (hrun : .token (.space run) ∈ Node.allLexemes ns) : ∀ c ∈ run, isSpace c = true := by
  obtain ⟨⟨q, r, hs, hr⟩, -⟩ := h
  obtain ⟨s, t, hl, -⟩ := hs.mem hr hrun
  cases hl with
  | unicodeRange _ hread =>
    obtain ⟨_, _, htok⟩ := Spells.isRange hread
    exact absurd htok (by simp)
  | space _ hall => exact hall

/-! ### Separators at the ends -/

/-- A separator is a blank. -/
theorem isBlank_of_isSpace {c : Char} (h : isSpace c = true) : isBlank c = true := by
  have : (c = ' ' ∨ c = '\n') ∨ c = '\t' := by simpa [isSpace] using h
  rcases this with (rfl | rfl) | rfl <;> decide

/-- Separators among nodes. -/
theorem Node.eq_space {n : Node} (h : n.isSpace = true) : ∃ run, n = .token (.space run) := by
  unfold Node.isSpace at h
  split at h
  · exact ⟨_, rfl⟩
  · simp at h

/-- A node has a lexeme. -/
theorem Node.lexemes_ne_nil (n : Node) : n.lexemes ≠ [] := by
  obtain ⟨l, ls, h, -⟩ := Lexeme.kind?_lexemes n
  simp [h]

/-- Nodes have a lexeme unless there are none. -/
theorem Node.allLexemes_ne_nil {ns : List Node} (h : ns ≠ []) : Node.allLexemes ns ≠ [] := by
  obtain ⟨n, ns, rfl⟩ := List.exists_cons_of_ne_nil h
  simp [Node.allLexemes_cons, n.lexemes_ne_nil]

/-- Nodes that begin with no separator have lexemes that begin with none. -/
theorem Node.head?_allLexemes {ns : List Node} (h : ∀ n, ns.head? = some n → n.isSpace = false)
    (run : Text) : (Node.allLexemes ns).head? ≠ some (.token (.space run)) := by
  cases ns with
  | nil => simp [Node.allLexemes_nil]
  | cons n ns =>
    have hn := h n rfl
    cases n with
    | token t =>
      rw [Node.allLexemes_cons, Node.lexemes]
      intro hl
      rw [Lexeme.token.inj (Option.some.inj hl)] at hn
      exact Bool.noConfusion hn
    | block b content => simp [Node.allLexemes_cons, Node.lexemes]
    | call name arguments => simp [Node.allLexemes_cons, Node.lexemes]

/-- Nodes that end with no separator have lexemes that end with none. -/
theorem Node.getLast?_allLexemes {ns : List Node} (h : ∀ n, ns.getLast? = some n → n.isSpace = false)
    (run : Text) : (Node.allLexemes ns).getLast? ≠ some (.token (.space run)) := by
  rcases List.eq_nil_or_concat ns with rfl | ⟨ns, n, rfl⟩
  · simp [Node.allLexemes_nil]
  · rw [List.concat_eq_append] at h ⊢
    have hn := h n (by simp)
    rw [Node.allLexemes_append, List.getLast?_append_of_ne_nil _ (Node.allLexemes_ne_nil (by simp)),
      Node.allLexemes_cons, Node.allLexemes_nil, List.append_nil]
    cases n with
    | token t =>
      rw [Node.lexemes]
      intro hl
      rw [Lexeme.token.inj (Option.some.inj hl)] at hn
      exact Bool.noConfusion hn
    | block b content =>
      rw [Node.lexemes, ← List.cons_append, List.getLast?_append_of_ne_nil _ (by simp)]
      simp
    | call name arguments =>
      rw [Node.lexemes, ← List.cons_append, List.getLast?_append_of_ne_nil _ (by simp)]
      simp

/-- Behind a separator, lexemes are written as if they came first. -/
theorem writtenBehind_space (ls : List Lexeme) :
    writtenBehind (some .space) ls = writtenBehind none ls :=
  writtenBehind_congr (fun b => fusionGap_of_not_fuses Kind.not_fuses_space b) ls

/-- Separators made of blanks. -/
def IsMargin (ns : List Node) : Prop :=
  ∀ n ∈ ns, ∃ run, n = .token (.space run) ∧ ∀ c ∈ run, isBlank c = true

/-- A margin is nothing but separators. -/
theorem IsMargin.allSpace {ns : List Node} (h : IsMargin ns) : AllSpace ns := by
  intro n hn
  obtain ⟨run, rfl, -⟩ := h n hn
  rfl

/-- Separators before lexemes are written as they are. -/
theorem IsMargin.written_append {a : List Node} (h : IsMargin a) (ls : List Lexeme) :
    ∃ w, (∀ c ∈ w, isBlank c = true) ∧
      writtenBehind none (Node.allLexemes a ++ ls) = w ++ writtenBehind none ls := by
  induction a with
  | nil => exact ⟨[], by simp, by rw [Node.allLexemes_nil]; rfl⟩
  | cons n a ih =>
    obtain ⟨⟨run, rfl, hrun⟩, ha⟩ := List.forall_mem_cons.1 h
    obtain ⟨w, hw, hwritten⟩ := ih ha
    refine ⟨run ++ w, fun c hc => (List.mem_append.1 hc).elim (hrun c) (hw c), ?_⟩
    rw [Node.allLexemes_cons, Node.lexemes, List.singleton_append, List.cons_append, writtenBehind,
      show (Lexeme.token (.space run)).kindBehind? = some .space from rfl, writtenBehind_space, hwritten,
      ← List.append_assoc]
    rfl

/-- A separator needs no gap before it. -/
theorem fusionGap_space (before : Option Kind) (run : Text) :
    fusionGap before (Lexeme.token (.space run)).kind? = [] := by
  cases before with
  | none => rfl
  | some a =>
    have : a.fuses .space = false := by
      simp [Kind.fuses, Kind.isNameLike, Kind.isNumeric, Kind.mark]
    simp [Lexeme.kind?, Token.kind, fusionGap, this]

/-- What stands before lexemes that are separators does not matter. -/
theorem writtenBehind_spaces {b : List Node} (hb : AllSpace b) (before : Option Kind) :
    writtenBehind before (Node.allLexemes b) = writtenBehind none (Node.allLexemes b) := by
  cases b with
  | nil => rw [Node.allLexemes_nil]; rfl
  | cons n b =>
    obtain ⟨run, rfl⟩ := Node.eq_space (hb n (List.mem_cons_self ..))
    rw [Node.allLexemes_cons, Node.lexemes, List.singleton_append, writtenBehind, writtenBehind,
      fusionGap_space, fusionGap_space]

/-- Separators at the end are written by themselves. -/
theorem writtenBehind_append_spaces {b : List Node} (hb : AllSpace b) (ls : List Lexeme)
    (before : Option Kind) :
    writtenBehind before (ls ++ Node.allLexemes b) =
      writtenBehind before ls ++ writtenBehind none (Node.allLexemes b) := by
  induction ls generalizing before with
  | nil => rw [List.nil_append, writtenBehind_spaces hb]; rfl
  | cons l ls ih => rw [List.cons_append, writtenBehind, writtenBehind, ih, ← List.append_assoc]

/-- The written form of nodes without the separator that ends an escape. -/
def tightText (ns : List Node) : Text := tightBehind none (Node.allLexemes ns)

/-- Nothing is written of no nodes. -/
theorem tightText_nil : tightText [] = [] := by
  rw [tightText, Node.allLexemes_nil, tightBehind]

/-- **What is stripped of the written form** are the separators at its ends and the one that ends an
escape. -/
theorem strip_written_eq {a core b : List Node} (hord : ∀ l ∈ Node.allLexemes (a ++ (core ++ b)), l.isOrdinary = true)
    (ha : IsMargin a) (hb : IsMargin b) (hcore : core ≠ [] → IsSolid (tightText core)) :
    Text.strip (written (a ++ (core ++ b))) = tightText core := by
  obtain ⟨w, hw, hwa⟩ := ha.written_append (Node.allLexemes core ++ Node.allLexemes b)
  obtain ⟨v, hv, hvb⟩ := hb.written_append []
  rw [List.append_nil, writtenBehind, List.append_nil] at hvb
  rw [written_eq hord, Node.allLexemes_append, Node.allLexemes_append, hwa,
    writtenBehind_append_spaces hb.allSpace, hvb, writtenBehind_eq_tightBehind, List.append_assoc]
  have hend : ∀ c ∈ (if endEscaped (Node.allLexemes core) then [' '] else []) ++ v, isBlank c = true := by
    intro c hc
    rcases List.mem_append.1 hc with hc | hc
    · split at hc
      · rw [List.mem_singleton.1 hc]; decide
      · simp at hc
    · exact hv c hc
  by_cases hne : core = []
  · subst hne
    rw [Node.allLexemes_nil, tightBehind, List.nil_append, tightText_nil]
    refine strip_blanks fun c hc => ?_
    exact (List.mem_append.1 hc).elim (hw c) (hend c)
  · exact (hcore hne).strip_eq hw hend

/-! ### Nodes without separators at their ends -/

/-- **Nodes that stand in a source** and neither begin nor end with a separator. -/
structure IsCore (ns : List Node) : Prop where
  stands : Stands ns
  first : ∀ n, ns.head? = some n → n.isSpace = false
  last : ∀ n, ns.getLast? = some n → n.isSpace = false

/-- The tight form of a core is solid. -/
theorem IsCore.isSolid {ns : List Node} (h : IsCore ns) (hne : ns ≠ []) : IsSolid (tightText ns) := by
  obtain ⟨⟨q, r, hs, hr⟩, -⟩ := h.stands
  exact hs.isSolid hr (Node.allLexemes_ne_nil hne) (Node.head?_allLexemes h.first)
    (Node.getLast?_allLexemes h.last)

/-- Nodes are a core with separators on both sides. -/
theorem exists_core (ns : List Node) : ∃ a core b, ns = a ++ (core ++ b) ∧ AllSpace a ∧ AllSpace b ∧
    (∀ n, core.head? = some n → n.isSpace = false) ∧ ∀ n, core.getLast? = some n → n.isSpace = false := by
  have hback : ∀ ms : List Node, ∃ core b, ms = core ++ b ∧ AllSpace b ∧
      ∀ n, core.getLast? = some n → n.isSpace = false := by
    intro ms
    induction ms using List.reverseRecOn with
    | nil => exact ⟨[], [], rfl, by simp [AllSpace], by simp⟩
    | append_singleton ms m ih =>
      cases hm : m.isSpace with
      | false => exact ⟨ms ++ [m], [], by simp, by simp [AllSpace], by simpa using hm⟩
      | true =>
        obtain ⟨core, b, rfl, hb, hlast⟩ := ih
        exact ⟨core, b ++ [m], by simp, by simpa [AllSpace, or_imp, forall_and, hm] using hb, hlast⟩
  obtain ⟨core, b, hcore, hb, hlast⟩ := hback (ns.dropWhile Node.isSpace)
  refine ⟨ns.takeWhile Node.isSpace, core, b, ?_, fun n hn => List.mem_takeWhile_imp hn, hb, ?_, hlast⟩
  · rw [← hcore, List.takeWhile_append_dropWhile]
  · intro n hn
    obtain ⟨core', rfl⟩ := List.head?_eq_some_iff.1 hn
    have := List.head?_dropWhile_not Node.isSpace ns
    rw [hcore] at this
    simpa using this

/-- **Nodes that stand in a source** are a core with separators around it. -/
theorem Stands.exists_core {ns : List Node} (h : Stands ns) :
    ∃ a core b, ns = a ++ (core ++ b) ∧ IsMargin a ∧ IsMargin b ∧ IsCore core := by
  obtain ⟨a, core, b, rfl, ha, hb, hfirst, hlast⟩ := Css.exists_core ns
  have hmargin : ∀ {ms : List Node}, Stands ms → AllSpace ms → IsMargin ms := by
    intro ms hms hspace n hn
    obtain ⟨run, rfl⟩ := Node.eq_space (hspace n hn)
    obtain ⟨as, bs, rfl⟩ := List.append_of_mem hn
    refine ⟨run, rfl, fun c hc => isBlank_of_isSpace (hms.space_run ?_ c hc)⟩
    rw [Node.allLexemes_append, Node.allLexemes_cons, Node.lexemes]
    simp
  obtain ⟨h1, h23⟩ := h.append_inv
  obtain ⟨h2, h3⟩ := h23.append_inv
  exact ⟨a, core, b, rfl, hmargin h1 ha, hmargin h3 hb, h2, hfirst, hlast⟩

end Css
end ThemeSheet
