/-
# Reading past strings and comments

What the reading into pieces leaves of a text whose quotes all stand in strings or
comments.  Where no colon and slash stand in front of a comment, the characters that
come together when comments are gone open no comment: what is left is bare, and
nothing goes when it is read again.
-/

import Mathlib.Data.List.Chain
import ThemeSheet.Css.Minify
import ThemeSheet.Text.Word

namespace ThemeSheet
namespace Css

/-- A quote differs from what is none. -/
theorem ne_of_isQuote {c d : Char} (hc : isQuote c = true) (hd : isQuote d = false) : c ≠ d := by
  rintro rfl
  exact absurd (hc.symm.trans hd) (by simp)

/-! ### Strings -/

/-- A string behind its opening quote, up to and with the closing one. -/
inductive Closing (quote : Char) : Text → Prop
  | quote : Closing quote [quote]
  | escape {c : Char} {cs : Text} : c ≠ '\n' → Closing quote cs → Closing quote ('\\' :: c :: cs)
  | plain {c : Char} {cs : Text} : c ≠ quote → c ≠ '\\' → c ≠ '\n' → Closing quote cs → Closing quote (c :: cs)

/-- A string behind its opening quote ends with the closing one. -/
theorem Closing.exists_concat {quote : Char} {cs : Text} (h : Closing quote cs) : ∃ front, cs = front ++ [quote] := by
  induction h with
  | quote => exact ⟨[], rfl⟩
  | @escape c _ _ _ ih =>
    obtain ⟨front, rfl⟩ := ih
    exact ⟨'\\' :: c :: front, rfl⟩
  | @plain c _ _ _ _ _ ih =>
    obtain ⟨front, rfl⟩ := ih
    exact ⟨c :: front, rfl⟩

/-- The next character of a string that is no backslash closes it, breaks it off or belongs to it. -/
theorem quotedTail?_cons {quote c : Char} (hc : c ≠ '\\') (t : Text) :
    quotedTail? quote (c :: t) =
      if c = quote then some ([c], t)
      else if c = '\n' then none else (quotedTail? quote t).map fun (cs, rest) => (c :: cs, rest) := by
  rw [quotedTail?]
  · simp only [hc, false_or]
  · exact fun _ _ h _ => hc h

/-- **What the reading of a string behind its opening quote gives.** -/
theorem quotedTail?_iff {quote : Char} (hquote : quote ≠ '\\') {t cs rest : Text} :
    quotedTail? quote t = some (cs, rest) ↔ Closing quote cs ∧ t = cs ++ rest := by
  constructor
  · intro h
    refine ⟨?_, (quotedTail?_append h).symm⟩
    fun_induction quotedTail? quote t generalizing cs rest with
    | case1 => exact absurd h (by simp)
    | case2 => exact absurd h (by simp)
    | case3 c t hc ih =>
      obtain ⟨⟨ds, r⟩, hd, he⟩ := Option.map_eq_some_iff.1 h
      obtain ⟨rfl, rfl⟩ := Prod.mk.inj he
      exact .escape hc (ih hd)
    | case4 c t =>
      obtain ⟨rfl, rfl⟩ := Prod.mk.inj (Option.some.inj h)
      exact .quote
    | case5 => exact absurd h (by simp)
    | case6 c t _ hq hc ih =>
      obtain ⟨⟨ds, r⟩, hd, he⟩ := Option.map_eq_some_iff.1 h
      obtain ⟨rfl, rfl⟩ := Prod.mk.inj he
      obtain ⟨hslash, hfeed⟩ := not_or.1 hc
      exact .plain hq hslash hfeed (ih hd)
  · rintro ⟨h, rfl⟩
    induction h with
    | quote => rw [List.cons_append, quotedTail?_cons hquote, if_pos rfl]; rfl
    | escape hc _ ih => rw [List.cons_append, List.cons_append, quotedTail?, if_neg hc, ih]; rfl
    | plain hq hslash hfeed _ ih =>
      rw [List.cons_append, quotedTail?_cons hslash, if_neg hq, if_neg hfeed, ih]; rfl

/-! ### Comments -/

/-- No comment ends between the two characters. -/
def Apart (a b : Char) : Prop := ¬ (a = '*' ∧ b = '/')

/-- No comment ends behind another character than an asterisk. -/
theorem Apart.of_left {a : Char} (h : a ≠ '*') (b : Char) : Apart a b := fun hab => h hab.1

/-- No comment ends before another character than a slash. -/
theorem Apart.of_right {b : Char} (h : b ≠ '/') (a : Char) : Apart a b := fun hab => h hab.2

/-- No comment begins where a slash and an asterisk do not come first. -/
theorem blockComment?_of_head? {c : Char} {t : Text} (h : ¬ (c = '/' ∧ t.head? = some '*')) :
    blockComment? (c :: t) = none := by
  cases hb : blockComment? (c :: t) with
  | none => rfl
  | some x =>
    obtain ⟨inside, rest⟩ := x
    have he : '/' :: '*' :: (inside ++ ['*', '/'] ++ rest) = c :: t := by simpa using blockComment?_append hb
    obtain ⟨rfl, rfl⟩ := List.cons.inj he
    exact absurd ⟨rfl, rfl⟩ h

/-- A text holds no end of a comment exactly if no two neighbours make one. -/
theorem cutAt?_close_eq_none_iff {t : Text} : Text.cutAt? ['*', '/'] t = none ↔ t.IsChain Apart := by
  induction t with
  | nil => exact ⟨fun _ => .nil, fun _ => rfl⟩
  | cons c t ih =>
    cases hd : Text.dropPrefix? ['*', '/'] (c :: t) with
    | some rest =>
      have he : c :: t = '*' :: '/' :: rest := Text.dropPrefix?_eq_some.1 hd
      rw [Text.cutAt?, hd, he, List.isChain_cons_cons]
      exact ⟨fun h => absurd h (by simp), fun h => absurd ⟨rfl, rfl⟩ h.1⟩
    | none =>
      have hapart : ∀ d ∈ t.head?, Apart c d := by
        rintro d hdt ⟨rfl, rfl⟩
        obtain ⟨s, rfl⟩ := List.head?_eq_some_iff.1 hdt
        exact absurd hd (by simp [Text.dropPrefix?])
      rw [Text.cutAt?, hd, List.isChain_cons, ← ih, Option.map_eq_none_iff]
      exact (and_iff_right hapart).symm

/-- **A comment that is opened is not closed** exactly if no asterisk has a slash behind it. -/
theorem blockComment?_eq_none_iff {t : Text} : blockComment? ('/' :: '*' :: t) = none ↔ t.IsChain Apart :=
  cutAt?_close_eq_none_iff

/-- A comment begins with `c` in front of the text. -/
def OpensComment (afterColon : Bool) (c : Char) (t : Text) : Prop :=
  (blockComment? (c :: t)).isSome ∨ afterColon = false ∧ c = '/' ∧ t.head? = some '/'

/-- **Where a comment begins**: at a slash, in front of an asterisk if the comment is closed further on, and in
front of another slash unless a colon stands before. -/
theorem opensComment_iff {afterColon : Bool} {c : Char} {t : Text} : OpensComment afterColon c t ↔
    c = '/' ∧ ((∃ s, t = '*' :: s ∧ ¬ s.IsChain Apart) ∨ afterColon = false ∧ t.head? = some '/') := by
  have hblock : (blockComment? (c :: t)).isSome ↔ c = '/' ∧ ∃ s, t = '*' :: s ∧ ¬ s.IsChain Apart := by
    constructor
    · intro hb
      obtain ⟨rfl, ht⟩ : c = '/' ∧ t.head? = some '*' := by
        by_contra hne
        rw [blockComment?_of_head? hne] at hb
        exact absurd hb (by simp)
      obtain ⟨s, rfl⟩ := List.head?_eq_some_iff.1 ht
      refine ⟨rfl, s, rfl, fun hs => ?_⟩
      rw [blockComment?_eq_none_iff.2 hs] at hb
      exact absurd hb (by simp)
    · rintro ⟨rfl, s, rfl, hs⟩
      exact Option.isSome_iff_ne_none.2 fun hb => hs (blockComment?_eq_none_iff.1 hb)
  rw [OpensComment, hblock, and_or_left, and_left_comm]

/-- No comment begins with another character than a slash. -/
theorem not_opensComment_of_ne {afterColon : Bool} {c : Char} (hc : c ≠ '/') (t : Text) :
    ¬ OpensComment afterColon c t := fun h => hc (opensComment_iff.1 h).1

/-! ### Pieces -/

section Pieces
variable {afterColon : Bool} {c : Char} {t cs inside rest : Text}

/-- A quote with a string behind it is the piece of this string. -/
theorem nextPiece_quoted (hc : isQuote c = true) (h : quotedTail? c t = some (cs, rest)) :
    nextPiece afterColon c t = (.quoted (c :: cs), rest) := by
  rw [nextPiece, if_pos (isQuote_iff.1 hc), h]

/-- The beginning of a comment with its end behind it is the piece of this comment. -/
theorem nextPiece_block (hc : isQuote c = false) (h : blockComment? (c :: t) = some (inside, rest)) :
    nextPiece afterColon c t = (.comment ("/*".toList ++ inside ++ "*/".toList), rest) := by
  rw [nextPiece, if_neg fun hq => by simp [isQuote_iff.2 hq] at hc, h]

/-- Two slashes, not behind a colon, are a comment up to the end of the line. -/
theorem nextPiece_line (h : blockComment? ('/' :: t) = none) (ht : t.head? = some '/') :
    nextPiece false '/' t = (.comment ('/' :: t.takeWhile (· != '\n')), t.dropWhile (· != '\n')) := by
  rw [nextPiece, if_neg (by decide), h]
  exact if_pos ⟨rfl, rfl, ht⟩

/-- A character that opens neither a string nor a comment is a piece of its own. -/
theorem nextPiece_plain (hc : isQuote c = true → quotedTail? c t = none) (h : ¬ OpensComment afterColon c t) :
    nextPiece afterColon c t = (.plain c, t) := by
  obtain ⟨hblock, hline⟩ := not_or.1 h
  have hq : (if c = '"' ∨ c = '\'' then quotedTail? c t else none) = none := by
    split
    · next hq => exact hc (isQuote_iff.2 hq)
    · rfl
  rw [nextPiece, hq, Option.not_isSome_iff_eq_none.1 hblock]
  exact if_neg hline

end Pieces

/-- What the reading leaves of a text in which every quote stands in a string or a comment. -/
inductive Leaves : Bool → Text → Text → Prop
  | nil {afterColon : Bool} : Leaves afterColon [] []
  | quoted {afterColon : Bool} {q : Char} {cs rest u : Text} : isQuote q = true → Closing q cs →
      Leaves false rest u → Leaves afterColon (q :: (cs ++ rest)) (q :: (cs ++ u))
  | block {afterColon : Bool} {t inside rest u : Text} : blockComment? t = some (inside, rest) →
      Leaves false rest u → Leaves afterColon t u
  | line {t u : Text} : Leaves false (t.dropWhile (· != '\n')) u → Leaves false ('/' :: '/' :: t) u
  | plain {afterColon : Bool} {c : Char} {t u : Text} : isQuote c = false → ¬ OpensComment afterColon c t →
      Leaves (c = ':') t u → Leaves afterColon (c :: t) (c :: u)

/-- **The reading into pieces leaves what it keeps.** -/
theorem leaves_pieces {afterColon : Bool} {t : Text}
    (hquotes : ∀ c, Piece.plain c ∈ pieces afterColon t → isQuote c = false) :
    Leaves afterColon t ((pieces afterColon t).flatMap Piece.kept) := by
  fun_induction pieces afterColon t with
  | case1 => exact .nil
  | case2 afterColon c t ih =>
    rw [List.flatMap_cons]
    cases hq : isQuote c with
    | true =>
      cases htail : quotedTail? c t with
      | none =>
        rw [nextPiece_plain (fun _ => htail) (not_opensComment_of_ne (ne_of_isQuote hq (by rfl)) t)] at hquotes
        exact absurd (hquotes c (List.mem_cons_self ..)) (by simp [hq])
      | some x =>
        obtain ⟨cs, rest⟩ := x
        obtain ⟨hcs, rfl⟩ := (quotedTail?_iff (ne_of_isQuote hq (by rfl))).1 htail
        rw [nextPiece_quoted hq htail] at hquotes ih ⊢
        exact .quoted hq hcs (ih fun d hd => hquotes d (List.mem_cons_of_mem _ hd))
    | false =>
      cases hb : blockComment? (c :: t) with
      | some x =>
        obtain ⟨inside, rest⟩ := x
        rw [nextPiece_block hq hb] at hquotes ih ⊢
        exact .block hb (ih fun d hd => hquotes d (List.mem_cons_of_mem _ hd))
      | none =>
        by_cases hline : afterColon = false ∧ c = '/' ∧ t.head? = some '/'
        · obtain ⟨rfl, rfl, ht⟩ := hline
          obtain ⟨t, rfl⟩ := List.head?_eq_some_iff.1 ht
          rw [nextPiece_line hb ht, List.dropWhile_cons_of_pos (by decide)] at hquotes ih ⊢
          exact .line (ih fun d hd => hquotes d (List.mem_cons_of_mem _ hd))
        · have hopen : ¬ OpensComment afterColon c t := not_or.2 ⟨by simp [hb], hline⟩
          rw [nextPiece_plain (fun h => absurd (hq.symm.trans h) (by simp)) hopen] at hquotes ih ⊢
          have ih := ih fun d hd => hquotes d (List.mem_cons_of_mem _ hd)
          exact .plain hq hopen (by simpa using ih)

/-! ### Bare texts -/

/-- A text without comments in which every quote stands in a string. -/
inductive Bare : Bool → Text → Prop
  | nil {afterColon : Bool} : Bare afterColon []
  | quoted {afterColon : Bool} {q : Char} {cs rest : Text} : isQuote q = true → Closing q cs →
      Bare false rest → Bare afterColon (q :: (cs ++ rest))
  | plain {afterColon : Bool} {c : Char} {t : Text} : isQuote c = false → ¬ OpensComment afterColon c t →
      Bare (c = ':') t → Bare afterColon (c :: t)

/-- **A bare text is kept.** -/
theorem Bare.kept_eq {afterColon : Bool} {t : Text} (h : Bare afterColon t) :
    (pieces afterColon t).flatMap Piece.kept = t := by
  induction h with
  | nil => rw [pieces, List.flatMap_nil]
  | @quoted _ q cs rest hq hcs _ ih =>
    have htail : quotedTail? q (cs ++ rest) = some (cs, rest) :=
      (quotedTail?_iff (ne_of_isQuote hq (by rfl))).2 ⟨hcs, rfl⟩
    rw [pieces, nextPiece_quoted hq htail, List.flatMap_cons, decide_eq_false (by simp), ih]
    rfl
  | plain hc hopen _ ih =>
    rw [pieces, nextPiece_plain (fun h => absurd (hc.symm.trans h) (by simp)) hopen, List.flatMap_cons]
    simpa [Piece.kept] using ih

/-- A text without comments stays as it is. -/
theorem withoutComments_of_bare {t : Text} (h : Bare false t) : withoutComments t = t := h.kept_eq

/-! ### What comes together when comments are gone -/

section Leaves
variable {afterColon : Bool} {t u : Text}

/-- The rest of a line comment is empty or begins with a line feed. -/
theorem head?_dropWhile_line (t : Text) : ∀ c ∈ (t.dropWhile (· != '\n')).head?, c = '\n' := by
  induction t with
  | nil => exact fun c hc => absurd hc (by simp)
  | cons d t ih =>
    by_cases hd : d = '\n'
    · rw [List.dropWhile_cons_of_neg (by simp [hd]), hd]
      exact fun c hc => (Option.some.inj hc).symm
    · rwa [List.dropWhile_cons_of_pos (by simpa using hd)]

/-- A text that does not begin with a slash and what is left of it begin alike. -/
theorem Leaves.head?_of_ne (h : Leaves afterColon t u) (ht : t.head? ≠ some '/') : u.head? = t.head? := by
  cases h with
  | nil => rfl
  | quoted => rfl
  | block hb =>
    rw [← blockComment?_append hb] at ht
    exact absurd rfl ht
  | line => exact absurd rfl ht
  | plain => rfl

/-- What is left begins as the text does, or with the end of a line. -/
theorem Leaves.head?_eq (h : Leaves afterColon t u) (ht : ¬ "/*".toList <+: t) :
    u.head? = t.head? ∨ ∀ c ∈ u.head?, c = '\n' := by
  cases h with
  | nil => exact .inl rfl
  | quoted => exact .inl rfl
  | block hb =>
    rw [← blockComment?_append hb] at ht
    exact absurd ⟨_, by rw [List.append_assoc, List.append_assoc]⟩ ht
  | line hrest =>
    have hline := head?_dropWhile_line
    rename_i t
    right
    rw [hrest.head?_of_ne fun h => absurd (hline t _ h) (by decide)]
    exact hline t
  | plain => exact .inl rfl

/-- **No comment is closed by what is left** of a text that closes none. -/
theorem Leaves.isChain (h : Leaves afterColon t u) {p : Char} (ht : (p :: t).IsChain Apart) :
    (p :: u).IsChain Apart := by
  induction h generalizing p with
  | nil => exact ht
  | @quoted _ q cs rest u hq hcs _ ih =>
    obtain ⟨front, rfl⟩ := hcs.exists_concat
    have hsplit : ∀ s : Text, p :: q :: (front ++ [q] ++ s) = (p :: q :: front) ++ q :: s := by simp
    rw [hsplit, List.isChain_split] at ht ⊢
    exact ⟨ht.1, ih ht.2⟩
  | @block _ t inside rest u hb _ _ =>
    have hsplit : p :: t = (p :: "/*".toList ++ inside) ++ '*' :: '/' :: rest := by
      rw [← blockComment?_append hb]; simp
    rw [hsplit, List.isChain_append_cons_cons] at ht
    exact absurd ⟨rfl, rfl⟩ ht.2.1
  | @line t u _ ih =>
    refine ih (List.isChain_cons.2 ⟨fun c hc => ?_, ?_⟩)
    · exact .of_right (by rw [head?_dropWhile_line t c hc]; decide) p
    · exact ht.suffix ((List.dropWhile_suffix _).trans ⟨[p, '/', '/'], rfl⟩)
  | plain _ _ _ ih =>
    rw [List.isChain_cons_cons] at ht ⊢
    exact ⟨ht.1, ih ht.2⟩

/-- **A character that opens no comment opens none in front of what is left** behind it. -/
theorem Leaves.not_opensComment {c : Char} (h : Leaves (c = ':') t u) (hopen : ¬ OpensComment afterColon c t)
    (hbegin : afterColon = true → ¬ "//*".toList <+: c :: t) {afterColon' : Bool}
    (hcolon : afterColon = true → afterColon' = true) : ¬ OpensComment afterColon' c u := by
  rw [opensComment_iff] at hopen ⊢
  rintro ⟨rfl, hu⟩
  have hfront : ¬ "/*".toList <+: t := by
    rintro ⟨s, rfl⟩
    cases afterColon with
    | true => exact hbegin rfl ⟨s, rfl⟩
    | false => exact hopen ⟨rfl, .inr ⟨rfl, rfl⟩⟩
  -- What has come up behind the slash stood there before.
  have hhead : ∀ d, u.head? = some d → d ≠ '\n' → t.head? = some d := by
    intro d hd hfeed
    rcases h.head?_eq hfront with he | he
    · exact he.symm.trans hd
    · exact absurd (he d hd) hfeed
  rcases hu with ⟨s, rfl, hs⟩ | ⟨hac, hu⟩
  · obtain ⟨t, rfl⟩ := List.head?_eq_some_iff.1 (hhead '*' rfl (by decide))
    have hchain : t.IsChain Apart := by
      by_contra hn
      exact hopen ⟨rfl, .inl ⟨t, rfl, hn⟩⟩
    cases h with
    | quoted hq => exact absurd hq (by decide)
    | block hb => rw [blockComment?_of_head? (by simp)] at hb; exact absurd hb (by simp)
    | plain _ _ hrest =>
      -- A space before the text keeps asterisk and slash apart.
      have hspace : (' ' :: t).IsChain Apart := List.isChain_cons.2 ⟨fun d _ => .of_left (by decide) d, hchain⟩
      exact hs (List.isChain_cons.1 (hrest.isChain hspace)).2
  · refine hopen ⟨rfl, .inr ⟨?_, hhead '/' hu (by decide)⟩⟩
    cases afterColon with
    | true => exact absurd (hcolon rfl) (by simp [hac])
    | false => rfl

/-- **What is left is bare** where no colon and slash stand in front of a comment. -/
theorem Leaves.bare (h : Leaves afterColon t u) {afterColon' : Bool} (hcolon : afterColon = true → afterColon' = true)
    (hbegin : afterColon = true → ¬ "//*".toList <+: t) (hslashes : ¬ "://*".toList <:+: t) :
    Bare afterColon' u := by
  induction h generalizing afterColon' with
  | nil => exact .nil
  | @quoted _ q cs rest _ hq hcs _ ih =>
    have hrest : rest <:+ q :: (cs ++ rest) := ⟨q :: cs, rfl⟩
    exact .quoted hq hcs (ih (by simp) (by simp) fun hi => hslashes (hi.trans hrest.isInfix))
  | @block _ t _ rest _ hb _ ih =>
    have hrest : rest <:+ t := ⟨_, blockComment?_append hb⟩
    exact ih (by simp) (by simp) fun hi => hslashes (hi.trans hrest.isInfix)
  | @line t _ _ ih =>
    have hrest : t.dropWhile (· != '\n') <:+ '/' :: '/' :: t := (List.dropWhile_suffix _).trans ⟨['/', '/'], rfl⟩
    exact ih (by simp) (by simp) fun hi => hslashes (hi.trans hrest.isInfix)
  | @plain afterColon c t u hc hopen hrest ih =>
    have hnext : decide (c = ':') = true → ¬ "//*".toList <+: t := by
      rintro hc ⟨s, rfl⟩
      exact hslashes ⟨[], s, by rw [of_decide_eq_true hc]; rfl⟩
    exact .plain hc (hrest.not_opensComment hopen hbegin hcolon)
      (ih id hnext fun hi => hslashes (hi.trans (List.suffix_cons c t).isInfix))

/-- **A text without its comments is bare** if its quotes stand in strings and comments and no colon and
slash stand in front of a comment. -/
theorem bare_withoutComments {t : Text} (hquotes : ∀ c, Piece.plain c ∈ pieces false t → isQuote c = false)
    (hslashes : ¬ "://*".toList <:+: t) : Bare false (withoutComments t) :=
  (leaves_pieces hquotes).bare (by simp) (by simp) hslashes

end Leaves

end Css
end ThemeSheet
