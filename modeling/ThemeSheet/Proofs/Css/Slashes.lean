/-
# Slashes in addresses

A bare address may hold slashes.  Two of them begin a comment unless a colon stands
before, and a slash and an asterisk begin one that is closed further on, also behind
the address.  An address in which neither stands is kept in the short layout, together
with what is kept of its line behind it; another one is cut off where the comment begins.
-/

import ThemeSheet.Proofs.Css.Minify
import ThemeSheet.Proofs.Css.Reflow

namespace ThemeSheet
namespace Css

open Text

/-! ### A stretch and what stands around it -/

/-- Blanks are left out of both texts. -/
theorem withoutBlanks_append (t u : Text) : withoutBlanks (t ++ u) = withoutBlanks t ++ withoutBlanks u :=
  List.filter_append ..

/-- Nothing is left of blanks. -/
theorem withoutBlanks_of_blank {run : Text} (h : ∀ c ∈ run, isBlank c = true) : withoutBlanks run = [] :=
  List.filter_eq_nil_iff.2 fun c hc => by simp [h c hc]

/-- A blank at the beginning is left out. -/
theorem withoutBlanks_cons_of_blank {c : Char} (hc : isBlank c = true) (t : Text) :
    withoutBlanks (c :: t) = withoutBlanks t :=
  List.filter_cons_of_neg (by simp [hc])

/-- Another character at the beginning stays. -/
theorem withoutBlanks_cons_of_not_blank {c : Char} (hc : isBlank c = false) (t : Text) :
    withoutBlanks (c :: t) = c :: withoutBlanks t :=
  List.filter_cons_of_pos (by simp [hc])

/-- The stretch stands in `u`.  Apart from blanks, all of `before` stands in front of it and all of `after`
behind it. -/
def KeptBetween (before stretch after u : Text) : Prop :=
  ∃ front back, u = front ++ stretch ++ back ∧
    withoutBlanks front = withoutBlanks before ∧ withoutBlanks back = withoutBlanks after

section KeptBetween
variable {before before' stretch after u : Text}

/-- A stretch stays between what stood before and behind it, with more in front. -/
theorem KeptBetween.prepend (new : Text) (hnew : withoutBlanks (new ++ before) = withoutBlanks before')
    (h : KeptBetween before stretch after u) : KeptBetween before' stretch after (new ++ u) := by
  obtain ⟨front, back, rfl, hfront, hback⟩ := h
  refine ⟨new ++ front, back, by simp, ?_, hback⟩
  rw [withoutBlanks_append, hfront, ← withoutBlanks_append, hnew]

/-- Another character comes in front. -/
theorem KeptBetween.cons (d : Char) (h : KeptBetween before stretch after u) :
    KeptBetween (d :: before) stretch after (d :: u) :=
  h.prepend [d] rfl

/-- Blanks come in front of the short text only. -/
theorem KeptBetween.put (run : Text) (hrun : ∀ c ∈ run, isBlank c = true)
    (h : KeptBetween before stretch after u) : KeptBetween before stretch after (run ++ u) :=
  h.prepend run (by rw [withoutBlanks_append, withoutBlanks_of_blank hrun, List.nil_append])

/-- A blank comes in front of the long text only. -/
theorem KeptBetween.drop {d : Char} (hd : isBlank d = true) (h : KeptBetween before stretch after u) :
    KeptBetween (d :: before) stretch after u :=
  h.prepend [] (withoutBlanks_cons_of_blank hd before).symm

end KeptBetween

/-! ### Stretches of a line -/

section Tightens
variable {joints : List Char} {p : Char} {before stretch after u : Text}

/-- Behind other characters than joints nothing changes. -/
theorem Tightens.append_of_notMem (hjoints : ∀ d ∈ p :: stretch, d ∉ joints)
    (h : Tightens joints p (stretch ++ after) u) : ∃ q v, u = stretch ++ v ∧ Tightens joints q after v := by
  induction stretch generalizing p u with
  | nil => exact ⟨p, u, rfl, h⟩
  | cons c stretch ih =>
    obtain ⟨hp, hrest⟩ := List.forall_mem_cons.1 hjoints
    obtain ⟨v, rfl, hv⟩ := Tightens.cons_of_notMem hp h
    obtain ⟨q, w, rfl, hw⟩ := ih hrest hv
    exact ⟨q, w, rfl, hw⟩

/-- **A stretch without joints that begins with no blank is kept** when a text is tightened. -/
theorem Tightens.keptBetween (hspace : ' ' ∉ joints) {c : Char} (hc : isBlank c = false)
    (hjoints : ∀ d ∈ c :: stretch, d ∉ joints) (h : Tightens joints p (before ++ c :: (stretch ++ after)) u) :
    KeptBetween before (c :: stretch) after u := by
  induction before generalizing p u with
  | nil =>
    have hstretch : ∀ {v : Text}, Tightens joints c (stretch ++ after) v →
        KeptBetween [] (c :: stretch) after (c :: v) := by
      intro v hv
      obtain ⟨q, back, rfl, hback⟩ := hv.append_of_notMem hjoints
      exact ⟨[], back, rfl, rfl, hback.withoutBlanks_eq⟩
    rcases h.cons_cases hspace with ⟨v, rfl, hv⟩ | ⟨-, v, rfl, hv⟩ | ⟨-, hb, -⟩
    · exact hstretch hv
    · exact (hstretch hv).put [' '] (by decide)
    · exact absurd (hc.symm.trans hb) (by simp)
  | cons d before ih =>
    rcases h.cons_cases hspace with ⟨v, rfl, hv⟩ | ⟨-, v, rfl, hv⟩ | ⟨-, hd, hv⟩
    · exact (ih hv).cons d
    · exact ((ih hv).cons d).put [' '] (by decide)
    · exact (ih hv).drop hd

end Tightens

section Respace
variable {f : Spacing} {before : Option Char} {run : Text}

/-- **A spacing changes nothing but blanks.** -/
theorem withoutBlanks_respaceFrom (hf : f.IsBlank) (hrun : ∀ c ∈ run, isBlank c = true) (t : Text) :
    withoutBlanks (respaceFrom f before run t) = withoutBlanks t := by
  induction t generalizing before run with
  | nil => exact withoutBlanks_of_blank (hf before run none hrun)
  | cons c t ih =>
    cases hc : isBlank c with
    | true =>
      rw [respaceFrom_of_blank hc, ih (List.forall_mem_append.2 ⟨hrun, List.forall_mem_singleton.2 hc⟩),
        withoutBlanks_cons_of_blank hc]
    | false =>
      rw [respaceFrom_of_not_blank hc, withoutBlanks_append, withoutBlanks_of_blank (hf before run _ hrun),
        List.nil_append, withoutBlanks_cons_of_not_blank hc, withoutBlanks_cons_of_not_blank hc,
        ih (List.forall_mem_nil _)]

variable (hf : f.IsBlank) (hjoin : ∀ before run behind, lineEnd? run = none → f before run behind = run)
include hf hjoin

/-- A run that has begun on the line is kept, past the end of the line. -/
theorem respaceFrom_begun (hrun : ∀ more, lineEnd? (run ++ more) = none) (t : Text) :
    ∃ back, respaceFrom f before run t = run ++ back ∧ withoutBlanks back = withoutBlanks t := by
  have hnone : lineEnd? run = none := by simpa using hrun []
  induction t generalizing run with
  | nil => exact ⟨[], by rw [respaceFrom, hjoin _ _ _ hnone, List.append_nil], rfl⟩
  | cons c t ih =>
    cases hc : isBlank c with
    | true =>
      have hmore : ∀ more, lineEnd? (run ++ [c] ++ more) = none := fun more => by
        rw [List.append_assoc]
        exact hrun _
      obtain ⟨back, he, hback⟩ := ih hmore (hrun [c])
      refine ⟨c :: back, by rw [respaceFrom_of_blank hc, he]; simp, ?_⟩
      rw [withoutBlanks_cons_of_blank hc, withoutBlanks_cons_of_blank hc, hback]
    | false =>
      refine ⟨c :: respaceFrom f (some c) [] t, by rw [respaceFrom_of_not_blank hc, hjoin _ _ _ hnone], ?_⟩
      rw [withoutBlanks_cons_of_not_blank hc, withoutBlanks_cons_of_not_blank hc,
        withoutBlanks_respaceFrom hf (List.forall_mem_nil _)]

/-- What stands behind a character on its line is kept. -/
theorem respaceFrom_stretch {p : Char} {stretch : Text} (hfeed : '\n' ∉ run ++ stretch)
    (hreturn : '\r' ∉ run ++ stretch) (after : Text) :
    ∃ back, respaceFrom f (some p) run (stretch ++ after) = run ++ stretch ++ back ∧
      withoutBlanks back = withoutBlanks after := by
  induction stretch generalizing p run with
  | nil =>
    cases run with
    | nil => exact ⟨_, rfl, withoutBlanks_respaceFrom hf (List.forall_mem_nil _) after⟩
    | cons d run =>
      have hbegun : ∀ more, lineEnd? (d :: run ++ more) = none := fun more =>
        lineEnd?_of_ne (List.ne_of_not_mem_cons hfeed).symm (List.ne_of_not_mem_cons hreturn).symm (run ++ more)
      simpa using respaceFrom_begun hf hjoin hbegun after
  | cons c stretch ih =>
    rw [List.append_cons] at hfeed hreturn
    cases hc : isBlank c with
    | true =>
      obtain ⟨back, he, hback⟩ := @ih (run ++ [c]) p hfeed hreturn
      exact ⟨back, by rw [List.cons_append, respaceFrom_of_blank hc, he]; simp, hback⟩
    | false =>
      have hrun : f (some p) run (some c) = run :=
        hjoin _ _ _ (lineEnd?_eq_none (by simp_all) (by simp_all))
      obtain ⟨back, he, hback⟩ := @ih [] c (by simp_all) (by simp_all)
      exact ⟨back, by rw [List.cons_append, respaceFrom_of_not_blank hc, hrun, he]; simp, hback⟩

/-- **A stretch of a line that begins with no blank is kept** by a spacing that leaves runs alone which
begin with no line end. -/
theorem keptBetween_respaceFrom (hrun : ∀ c ∈ run, isBlank c = true) {c : Char} (hc : isBlank c = false)
    {stretch : Text} (hfeed : '\n' ∉ stretch) (hreturn : '\r' ∉ stretch) (gap after : Text) :
    KeptBetween gap (c :: stretch) after (respaceFrom f before run (gap ++ c :: (stretch ++ after))) := by
  induction gap generalizing before run with
  | nil =>
    obtain ⟨back, he, hback⟩ := @respaceFrom_stretch f [] hf hjoin c stretch hfeed hreturn after
    rw [List.nil_append, respaceFrom_of_not_blank hc, he]
    exact ⟨_, back, by simp, withoutBlanks_of_blank (hf before run (some c) hrun), hback⟩
  | cons d gap ih =>
    cases hd : isBlank d with
    | true =>
      rw [List.cons_append, respaceFrom_of_blank hd]
      exact (ih (List.forall_mem_append.2 ⟨hrun, List.forall_mem_singleton.2 hd⟩)).drop hd
    | false =>
      rw [List.cons_append, respaceFrom_of_not_blank hd]
      exact ((ih (List.forall_mem_nil _)).cons d).put _ (hf before run (some d) hrun)

end Respace

/-- **The short layout keeps a stretch of a line** that begins with no blank. -/
theorem keptBetween_minify {t before stretch after : Text} {c : Char} (hc : isBlank c = false)
    (hhead : stretch.head? = some c) (hfeed : '\n' ∉ stretch) (hreturn : '\r' ∉ stretch)
    (h : withoutComments t = before ++ (stretch ++ after)) : KeptBetween before stretch after (minify t) := by
  obtain ⟨stretch, rfl⟩ := List.head?_eq_some_iff.1 hhead
  have hlines := tightens_withoutBlankLines (withoutComments t)
  rw [h] at hlines
  have hjoints : ∀ d ∈ c :: stretch, d ∉ ['\n'] := fun d hd hn => hfeed (by rwa [List.mem_singleton.1 hn] at hd)
  obtain ⟨front, back, he, hfront, hback⟩ := hlines.keptBetween (by decide) hc hjoints
  have hjoined : KeptBetween front (c :: stretch) back (respace joins (front ++ c :: (stretch ++ back))) :=
    keptBetween_respaceFrom isBlank_joins (fun _ _ _ hrun => joins_of_lineEnd?_eq_none hrun _ _)
      (List.forall_mem_nil _) hc (List.not_mem_of_not_mem_cons hfeed) (List.not_mem_of_not_mem_cons hreturn) front back
  obtain ⟨front', back', he', hfront', hback'⟩ := hjoined
  rw [minify_eq_respace, h, he, List.append_assoc]
  exact ⟨front', back', he', hfront'.trans hfront, hback'.trans hback⟩

/-! ### Addresses -/

/-- An address as it may stand between the brackets of `url` without quotes. -/
structure BareAddress where
  chars : Text
  quotes : ∀ c ∈ chars, isQuote c = false
  brackets : ∀ c ∈ chars, c ≠ '(' ∧ c ≠ ')'
  line : ∀ c ∈ chars, c ≠ '\n' ∧ c ≠ '\r'

/-- The address with `url` and the brackets around it. -/
def BareAddress.written (a : BareAddress) : Text := "url(".toList ++ a.chars ++ [')']

/-- A comment begins where `first` of an address has been read and `second` stands in front of the closing
bracket and `rest`; `after` follows the comment. -/
inductive CutsOff (first : Text) : Text → Text → Text → Prop
  /-- Two slashes, with no colon before: the comment takes the rest of the line. -/
  | line {second rest : Text} : first.getLast? ≠ some ':' →
      CutsOff first ('/' :: '/' :: second) rest (rest.dropWhile (· != '\n'))
  /-- A slash and an asterisk: the comment goes on to where the two next stand the other way round, be it far
  behind the address. -/
  | block {second rest inside after : Text} : ¬ "*/".toList <:+: inside →
      second ++ ')' :: rest = "/*".toList ++ inside ++ "*/".toList ++ after → CutsOff first second rest after

/-- A comment begins in the address when `rest` follows it. -/
def BareAddress.IsCut (a : BareAddress) (rest : Text) : Prop :=
  ∃ first second after, a.chars = first ++ second ∧ CutsOff first second rest after

/-- No comment begins in `chars`, read behind `stem` and in front of `second`, the closing bracket and `rest`. -/
def Uncut (stem chars second rest : Text) : Prop :=
  ∀ f g after, chars = f ++ g → g ≠ [] → ¬ CutsOff (stem ++ f) (g ++ second) rest after

/-- The reading of the text for strings and comments gets from the pieces `ps` to `rest`: neither a string nor a
comment reaches into it. -/
def ReadsTo (ps : List Piece) (rest t : Text) : Prop :=
  t = ps.flatMap Piece.chars ++ rest ∧ ps <+: pieces false t

section Shapes
variable {a : BareAddress} {rest : Text}

/-- An address is whole if no asterisk stands behind a slash of it, and another slash only where a colon stands
before. -/
theorem BareAddress.not_isCut (h : ∀ first d second, a.chars = first ++ '/' :: d :: second →
    d ≠ '*' ∧ (d = '/' → first.getLast? = some ':')) : ¬ a.IsCut rest := by
  rintro ⟨first, second, after, he, hcut⟩
  cases hcut with
  | line hcolon => exact hcolon ((h _ _ _ he).2 rfl)
  | block _ hblock =>
    match second with
    | [] => exact absurd (List.cons.inj hblock).1 (by decide)
    | [c] => exact absurd (List.cons.inj (List.cons.inj hblock).2).1 (by decide)
    | c :: d :: second =>
      obtain ⟨rfl, rfl, -⟩ : c = '/' ∧ d = '*' ∧ _ := by simpa using hblock
      exact (h _ _ _ he).1 rfl

/-- **A relative address** is whole unless slashes are doubled in it or one stands before an asterisk. -/
theorem BareAddress.not_isCut_of_relative (hline : ¬ ['/', '/'] <:+: a.chars) (hblock : ¬ ['/', '*'] <:+: a.chars) :
    ¬ a.IsCut rest := by
  refine BareAddress.not_isCut fun first d second he => ⟨?_, ?_⟩
  · rintro rfl
    exact absurd ⟨first, second, by simp [he]⟩ hblock
  · rintro rfl
    exact absurd ⟨first, second, by simp [he]⟩ hline

/-- **An absolute address** is whole under the same condition on what stands behind its first slash. -/
theorem BareAddress.not_isCut_of_absolute {scheme path : Text} (hscheme : '/' ∉ scheme)
    (ha : a.chars = scheme ++ ':' :: '/' :: '/' :: path) (hline : ¬ ['/', '/'] <:+: '/' :: path)
    (hblock : ¬ ['/', '*'] <:+: '/' :: path) : ¬ a.IsCut rest := by
  have hcolon : '/' ∉ scheme ++ [':'] := by simpa using hscheme
  refine BareAddress.not_isCut fun first d second he => ?_
  rw [ha, List.append_cons] at he
  by_cases hfirst : '/' ∈ first
  · -- the slash stands behind the first one
    obtain ⟨f, g, rfl, hf⟩ := List.eq_append_cons_of_mem hfirst
    rw [List.append_assoc f, List.cons_append] at he
    obtain ⟨-, hpath⟩ := append_mark_inj hcolon hf he
    constructor
    · rintro rfl
      exact absurd ⟨g, second, by simp [hpath]⟩ hblock
    · rintro rfl
      exact absurd ⟨g, second, by simp [hpath]⟩ hline
  · obtain ⟨rfl, hpath⟩ := append_mark_inj hcolon hfirst he
    obtain ⟨rfl, -⟩ := List.cons.inj hpath
    exact ⟨by decide, fun _ => List.getLast?_concat⟩

end Shapes

/-! ### Reading an address -/

section Reading
variable {afterColon : Bool} {c : Char} {stem first second rest after : Text}

/-- Behind the first pieces of a text the rest is read. -/
theorem pieces_behind {ps qs : List Piece} (h : pieces afterColon (ps.flatMap Piece.chars ++ rest) = ps ++ qs) :
    ∃ afterColon', qs = pieces afterColon' rest := by
  induction ps generalizing afterColon with
  | nil => exact ⟨afterColon, h.symm⟩
  | cons p ps ih =>
    rw [List.flatMap_cons, List.append_assoc] at h
    cases ht : p.chars ++ (ps.flatMap Piece.chars ++ rest) with
    | nil =>
      rw [ht, pieces] at h
      exact absurd h (List.cons_ne_nil _ _).symm
    | cons c t =>
      rw [ht, pieces] at h
      obtain ⟨hp, hrest⟩ := List.cons.inj h
      have hnext := nextPiece_append afterColon c t
      rw [hp, ← ht] at hnext
      rw [List.append_cancel_left hnext] at hrest
      exact ih hrest

/-- A character that opens neither a string nor a comment is a piece of its own. -/
theorem pieces_plain (hc : isQuote c = false) (h : ¬ OpensComment afterColon c rest) :
    pieces afterColon (c :: rest) = .plain c :: pieces (c = ':') rest := by
  rw [pieces, nextPiece_plain (fun hq => absurd (hc.symm.trans hq) (by simp)) h]
  simp

/-- No comment begins behind an address that has been read whole. -/
theorem not_cutsOff_nil : ¬ CutsOff first [] rest after := by
  intro h
  cases h with
  | block _ h => exact absurd (List.cons.inj h).1 (by decide)

/-- A character at which an address is cut off begins a comment. -/
theorem CutsOff.opensComment (h : CutsOff stem (c :: second) rest after) :
    OpensComment (stem.getLast? = some ':') c (second ++ ')' :: rest) := by
  cases h with
  | line hcolon => exact .inr ⟨decide_eq_false hcolon, rfl, rfl⟩
  | @block _ _ inside _ _ h =>
    obtain ⟨rfl, he⟩ : c = '/' ∧ second ++ ')' :: rest = '*' :: (inside ++ '*' :: '/' :: after) := by simpa using h
    refine opensComment_iff.2 ⟨rfl, .inl ⟨_, he, fun hchain => ?_⟩⟩
    exact (List.isChain_append_cons_cons.1 hchain).2.1 ⟨rfl, rfl⟩

/-- One character more in which no comment begins. -/
theorem Uncut.cons {chars : Text} (hopen : ¬ OpensComment (stem.getLast? = some ':') c (chars ++ second ++ ')' :: rest))
    (h : Uncut (stem ++ [c]) chars second rest) : Uncut stem (c :: chars) second rest := by
  intro f g after he hg hcut
  cases f with
  | nil =>
    obtain rfl : c :: chars = g := he
    rw [List.append_nil] at hcut
    exact hopen hcut.opensComment
  | cons d f =>
    obtain ⟨rfl, hchars⟩ : c = d ∧ chars = f ++ g := List.cons.inj he
    rw [List.append_cons] at hcut
    exact h f g after hchars hg hcut

/-- **A cut is made at the first place.** -/
theorem not_infix_of_cutAt? {needle t before : Text} (hne : needle ≠ [])
    (h : Text.cutAt? needle t = some (before, after)) : ¬ needle <:+: before := by
  induction t generalizing before with
  | nil =>
    rw [Text.cutAt?, if_neg (by simpa using hne)] at h
    exact absurd h (by simp)
  | cons c t ih =>
    rw [Text.cutAt?] at h
    split at h
    · obtain ⟨rfl, -⟩ := Prod.mk.inj (Option.some.inj h)
      exact fun hi => hne (List.infix_nil.1 hi)
    · next hnone =>
      obtain ⟨⟨front, rest⟩, hcut, he⟩ := Option.map_eq_some_iff.1 h
      obtain ⟨rfl, rfl⟩ := Prod.mk.inj he
      intro hi
      rcases List.infix_cons_iff.1 hi with ⟨more, hmore⟩ | hi
      · have hsome : Text.dropPrefix? needle (c :: t) = some (more ++ (needle ++ rest)) :=
          Text.dropPrefix?_eq_some.2 (by rw [← List.append_assoc, hmore, ← cutAt?_append hcut]; simp)
        exact absurd (hnone.symm.trans hsome) (by simp)
      · exact ih hcut hi

/-- **Where a comment begins the address is cut off.** -/
theorem exists_cutsOff (hc : isQuote c = false) (hfeed : '\n' ∉ second)
    (h : OpensComment (stem.getLast? = some ':') c (second ++ ')' :: rest)) :
    ∃ comment after, CutsOff stem (c :: second) rest after ∧
      nextPiece (stem.getLast? = some ':') c (second ++ ')' :: rest) = (.comment comment, after) := by
  cases hblock : blockComment? (c :: (second ++ ')' :: rest)) with
  | some found =>
    obtain ⟨inside, after⟩ := found
    obtain ⟨t, -, hcut⟩ := Option.bind_eq_some_iff.1 hblock
    exact ⟨_, after, .block (not_infix_of_cutAt? (by decide) hcut) (blockComment?_append hblock).symm,
      nextPiece_block hc hblock⟩
  | none =>
    obtain ⟨hcolon, rfl, hslash⟩ := h.resolve_left (by simp [hblock])
    cases second with
    | nil => exact absurd hslash (by simp)
    | cons d second =>
      obtain rfl : d = '/' := Option.some.inj hslash
      -- the address stands on one line, and the comment takes all of it
      have hafter : ('/' :: second ++ ')' :: rest).dropWhile (· != '\n') = rest.dropWhile (· != '\n') := by
        rw [List.append_cons, List.dropWhile_append_of_pos]
        intro e he
        rcases List.mem_append.1 he with he | he
        · exact bne_iff_ne.2 fun hn => hfeed (hn ▸ he)
        · exact (List.mem_singleton.1 he) ▸ by decide
      rw [hcolon, nextPiece_line hblock hslash, hafter]
      exact ⟨_, _, .line (of_decide_eq_false hcolon), rfl⟩

/-- **How the rest of an address is read** behind `stem`: to its end, or up to the first place where it is
cut off. -/
theorem pieces_address {chars : Text} (hquotes : ∀ c ∈ chars, isQuote c = false) (hfeed : '\n' ∉ chars) :
    (Uncut stem chars [] rest ∧ pieces (stem.getLast? = some ':') (chars ++ ')' :: rest) =
      chars.map .plain ++ .plain ')' :: pieces false rest) ∨
    ∃ first second after comment, chars = first ++ second ∧ Uncut stem first second rest ∧
      CutsOff (stem ++ first) second rest after ∧ pieces (stem.getLast? = some ':') (chars ++ ')' :: rest) =
        first.map .plain ++ .comment comment :: pieces false after := by
  have huncut : ∀ stem second, Uncut stem [] second rest := fun _ _ _ _ _ he hg =>
    absurd (List.append_eq_nil_iff.1 he.symm).2 hg
  -- what is read goes over to `stem`: its last character tells whether two slashes begin a comment
  induction chars generalizing stem with
  | nil => exact .inl ⟨huncut stem [], pieces_plain (by decide) (not_opensComment_of_ne (by decide) _)⟩
  | cons c chars ih =>
    obtain ⟨hc, hquotes⟩ := List.forall_mem_cons.1 hquotes
    have hfeed := List.not_mem_of_not_mem_cons hfeed
    by_cases hopen : OpensComment (stem.getLast? = some ':') c (chars ++ ')' :: rest)
    · obtain ⟨comment, after, hcut, hnext⟩ := exists_cutsOff hc hfeed hopen
      refine .inr ⟨[], c :: chars, after, comment, rfl, huncut stem _, by rwa [List.append_nil], ?_⟩
      rw [List.cons_append, pieces, hnext]
      simp
    · have hread : pieces (stem.getLast? = some ':') (c :: chars ++ ')' :: rest) =
          .plain c :: pieces ((stem ++ [c]).getLast? = some ':') (chars ++ ')' :: rest) := by
        rw [List.cons_append, pieces_plain hc hopen, List.getLast?_concat]
        simp
      rcases @ih (stem ++ [c]) hquotes hfeed with
        ⟨hwhole, hkept⟩ | ⟨first, second, after, comment, rfl, hwhole, hcut, hkept⟩
      · exact .inl ⟨hwhole.cons (by rwa [List.append_nil]), by rw [hread, hkept]; rfl⟩
      · exact .inr ⟨c :: first, second, after, comment, rfl, hwhole.cons hopen, by rwa [List.append_cons],
          by rw [hread, hkept]; rfl⟩

end Reading

/-- An address in which no comment begins is not cut off. -/
theorem Uncut.not_isCut {a : BareAddress} {rest : Text} (h : Uncut [] a.chars [] rest) : ¬ a.IsCut rest := by
  rintro ⟨first, second, after, he, hcut⟩
  cases second with
  | nil => exact not_cutsOff_nil hcut
  | cons c second => exact h first (c :: second) after he (List.cons_ne_nil _ _) (by rwa [List.append_nil])

/-- Plain pieces are kept as they are. -/
theorem flatMap_kept_plain (t : Text) : (t.map Piece.plain).flatMap Piece.kept = t := by
  induction t with
  | nil => rfl
  | cons c t ih => exact congrArg (c :: ·) ih

/-- **What is left without comments** of a text that is read up to an address. -/
theorem withoutComments_address {ps : List Piece} {a : BareAddress} {rest t : Text}
    (h : ReadsTo ps (a.written ++ rest) t) :
    (¬ a.IsCut rest ∧ withoutComments t = ps.flatMap Piece.kept ++ (a.written ++ withoutComments rest)) ∨
    ∃ first second after, a.chars = first ++ second ∧ Uncut [] first second rest ∧ CutsOff first second rest after ∧
      withoutComments t = ps.flatMap Piece.kept ++ ("url(".toList ++ first ++ withoutComments after) := by
  obtain ⟨ht, qs, hps⟩ := h
  have hword : a.written ++ rest = 'u' :: 'r' :: 'l' :: '(' :: (a.chars ++ ')' :: rest) := by
    unfold BareAddress.written
    simp
  obtain ⟨afterColon, hqs⟩ := pieces_behind (ht ▸ hps.symm)
  have hread : qs = "url(".toList.map .plain ++ pieces ([].getLast? = some ':') (a.chars ++ ')' :: rest) := by
    have hplain : ∀ {c : Char} (hc : isQuote c = false) (hslash : c ≠ '/') (b : Bool) (t : Text),
        pieces b (c :: t) = .plain c :: pieces (c = ':') t :=
      fun hc hslash _ t => pieces_plain hc (not_opensComment_of_ne hslash t)
    rw [hqs, hword, hplain (by decide) (by decide), hplain (by decide) (by decide), hplain (by decide) (by decide),
      hplain (by decide) (by decide)]
    rfl
  have hkept : withoutComments t = ps.flatMap Piece.kept ++ qs.flatMap Piece.kept := by
    rw [withoutComments, ← hps, List.flatMap_append]
  have hfeed : '\n' ∉ a.chars := fun hn => (a.line _ hn).1 rfl
  rcases @pieces_address [] rest a.chars a.quotes hfeed with
    ⟨hwhole, hall⟩ | ⟨first, second, after, comment, he, hwhole, hcut, hfirst⟩
  · refine .inl ⟨hwhole.not_isCut, ?_⟩
    rw [hkept, hread, hall]
    unfold BareAddress.written
    simp [flatMap_kept_plain, withoutComments, Piece.kept]
  · refine .inr ⟨first, second, after, he, hwhole, hcut, ?_⟩
    rw [hkept, hread, hfirst]
    simp [flatMap_kept_plain, withoutComments, Piece.kept]

/-- **What becomes of an address** that neither a string nor a comment reaches into.  One that is not cut off
stands in the short layout as it is written, and directly behind it what is kept of its line; of one that is cut
off what stands before the first comment is kept, and then comes what is kept behind that comment. -/
theorem minify_address {ps : List Piece} {a : BareAddress} {rest t : Text} (h : ReadsTo ps (a.written ++ rest) t) :
    (¬ a.IsCut rest → ∀ line others, pieces false rest = line ++ others →
      '\n' ∉ line.flatMap Piece.kept → '\r' ∉ line.flatMap Piece.kept →
      KeptBetween (ps.flatMap Piece.kept) (a.written ++ line.flatMap Piece.kept) (others.flatMap Piece.kept)
        (minify t)) ∧
    (a.IsCut rest → ∃ first second after,
      a.chars = first ++ second ∧ Uncut [] first second rest ∧ CutsOff first second rest after ∧
      KeptBetween (ps.flatMap Piece.kept) ("url(".toList ++ first) (withoutComments after) (minify t)) := by
  have hu : isBlank 'u' = false := by decide
  rcases withoutComments_address h with ⟨hcut, ht⟩ | ⟨first, second, after, he, hwhole, hcut, ht⟩
  · refine ⟨fun _ line others hrest hfeed hreturn => ?_, fun h => absurd h hcut⟩
    have hkept : withoutComments rest = line.flatMap Piece.kept ++ others.flatMap Piece.kept := by
      rw [withoutComments, hrest, List.flatMap_append]
    rw [hkept, ← List.append_assoc a.written] at ht
    refine keptBetween_minify hu rfl ?_ ?_ ht
    · unfold BareAddress.written
      simp [hfeed, show '\n' ∉ a.chars from fun hn => (a.line _ hn).1 rfl]
    · unfold BareAddress.written
      simp [hreturn, show '\r' ∉ a.chars from fun hr => (a.line _ hr).2 rfl]
  · refine ⟨fun h => absurd ⟨first, second, after, he, hcut⟩ h, fun _ =>
      ⟨first, second, after, he, hwhole, hcut, ?_⟩⟩
    have hfirst : ∀ c ∈ first, c ≠ '\n' ∧ c ≠ '\r' := fun c hc => a.line c (he ▸ List.mem_append_left _ hc)
    refine keptBetween_minify hu rfl ?_ ?_ ht
    · simp [show '\n' ∉ first from fun hn => (hfirst _ hn).1 rfl]
    · simp [show '\r' ∉ first from fun hr => (hfirst _ hr).2 rfl]

/-- An absolute address with a semicolon behind it, in a rule over three lines and before a comment. -/
theorem minify_address_absolute :
    KeptBetween "a \x7b\n  b: ".toList "url(http://c.d/e);".toList "\n\x7d\n\n".toList
      (minify "a \x7b\n  b: url(http://c.d/e);\n\x7d\n// f\n".toList) := by
  let a : BareAddress := ⟨"http://c.d/e".toList, by decide, by decide, by decide⟩
  let ps : List Piece := "a \x7b\n  b: ".toList.map .plain
  have hrest : pieces false ";\n\x7d\n// f\n".toList = [.plain ';'] ++
      [.plain '\n', .plain '\x7d', .plain '\n', .comment "// f".toList, .plain '\n'] := by
    simp [pieces, nextPiece, blockComment?, dropPrefix?]
  have hreads : ReadsTo ps (a.written ++ ";\n\x7d\n// f\n".toList)
      "a \x7b\n  b: url(http://c.d/e);\n\x7d\n// f\n".toList := by
    refine ⟨by decide, ?_⟩
    simp [ps, pieces, nextPiece, blockComment?, dropPrefix?]
  have hwhole : ¬ a.IsCut ";\n\x7d\n// f\n".toList :=
    @BareAddress.not_isCut_of_absolute a _ "http".toList "c.d/e".toList (by decide) rfl (by decide) (by decide)
  exact (minify_address hreads).1 hwhole _ _ hrest (by decide) (by decide)

/-- A comment that begins in one address and ends in another. -/
example : minify "a\x7bb:url(c/*d);\ne:url(f*/g);\x7d".toList = "a\x7bb:url(cg);\x7d".toList := by cbv

/-- An address without a scheme begins with two slashes and no colon: a comment takes it and its line. -/
theorem not_forall_address_kept : ¬ ∀ (ps : List Piece) (a : BareAddress) (rest t : Text),
    (∀ c ∈ a.chars, isBlank c = false) → ReadsTo ps (a.written ++ rest) t → a.written <:+: minify t := by
  intro h
  have hkept := h ("a\x7bbackground:".toList.map .plain)
    ⟨"//example.com/x.png".toList, by decide, by decide, by decide⟩ "\x7d".toList
    "a\x7bbackground:url(//example.com/x.png)\x7d".toList (by decide) ⟨by decide, by
      simp [pieces, nextPiece, blockComment?, dropPrefix?]⟩
  exact absurd hkept (by decide +kernel)

end Css
end ThemeSheet
