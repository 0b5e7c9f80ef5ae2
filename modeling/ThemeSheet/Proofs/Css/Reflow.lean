/-
# What the short layout keeps

The short layout takes out comments, and apart from them nothing but blanks.  The
blanks that go or change stand in runs with the end of a line among them.  No string
holds one, and its quotes end the runs around it: so every string outside comments
stands in the short layout as it stood in the text, and the strings keep their order.
-/

import ThemeSheet.Proofs.Css.Layout
import ThemeSheet.Proofs.Css.Scan
import ThemeSheet.Proofs.Text.InOrder

namespace ThemeSheet
namespace Css

open Text

/-! ### All but blanks -/

/-- The text without its blanks. -/
def withoutBlanks (t : Text) : Text := t.filter fun c => !isBlank c

/-- **Tightening changes nothing but blanks.** -/
theorem Tightens.withoutBlanks_eq {joints : List Char} {p : Char} {t u : Text} (h : Tightens joints p t u) :
    withoutBlanks u = withoutBlanks t := by
  induction h with
  | nil => rfl
  | @keep p c t u _ ih =>
    rw [withoutBlanks, withoutBlanks, List.filter_cons, List.filter_cons]
    split
    · exact congrArg (c :: ·) ih
    · exact ih
  | drop _ hc _ ih => rwa [withoutBlanks, withoutBlanks, List.filter_cons_of_neg (by simp [hc])]
  | put _ _ ih => rwa [withoutBlanks, List.filter_cons_of_neg (by decide)]

/-- But for blanks, minifying leaves out comments only. -/
theorem withoutBlanks_minify (t : Text) : withoutBlanks (minify t) = withoutBlanks (withoutComments t) := by
  rw [minify_eq_respace, (tightens_respace joins_cases _).withoutBlanks_eq,
    (tightens_withoutBlankLines _).withoutBlanks_eq]

/-! ### Words on a line -/

/-- A text on one line with a character that is no blank at either end. -/
def IsLineWord (w : Text) : Prop :=
  ∃ c v d, w = c :: (v ++ [d]) ∧ isBlank c = false ∧ isBlank d = false ∧ '\n' ∉ w ∧ '\r' ∉ w

/-- The spacing leaves runs alone in which no line ends. -/
def KeepsLines (f : Spacing) : Prop :=
  ∀ before run behind, '\n' ∉ run → '\r' ∉ run → f before run behind = run

section Words
variable {f : Spacing} {before : Option Char} {run t w : Text} {ws : List Text}

/-- No line ends in a run without line feeds and carriage returns. -/
theorem lineEnd?_eq_none (hfeed : '\n' ∉ run) (hreturn : '\r' ∉ run) : lineEnd? run = none := by
  cases run with
  | nil => rfl
  | cons c run =>
    exact lineEnd?_of_ne (List.ne_of_not_mem_cons hfeed).symm (List.ne_of_not_mem_cons hreturn).symm run

/-- The spacing of joined lines ends no line of its own. -/
theorem keepsLines_joins : KeepsLines joins := fun before _ after hfeed hreturn =>
  joins_of_lineEnd?_eq_none (lineEnd?_eq_none hfeed hreturn) before after

/-- A text in front of another one leaves the run before that one to be closed. -/
theorem exists_respaceFrom_append (gap t : Text) : ∃ front before' run',
    respaceFrom f before run (gap ++ t) = front ++ respaceFrom f before' run' t := by
  induction gap generalizing before run with
  | nil => exact ⟨[], before, run, rfl⟩
  | cons c gap ih =>
    cases hc : isBlank c with
    | true =>
      rw [List.cons_append, respaceFrom_of_blank hc]
      exact ih
    | false =>
      obtain ⟨front, before', run', hgap⟩ := @ih (some c) []
      exact ⟨f before run (some c) ++ c :: front, before', run', by
        rw [List.cons_append, respaceFrom_of_not_blank hc, hgap]; simp⟩

/-- Behind a character that is no blank the line is kept up to the next such character. -/
theorem respaceFrom_line (hf : KeepsLines f) {p d : Char} (hd : isBlank d = false) {v : Text}
    (hfeed : '\n' ∉ run ++ v) (hreturn : '\r' ∉ run ++ v) :
    respaceFrom f (some p) run (v ++ d :: t) = run ++ v ++ d :: respaceFrom f (some d) [] t := by
  induction v generalizing p run with
  | nil =>
    rw [List.append_nil] at hfeed hreturn
    rw [List.nil_append, respaceFrom_of_not_blank hd, hf _ _ _ hfeed hreturn, List.append_nil]
  | cons c v ih =>
    rw [List.append_cons] at hfeed hreturn
    cases hc : isBlank c with
    | true =>
      rw [List.cons_append, respaceFrom_of_blank hc, ih hfeed hreturn]
      simp
    | false =>
      have hrun : f (some p) run (some c) = run :=
        hf _ _ _ (fun h => hfeed (by simp [h])) fun h => hreturn (by simp [h])
      have hv := @ih [] c (fun h => hfeed (by simp_all)) fun h => hreturn (by simp_all)
      rw [List.cons_append, respaceFrom_of_not_blank hc, hrun, hv]
      simp

/-- **Words on a line stay in their order** when other runs of blanks change. -/
theorem inOrder_respaceFrom (hf : KeepsLines f) (hws : ∀ w ∈ ws, IsLineWord w) (h : InOrder ws t) :
    InOrder ws (respaceFrom f before run t) := by
  induction h generalizing before run with
  | nil => exact .nil _
  | @cons w t ws gap _ ih =>
    obtain ⟨⟨c, v, d, rfl, hc, hd, hfeed, hreturn⟩, hrest⟩ := List.forall_mem_cons.1 hws
    obtain ⟨front, before', run', hgap⟩ := @exists_respaceFrom_append f before run gap (c :: (v ++ [d]) ++ t)
    have hword : respaceFrom f before' run' (c :: (v ++ [d]) ++ t) =
        f before' run' (some c) ++ (c :: (v ++ [d]) ++ respaceFrom f (some d) [] t) := by
      have hv : respaceFrom f (some c) [] (v ++ d :: t) = [] ++ v ++ d :: respaceFrom f (some d) [] t :=
        respaceFrom_line hf hd (fun h => hfeed (by simp_all)) fun h => hreturn (by simp_all)
      rw [List.cons_append, respaceFrom_of_not_blank hc, List.append_assoc, List.singleton_append, hv]
      simp
    rw [List.append_assoc gap, hgap, hword, ← List.append_assoc, ← List.append_assoc]
    exact .cons _ (ih hrest)

/-- **Words stay in their order** when blank lines go. -/
theorem inOrder_withoutBlankLines (hws : ∀ w ∈ ws, IsLineWord w) (h : InOrder ws t) :
    InOrder ws (withoutBlankLines t) := by
  suffices hjoin : ∀ ls, InOrder ws (join ['\n'] ls) → InOrder ws (join ['\n'] (dropBlank ls)) by
    refine hjoin (lines t) ?_
    rwa [lines, join_splitOn]
  clear h
  intro ls h
  have hfeed {us : List Text} (hus : ∀ w ∈ us, IsLineWord w) : ∀ w ∈ us, '\n' ∉ w := fun w hw => by
    obtain ⟨_, _, _, -, -, -, hfeed, -⟩ := hus w hw
    exact hfeed
  fun_induction dropBlank ls generalizing ws with
  | case1 => exact h
  | case2 line => exact h
  | case3 line next ls hb ih =>
    rw [join_lines line (by simp)] at h
    obtain ⟨us, vs, rfl, hus, hvs⟩ := h.split (hfeed hws)
    obtain ⟨hline, hrest⟩ := List.forall_mem_append.1 hws
    -- no word stands on the blank line
    obtain rfl : us = [] := by
      refine List.eq_nil_iff_forall_not_mem.2 fun w hw => ?_
      obtain ⟨c, v, d, rfl, hc, -⟩ := hline w hw
      have hblank := List.all_eq_true.1 hb c ((hus.infix_of_mem hw).subset (List.mem_cons_self ..))
      exact absurd (hc.symm.trans hblank) (by simp)
    exact ih hrest hvs
  | case4 line next ls hb ih =>
    rw [join_lines line (by simp)] at h
    obtain ⟨us, vs, rfl, hus, hvs⟩ := h.split (hfeed hws)
    rw [join_lines line (dropBlank_ne_nil (by simp))]
    exact hus.append ((ih (List.forall_mem_append.1 hws).2 hvs).prepend ['\n'])

end Words

/-! ### Strings -/

/-- The string that a piece is. -/
def Piece.quoted? : Piece → Option Text
  | quoted cs => some cs
  | _ => none

/-- The strings of a text that stand outside comments, each with its quotes. -/
def strings (t : Text) : List Text := (pieces false t).filterMap Piece.quoted?

/-- The strings stand in order in what is kept of the pieces. -/
theorem inOrder_kept (ps : List Piece) : InOrder (ps.filterMap Piece.quoted?) (ps.flatMap Piece.kept) := by
  induction ps with
  | nil => exact .nil _
  | cons p ps ih =>
    rw [List.flatMap_cons]
    cases p with
    | quoted cs => exact .cons [] ih
    | comment cs => exact ih
    | plain c => exact ih.prepend [c]

/-- **A string stands on one line between its quotes,** and all its characters come from the text. -/
theorem quoted_of_mem_pieces {afterColon : Bool} {t w : Text} (h : .quoted w ∈ pieces afterColon t) :
    (∃ q cs, isQuote q = true ∧ Closing q cs ∧ w = q :: cs) ∧ w <:+: t := by
  fun_induction pieces afterColon t with
  | case1 => exact absurd h List.not_mem_nil
  | case2 afterColon c t ih =>
    have hnext := nextPiece_append afterColon c t
    rcases List.mem_cons.1 h with h | h
    · rw [← h] at hnext
      refine ⟨?_, [], _, hnext⟩
      by_cases hq : isQuote c = true ∧ ∃ x, quotedTail? c t = some x
      · obtain ⟨hc, ⟨cs, rest⟩, htail⟩ := hq
        rw [nextPiece_quoted hc htail] at h
        exact ⟨c, cs, hc, ((quotedTail?_iff (ne_of_isQuote hc (by rfl))).1 htail).1, Piece.quoted.inj h⟩
      · -- no other piece is a string
        have hnone : (if c = '"' ∨ c = '\'' then quotedTail? c t else none) = none := by
          split
          · next hc => exact Option.eq_none_iff_forall_ne_some.2 fun x hx => hq ⟨isQuote_iff.2 hc, x, hx⟩
          · rfl
        rw [nextPiece, hnone] at h
        split at h
        · simp_all
        · split at h
          · exact absurd h (by simp)
          · split at h <;> exact absurd h (by simp)
    · obtain ⟨hstring, hinside⟩ := ih h
      exact ⟨hstring, hinside.trans ⟨_, [], by rw [List.append_nil]; exact hnext⟩⟩

/-- No line feed stands in a string. -/
theorem Closing.notMem_feed {q : Char} (hq : isQuote q = true) {cs : Text} (h : Closing q cs) : '\n' ∉ cs := by
  induction h with
  | quote => exact List.not_mem_cons_of_ne_of_not_mem (ne_of_isQuote hq (by rfl)).symm List.not_mem_nil
  | escape hc _ ih => simp [Ne.symm hc, ih]
  | plain _ _ hfeed _ ih => exact List.not_mem_cons_of_ne_of_not_mem hfeed.symm ih

/-- A quote is no blank. -/
theorem not_blank_of_isQuote {q : Char} (hq : isQuote q = true) : isBlank q = false := by
  rcases isQuote_iff.1 hq with rfl | rfl <;> decide

/-- **Strings are words on a line.** -/
theorem isLineWord_of_mem_strings {t w : Text} (ht : '\r' ∉ t) (h : w ∈ strings t) : IsLineWord w := by
  obtain ⟨p, hp, hpw⟩ := List.mem_filterMap.1 h
  cases p with
  | quoted cs =>
    obtain rfl : cs = w := Option.some.inj hpw
    obtain ⟨⟨q, cs, hq, hcs, rfl⟩, hinside⟩ := quoted_of_mem_pieces hp
    obtain ⟨front, rfl⟩ := hcs.exists_concat
    refine ⟨q, front, q, rfl, not_blank_of_isQuote hq, not_blank_of_isQuote hq, ?_, fun hr => ht (hinside.subset hr)⟩
    exact List.not_mem_cons_of_ne_of_not_mem (ne_of_isQuote hq (by rfl)).symm (hcs.notMem_feed hq)
  | comment cs => exact absurd hpw (by simp [Piece.quoted?])
  | plain c => exact absurd hpw (by simp [Piece.quoted?])

/-- **The short layout changes the layout only:** of a text without carriage returns it keeps every character
outside comments that is no blank, and the strings outside comments as they are, in their order. -/
theorem minify_keeps {t : Text} (ht : '\r' ∉ t) :
    withoutBlanks (minify t) = withoutBlanks (withoutComments t) ∧ InOrder (strings t) (minify t) := by
  refine ⟨withoutBlanks_minify t, ?_⟩
  have hwords : ∀ w ∈ strings t, IsLineWord w := fun w hw => isLineWord_of_mem_strings ht hw
  rw [minify_eq_respace]
  exact inOrder_respaceFrom keepsLines_joins hwords (inOrder_withoutBlankLines hwords (inOrder_kept _))

/-- Strings with marks, blanks and slashes inside, and a comment that holds a quote. -/
theorem minify_keeps_marks :
    let t := "a \x7b\n  b: \"\x7b  ; // \";/* ' */\n\n  c: ',\t.';\n\x7d".toList
    withoutBlanks (minify t) = withoutBlanks (withoutComments t) ∧ InOrder (strings t) (minify t) :=
  minify_keeps (by decide)

example : minify "a \x7b\n  b: \"\x7b  ; // \";/* ' */\n\n  c: ',\t.';\n\x7d".toList =
    "a \x7bb: \"\x7b  ; // \";c: ',\t.';\x7d".toList := by cbv

end Css
end ThemeSheet
