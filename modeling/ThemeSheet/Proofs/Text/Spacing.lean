/-
# Runs of blanks

A text read as its characters that are no blanks, with a run of blanks, often an empty
one, before each of them and behind the last.  A spacing tells what takes the place of
such a run; two spacings one after the other are one spacing, and a pass of
replacements that only touches the blanks behind a character is a spacing too.
-/

import ThemeSheet.Proofs.Text.Replacement
import ThemeSheet.Text.Blank

namespace ThemeSheet
namespace Text

/-- What takes the place of a run of blanks, given the character before it, the run and the
character behind it; there is none at the two ends of the text. -/
abbrev Spacing := Option Char → Text → Option Char → Text

/-- The text with its runs of blanks replaced, when `run` has been read behind `before`. -/
def respaceFrom (f : Spacing) (before : Option Char) (run : Text) : Text → Text
  | [] => f before run none
  | c :: t =>
    if isBlank c then respaceFrom f before (run ++ [c]) t
    else f before run (some c) ++ c :: respaceFrom f (some c) [] t

/-- The text with its runs of blanks replaced. -/
def respace (f : Spacing) (t : Text) : Text := respaceFrom f none [] t

/-- First the one spacing, then the other, on the run the first has left. -/
def Spacing.andThen (f g : Spacing) : Spacing := fun before run behind => g before (f before run behind) behind

/-- The spacing leaves nothing but blanks in the place of blanks. -/
def Spacing.IsBlank (f : Spacing) : Prop :=
  ∀ before run behind, (∀ c ∈ run, isBlank c = true) → ∀ c ∈ f before run behind, isBlank c = true

/-- Two spacings that write blanks only write blanks only, one after the other. -/
theorem Spacing.IsBlank.andThen {f g : Spacing} (hf : f.IsBlank) (hg : g.IsBlank) : (f.andThen g).IsBlank :=
  fun before run behind h => hg before _ behind (hf before run behind h)

/-! ### One run after another -/

section Runs
variable {f g : Spacing} {before : Option Char} {run : Text}

/-- A blank goes to the run that has been read. -/
theorem respaceFrom_of_blank {c : Char} (hc : isBlank c = true) (t : Text) :
    respaceFrom f before run (c :: t) = respaceFrom f before (run ++ [c]) t := by
  rw [respaceFrom, if_pos hc]

/-- A character that is no blank ends the run. -/
theorem respaceFrom_of_not_blank {c : Char} (hc : isBlank c = false) (t : Text) :
    respaceFrom f before run (c :: t) = f before run (some c) ++ c :: respaceFrom f (some c) [] t := by
  rw [respaceFrom, if_neg (by simp [hc])]

/-- Blanks at the beginning belong to the run. -/
theorem respaceFrom_append {r : Text} (hr : ∀ c ∈ r, isBlank c = true) (t : Text) :
    respaceFrom f before run (r ++ t) = respaceFrom f before (run ++ r) t := by
  induction r generalizing run with
  | nil => simp
  | cons c r ih =>
    rw [List.cons_append, respaceFrom_of_blank (hr c (List.mem_cons_self ..)),
      ih fun d hd => hr d (List.mem_cons_of_mem _ hd), List.append_assoc]
    rfl

/-- Spacing a text twice is spacing it once by both spacings. -/
theorem respaceFrom_respaceFrom (hf : f.IsBlank) (hrun : ∀ c ∈ run, isBlank c = true) (t : Text) :
    respaceFrom g before [] (respaceFrom f before run t) = respaceFrom (f.andThen g) before run t := by
  induction t generalizing before run with
  | nil =>
    have h : respaceFrom g before [] (f before run none ++ []) = _ :=
      respaceFrom_append (hf before run none hrun) []
    rwa [List.append_nil, List.nil_append] at h
  | cons c t ih =>
    cases hc : isBlank c with
    | true =>
      rw [respaceFrom_of_blank hc, respaceFrom_of_blank hc]
      exact ih (List.forall_mem_append.2 ⟨hrun, List.forall_mem_singleton.2 hc⟩)
    | false =>
      rw [respaceFrom_of_not_blank hc, respaceFrom_of_not_blank hc,
        respaceFrom_append (hf before run (some c) hrun), List.nil_append, respaceFrom_of_not_blank hc,
        ih (List.forall_mem_nil _)]
      rfl

/-- **Two spacings one after the other are one.** -/
theorem respace_respace (hf : f.IsBlank) (t : Text) : respace g (respace f t) = respace (f.andThen g) t :=
  respaceFrom_respaceFrom hf (List.forall_mem_nil _) t

end Runs

/-! ### Replacing behind a character -/

/-- The matcher applies at no blank.  At another character it applies if the spacing changes the
blanks behind it; then it puts these in, and may read on over characters at which it does not apply. -/
structure Spaces (m : Matcher) (f : Spacing) : Prop where
  blank : ∀ c t, isBlank c = true → m (c :: t) = none
  front : ∀ run behind, f none run behind = run
  behind : ∀ c run t, isBlank c = false → (∀ d ∈ run, isBlank d = true) →
    (∀ d, t.head? = some d → isBlank d = false) →
    m (c :: (run ++ t)) = none ∧ f (some c) run t.head? = run ∨
    ∃ read rest, t = read ++ rest ∧ (∀ d ∈ read, ∀ u, m (d :: u) = none) ∧
      m (c :: (run ++ t)) = some (c :: (f (some c) run t.head? ++ read), rest)

section Spaces
variable {m : Matcher} {f : Spacing}

/-- One step of the pass: a character and the blanks behind it. -/
theorem Spaces.step (hm : Spaces m f) {c : Char} (hc : isBlank c = false) {run t : Text}
    (hrun : ∀ d ∈ run, isBlank d = true) (ht : ∀ d, t.head? = some d → isBlank d = false) :
    replaceMatches m (c :: (run ++ t)) = c :: (f (some c) run t.head? ++ replaceMatches m t) := by
  rcases hm.behind c run t hc hrun ht with ⟨hnone, hf⟩ | ⟨read, rest, rfl, hread, hsome⟩
  · rw [replaceMatches_of_none hnone, hf, replaceMatches_skip fun d hd u => hm.blank d u (hrun d hd)]
  · rw [replaceMatches_skip hread]
    rw [← List.append_assoc, ← List.cons_append] at hsome ⊢
    rw [replaceMatches_of_some (by simp) hsome]
    simp

/-- Behind a character that is no blank, a run of blanks is replaced as the spacing says. -/
theorem Spaces.behind_eq (hm : Spaces m f) {c : Char} (hc : isBlank c = false) {run : Text}
    (hrun : ∀ d ∈ run, isBlank d = true) (t : Text) :
    replaceMatches m (c :: (run ++ t)) = c :: respaceFrom f (some c) run t := by
  induction t generalizing c run with
  | nil =>
    rw [hm.step hc hrun (by simp), replaceMatches, List.append_nil]
    rfl
  | cons d t ih =>
    cases hd : isBlank d with
    | true =>
      have hrun' := List.forall_mem_append.2 ⟨hrun, List.forall_mem_singleton.2 hd⟩
      rw [respaceFrom_of_blank hd, ← ih hc hrun', List.append_assoc]
      rfl
    | false =>
      have ht : ∀ e, (d :: t).head? = some e → isBlank e = false := fun e he => Option.some.inj he ▸ hd
      have hnext : replaceMatches m (d :: t) = d :: respaceFrom f (some d) [] t := ih hd (List.forall_mem_nil _)
      rw [respaceFrom_of_not_blank hd, hm.step hc hrun ht, hnext]
      rfl

/-- **The pass is the spacing.** -/
theorem Spaces.replaceMatches_eq (hm : Spaces m f) (t : Text) : replaceMatches m t = respace f t := by
  suffices h : ∀ run : Text, (∀ c ∈ run, isBlank c = true) → run ++ replaceMatches m t = respaceFrom f none run t from
    h [] (List.forall_mem_nil _)
  induction t with
  | nil =>
    intro run _
    rw [replaceMatches, List.append_nil]
    exact (hm.front run none).symm
  | cons c t ih =>
    intro run hrun
    cases hc : isBlank c with
    | true =>
      have hrun' := List.forall_mem_append.2 ⟨hrun, List.forall_mem_singleton.2 hc⟩
      rw [replaceMatches_of_none (hm.blank c t hc), respaceFrom_of_blank hc, ← ih _ hrun', List.append_assoc]
      rfl
    | false =>
      have hnext : replaceMatches m (c :: t) = c :: respaceFrom f (some c) [] t :=
        hm.behind_eq hc (List.forall_mem_nil _) t
      rw [respaceFrom_of_not_blank hc, hm.front, hnext]

end Spaces

end Text
end ThemeSheet
