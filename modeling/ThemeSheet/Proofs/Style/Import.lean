/-
# Import statements of style files

A whole import statement is the word, a path between two quotes of one kind and a
semicolon.  What is read as a statement is wider: on every line it reaches from the
first word with a quote behind it to the last quote with a semicolon, whatever stands
between, and that is one path.  A line gives up the whole statements of known files, and
nothing else, exactly if taking its widest statement as a whole comes to the same.
-/

import Mathlib.Data.List.Infix
import ThemeSheet.Proofs.Fallible
import ThemeSheet.Proofs.Text.Lines
import ThemeSheet.Proofs.Text.Linewise
import ThemeSheet.Style.Source

namespace ThemeSheet
namespace Style

open Text

/-- The word that begins a statement, and a blank. -/
def statementWord : Text := "@import ".toList

/-- A statement as it is written, with the quotes around its path. -/
def statementText (opening : Char) (path : Text) (closing : Char) : Text :=
  statementWord ++ opening :: path ++ [closing, ';']

/-- **A whole import statement:** its path holds neither the quote around it nor a line feed. -/
structure IsStatement (quote : Char) (path : Text) : Prop where
  isQuote : isQuote quote = true
  inside : quote ∉ path
  line : '\n' ∉ path

/-- The whole import statement at the beginning of a text: its quote, its path and what follows. -/
def wholeStatement? (t : Text) : Option ((Char × Text) × Text) :=
  match dropPrefix? statementWord t with
  | some (q :: inner) =>
    if isQuote q && !(inner.takeWhile (· != q)).contains '\n' then
      (dropPrefix? [q, ';'] (inner.dropWhile (· != q))).map fun rest => ((q, inner.takeWhile (· != q)), rest)
    else none
  | _ => none

/-- What is left of a whole statement: nothing, if its path is known. -/
def leftOf (known : Text → Bool) : Char × Text → Text
  | (q, path) => if known path then [] else statementText q path q

/-- **The text without the whole statements of known paths.** -/
def withoutKnown (known : Text → Bool) (t : Text) : Text :=
  replaceMatches (fun t => (wholeStatement? t).map fun (s, rest) => (leftOf known s, rest)) t

/-- No quote with a semicolon behind it stands in the text. -/
def NoClosing (t : Text) : Prop := ∀ q, isQuote q = true → ¬ [q, ';'] <:+: t

/-- **The widest statement of a line:** from the first word with a quote to the last quote with a semicolon. -/
structure IsWidest (line before : Text) (opening : Char) (path : Text) (closing : Char) (after : Text) : Prop where
  eq : line = before ++ statementText opening path closing ++ after
  opening : isQuote opening = true
  closing : isQuote closing = true
  first : ∀ q, isQuote q = true → ¬ statementWord ++ [q] <:+: before
  last : NoClosing after

variable {t l s rest path before after : Text} {q q' opening closing : Char}

/-- A statement before a text, sign by sign. -/
theorem statementText_append (q : Char) (path : Text) (q' : Char) (rest : Text) :
    statementText q path q' ++ rest = statementWord ++ q :: (path ++ q' :: ';' :: rest) := by
  simp [statementText]

/-! ### Whole statements -/

/-- A whole statement stands on one line. -/
theorem IsStatement.notMem_feed (h : IsStatement q path) : '\n' ∉ statementText q path q := by
  have hquote : '\n' ≠ q := fun he => absurd (he ▸ h.isQuote) (by decide)
  simp only [statementText, List.mem_append, List.mem_cons, List.not_mem_nil, or_false, not_or]
  exact ⟨⟨by decide, hquote, h.line⟩, hquote, by decide⟩

/-- What is read as a whole statement is one. -/
theorem wholeStatement?_eq_some_iff : wholeStatement? t = some ((q, path), rest) ↔
    IsStatement q path ∧ t = statementText q path q ++ rest := by
  constructor
  · intro h
    unfold wholeStatement? at h
    split at h
    · next q₁ inner hword =>
      split at h
      · next hq =>
        obtain ⟨rest₁, hrest, he⟩ := Option.map_eq_some_iff.1 h
        obtain ⟨⟨rfl, rfl⟩, rfl⟩ : (q₁ = q ∧ inner.takeWhile (· != q₁) = path) ∧ rest₁ = rest := by simpa using he
        rw [Bool.and_eq_true, Bool.not_eq_true', List.contains_eq_mem, decide_eq_false_iff_not] at hq
        refine ⟨⟨hq.1, fun hm => by simpa using List.mem_takeWhile_imp hm, hq.2⟩, ?_⟩
        have hinner := List.takeWhile_append_dropWhile (p := (· != q₁)) (l := inner)
        rw [dropPrefix?_eq_some.1 hrest] at hinner
        rw [statementText_append, dropPrefix?_eq_some.1 hword]
        exact congrArg (statementWord ++ q₁ :: ·) hinner.symm
      · exact absurd h (by simp)
    · exact absurd h (by simp)
  · rintro ⟨⟨hq, hinside, hline⟩, rfl⟩
    have hword : dropPrefix? statementWord (statementText q path q ++ rest) =
        some (q :: (path ++ q :: ';' :: rest)) := dropPrefix?_eq_some.2 (statementText_append ..)
    have hrun : ∀ c ∈ path, (c != q) = true := fun c hc => bne_iff_ne.2 (ne_of_mem_of_not_mem hc hinside)
    have htake : (path ++ q :: ';' :: rest).takeWhile (· != q) = path := takeWhile_run hrun (by simp)
    have hdrop : (path ++ q :: ';' :: rest).dropWhile (· != q) = q :: ';' :: rest := dropWhile_run hrun (by simp)
    have hclose : dropPrefix? [q, ';'] (q :: ';' :: rest) = some rest := dropPrefix?_eq_some.2 rfl
    simp only [wholeStatement?, hword, htake, hdrop, hclose, hq, Bool.true_and, Option.map_some]
    rw [if_pos (by simpa using hline)]

/-! ### What is read as a statement -/

/-- A statement ends with a quote and a semicolon. -/
theorem afterStatement?_eq_some_iff : Less.afterStatement? t = some rest ↔
    ∃ q, isQuote q = true ∧ t = q :: ';' :: rest := by
  constructor
  · intro h
    unfold Less.afterStatement? at h
    split at h
    · next q t =>
      split at h
      · next hq => exact ⟨q, hq, by rw [Option.some.inj h]⟩
      · exact absurd h (by simp)
    · exact absurd h (by simp)
  · rintro ⟨q, hq, rfl⟩
    rw [Less.afterStatement?, if_pos hq]

/-- No statement can end in the text exactly if none ends anywhere in it. -/
theorem noClosing_iff : NoClosing t ↔ ∀ front u, t = front ++ u → Less.afterStatement? u = none := by
  constructor
  · rintro h front u rfl
    refine Option.eq_none_iff_forall_ne_some.2 fun rest hu => ?_
    obtain ⟨q, hq, rfl⟩ := afterStatement?_eq_some_iff.1 hu
    exact h q hq ⟨front, rest, by simp⟩
  · rintro h q hq ⟨front, rest, rfl⟩
    have hsome : Less.afterStatement? (q :: ';' :: rest) = some rest := afterStatement?_eq_some_iff.2 ⟨q, hq, rfl⟩
    rw [h front (q :: ';' :: rest) (by simp)] at hsome
    exact absurd hsome.symm (Option.some_ne_none rest)

/-- **A path is cut at the last quote with a semicolon.** -/
theorem lastCut?_afterStatement?_iff : lastCut? Less.afterStatement? t = some (path, after) ↔
    ∃ q, isQuote q = true ∧ t = path ++ q :: ';' :: after ∧ NoClosing after := by
  rw [lastCut?_eq_some_iff]
  constructor
  · rintro ⟨u, rfl, hu, hlast⟩
    obtain ⟨q, hq, rfl⟩ := afterStatement?_eq_some_iff.1 hu
    refine ⟨q, hq, rfl, noClosing_iff.2 fun front v hv => ?_⟩
    exact hlast (q :: ';' :: front) v (by rw [hv]; rfl) (List.cons_ne_nil q _)
  · rintro ⟨q, hq, rfl, hlast⟩
    refine ⟨_, rfl, afterStatement?_eq_some_iff.2 ⟨q, hq, rfl⟩, fun front v hv hne => ?_⟩
    cases front with
    | nil => exact absurd rfl hne
    | cons c front =>
      obtain ⟨-, hv⟩ := List.cons.inj hv
      cases front with
      | nil =>
        refine Option.eq_none_iff_forall_ne_some.2 fun rest hrest => ?_
        obtain ⟨q₁, hq₁, he⟩ := afterStatement?_eq_some_iff.1 hrest
        rw [← (List.cons.inj (hv.trans he)).1] at hq₁
        exact absurd hq₁ (by decide)
      | cons c' front => exact noClosing_iff.1 hlast front v (List.cons.inj hv).2

/-- Behind the word and a quote, the path goes up to the last end of a statement on the line. -/
theorem statement?_word (hq : isQuote q = true) (inner : Text) :
    statement? (statementWord ++ q :: inner) =
      (lastCut? Less.afterStatement? (inner.takeWhile (· != '\n'))).map fun (path, after) =>
        (path, after ++ inner.dropWhile (· != '\n')) := by
  rw [statement?]
  exact if_pos hq

/-- What is read as a statement begins with the word and a quote. -/
theorem exists_word_of_statement? {x : Text × Text} (h : statement? t = some x) :
    ∃ q inner, isQuote q = true ∧ t = statementWord ++ q :: inner := by
  unfold statement? at h
  split at h
  · next q inner hword =>
    split at h
    · next hq => exact ⟨q, inner, hq, dropPrefix?_eq_some.1 hword⟩
    · exact absurd h (by simp)
  · exact absurd h (by simp)

/-- **On a line a statement is read up to the last quote with a semicolon.** -/
theorem statement?_eq_some_iff (hl : '\n' ∉ l) : statement? l = some (path, rest) ↔
    ∃ q q', isQuote q = true ∧ isQuote q' = true ∧ l = statementText q path q' ++ rest ∧ NoClosing rest := by
  have hinner (q : Char) (inner : Text) (h : l = statementWord ++ q :: inner) :
      inner.takeWhile (· != '\n') = inner ∧ inner.dropWhile (· != '\n') = [] := by
    have hfeed : '\n' ∉ inner := fun hm => hl (h ▸ List.mem_append_right _ (List.mem_cons_of_mem _ hm))
    exact ⟨List.takeWhile_eq_self_iff.2 (ne_feed hfeed), List.dropWhile_eq_nil_iff.2 (ne_feed hfeed)⟩
  constructor
  · intro h
    obtain ⟨q, inner, hq, he⟩ := exists_word_of_statement? h
    obtain ⟨htake, hdrop⟩ := hinner q inner he
    rw [he, statement?_word hq, htake, hdrop] at h
    obtain ⟨⟨path₁, after⟩, hcut, hpair⟩ := Option.map_eq_some_iff.1 h
    obtain ⟨rfl, rfl⟩ : path₁ = path ∧ after = rest := by simpa using hpair
    obtain ⟨q', hq', rfl, hlast⟩ := lastCut?_afterStatement?_iff.1 hcut
    exact ⟨q, q', hq, hq', by rw [he, statementText_append], hlast⟩
  · rintro ⟨q, q', hq, hq', he, hlast⟩
    have hword : l = statementWord ++ q :: (path ++ q' :: ';' :: rest) := by rw [he, statementText_append]
    obtain ⟨htake, hdrop⟩ := hinner _ _ hword
    rw [hword, statement?_word hq, htake, hdrop, lastCut?_afterStatement?_iff.2 ⟨q', hq', rfl, hlast⟩]
    simp

/-- Where a word with a quote has a quote with a semicolon behind it, a statement is read. -/
theorem statement?_ne_none (hl : '\n' ∉ l) (hq : isQuote q = true) (hq' : isQuote q' = true)
    (h : l = statementText q path q' ++ rest) : statement? l ≠ none := by
  intro hnone
  have hword : l = statementWord ++ q :: (path ++ q' :: ';' :: rest) := by rw [h, statementText_append]
  have hfeed : '\n' ∉ path ++ q' :: ';' :: rest :=
    fun hm => hl (hword ▸ List.mem_append_right _ (List.mem_cons_of_mem _ hm))
  rw [hword, statement?_word hq, Option.map_eq_none_iff, List.takeWhile_eq_self_iff.2 (ne_feed hfeed),
    lastCut?_eq_none_iff, ← noClosing_iff] at hnone
  exact hnone q' hq' ⟨path, rest, by simp⟩

/-- Where nothing is read as a statement, no whole one stands. -/
theorem wholeStatement?_of_none (hl : '\n' ∉ l) (h : statement? l = none) : wholeStatement? l = none := by
  refine Option.eq_none_iff_forall_ne_some.2 fun ⟨⟨q, path⟩, rest⟩ hwhole => ?_
  obtain ⟨hq, he⟩ := wholeStatement?_eq_some_iff.1 hwhole
  exact statement?_ne_none hl hq.isQuote hq.isQuote he h

/-- **What is read as a statement keeps to its line.** -/
theorem keepsToLine_statement? : KeepsToLine statement? where
  suffix t path r h := by
    obtain ⟨q, inner, hq, rfl⟩ := exists_word_of_statement? h
    rw [statement?_word hq] at h
    obtain ⟨⟨path₁, after⟩, hcut, he⟩ := Option.map_eq_some_iff.1 h
    obtain ⟨rfl, rfl⟩ : path₁ = path ∧ after ++ inner.dropWhile (· != '\n') = r := by simpa using he
    obtain ⟨q', -, htake, -⟩ := lastCut?_afterStatement?_iff.1 hcut
    have hinner := List.takeWhile_append_dropWhile (p := (· != '\n')) (l := inner)
    rw [htake] at hinner
    refine ⟨statementText q path₁ q', ?_⟩
    rw [statementText_append]
    exact congrArg (statementWord ++ q :: ·) (hinner.symm.trans (by simp))
  nil := rfl
  line l rest hl := by
    rw [statement?, statement?, dropPrefix?_feed (by decide)]
    cases hword : dropPrefix? "@import ".toList l with
    | none => rfl
    | some inner =>
      cases inner with
      | nil => rfl
      | cons q inner =>
        have hfeed : '\n' ∉ inner := fun hm => hl <| by
          rw [dropPrefix?_eq_some.1 hword]
          exact List.mem_append_right _ (List.mem_cons_of_mem _ hm)
        have htake : (inner ++ '\n' :: rest).takeWhile (· != '\n') = inner := takeWhile_run (ne_feed hfeed) (by simp)
        have hdrop : (inner ++ '\n' :: rest).dropWhile (· != '\n') = '\n' :: rest :=
          dropWhile_run (ne_feed hfeed) (by simp)
        have hself : inner.takeWhile (· != '\n') = inner := List.takeWhile_eq_self_iff.2 (ne_feed hfeed)
        have hnil : inner.dropWhile (· != '\n') = [] := List.dropWhile_eq_nil_iff.2 (ne_feed hfeed)
        simp only [Option.map_some, List.cons_append, htake, hdrop, hself, hnil]
        split
        · rw [Option.map_map]
          congr 1
          funext ⟨path, after⟩
          simp
        · rfl

/-- Whole statements keep to their lines. -/
theorem keepsToLine_wholeStatement? : KeepsToLine wholeStatement? where
  suffix t x r h := by
    obtain ⟨q, path⟩ := x
    exact ⟨_, (wholeStatement?_eq_some_iff.1 h).2⟩
  nil := rfl
  line l rest hl := by
    refine append_of_written (p := fun x => IsStatement x.1 x.2) (w := fun x => statementText x.1 x.2 x.1)
      (fun t x r => wholeStatement?_eq_some_iff) fun x v r hx hw hne hv => ?_
    obtain ⟨c, v, rfl⟩ := List.exists_cons_of_ne_nil hne
    obtain rfl := (List.cons.inj hv).1
    exact hx.notMem_feed (hw ▸ by simp)

/-! ### The widest statement of a line -/

/-- In front of the first word with a quote nothing is read as a statement. -/
theorem statement?_before (h : IsWidest l before opening path closing after) (hne : s ≠ []) (hs : s <:+ before) :
    statement? (s ++ (statementText opening path closing ++ after)) = none := by
  refine Option.eq_none_iff_forall_ne_some.2 fun x hx => ?_
  obtain ⟨q, inner, hq, he⟩ := exists_word_of_statement? hx
  have he' : (statementWord ++ [q]) ++ inner = s ++ (statementText opening path closing ++ after) := by
    rw [he]
    simp
  rcases append_eq_append_cases he' with ⟨v, hv⟩ | ⟨w, -, hw, -⟩
  · have hword : s ++ v = statementWord ++ [q] := by
      rw [hv, ← List.append_assoc] at he'
      exact (List.append_cancel_right he').symm
    cases v with
    | nil => exact h.first q hq (List.IsSuffix.isInfix (by rwa [← hword, List.append_nil]))
    | cons c v =>
      -- the word would begin inside another one
      obtain ⟨d, s, rfl⟩ := List.exists_cons_of_ne_nil hne
      have hc : c = '@' := by
        rw [statementText_append] at hv
        exact (List.cons.inj hv).1.symm
      have hmem : '@' ∈ "import ".toList ++ [q] := by
        rw [← show s ++ c :: v = "import ".toList ++ [q] from (List.cons.inj hword).2, hc]
        simp
      rcases List.mem_append.1 hmem with hm | hm
      · exact absurd hm (by decide)
      · exact absurd (List.mem_singleton.1 hm ▸ hq) (by decide)
  · exact h.first q hq (List.IsInfix.trans ⟨[], w, by rw [hw]; rfl⟩ hs.isInfix)

/-- Behind the last quote with a semicolon nothing is read as a statement. -/
theorem statement?_after (hl : '\n' ∉ t) (h : NoClosing t) (hs : s <:+ t) : statement? s = none := by
  refine Option.eq_none_iff_forall_ne_some.2 fun ⟨path, rest⟩ hx => ?_
  obtain ⟨q, q', -, hq', rfl, -⟩ := (statement?_eq_some_iff fun hm => hl (hs.mem hm)).1 hx
  exact h q' hq' (List.IsInfix.trans ⟨statementWord ++ q :: path, rest, rfl⟩ hs.isInfix)

/-- **A line without a widest statement** has none at all. -/
theorem exists_isWidest (hl : '\n' ∉ l) : (∀ s, s <:+ l → statement? s = none) ∨
    ∃ before opening path closing after, IsWidest l before opening path closing after := by
  induction l with
  | nil => exact .inl fun s hs => (List.suffix_nil.1 hs) ▸ rfl
  | cons c l ih =>
    cases hc : statement? (c :: l) with
    | some found =>
      obtain ⟨path, rest⟩ := found
      obtain ⟨q, q', hq, hq', he, hlast⟩ := (statement?_eq_some_iff hl).1 hc
      refine .inr ⟨[], q, path, q', rest, by rw [he, List.nil_append], hq, hq', fun q₁ _ hinfix => ?_, hlast⟩
      exact absurd (List.infix_nil.1 hinfix) (by simp)
    | none =>
      rcases ih fun hm => hl (List.mem_cons_of_mem _ hm) with hnone | ⟨before, q, path, q', after, h⟩
      · refine .inl fun s hs => ?_
        rcases List.suffix_cons_iff.1 hs with rfl | hs
        · exact hc
        · exact hnone s hs
      · refine .inr ⟨c :: before, q, path, q', after, by rw [h.eq]; rfl, h.opening, h.closing, fun q₁ hq₁ hinfix => ?_,
          h.last⟩
        rcases List.infix_cons_iff.1 hinfix with ⟨inner, hinner⟩ | hinfix
        · -- a word in front reaches to the same end
          have hwider : c :: l = statementText q₁ (inner ++ statementWord ++ q :: path) q' ++ after := by
            rw [statementText_append, h.eq, ← List.cons_append, ← List.cons_append, ← hinner]
            simp [statementText]
          exact statement?_ne_none hl hq₁ h.closing hwider hc
        · exact h.first q₁ hq₁ hinfix

/-! ### Whole statements of a line -/

/-- What is left stood there before, in the same order. -/
theorem withoutKnown_sublist (known : Text → Bool) (t : Text) : (withoutKnown known t).Sublist t := by
  rw [withoutKnown]
  fun_induction replaceMatches _ t with
  | case1 => exact .slnil
  | case2 c t new rest hm hle ih =>
    obtain ⟨⟨⟨q, path⟩, rest'⟩, hwhole, he⟩ := Option.map_eq_some_iff.1 hm
    obtain ⟨rfl, rfl⟩ := Prod.mk.inj he
    rw [(wholeStatement?_eq_some_iff.1 hwhole).2]
    refine List.Sublist.append ?_ ih
    rw [leftOf]
    split
    · exact List.nil_sublist _
    · exact List.Sublist.refl _
  | case3 c t new rest hm hle ih => exact ih.cons_cons c
  | case4 c t hm ih => exact ih.cons_cons c

/-- A line in which no statement begins stays. -/
theorem withoutKnown_of_none (known : Text → Bool) (hl : '\n' ∉ l) (h : ∀ s, s <:+ l → statement? s = none) :
    withoutKnown known l = l :=
  replaceMatches_eq_self fun s _ hs =>
    Option.map_eq_none_iff.2 (wholeStatement?_of_none (fun hm => hl (hs.mem hm)) (h s hs))

/-- A statement ends with its semicolon. -/
theorem getLast?_statementText (q : Char) (path : Text) (q' : Char) : (statementText q path q').getLast? = some ';' := by
  rw [show statementText q path q' = (statementWord ++ q :: path ++ [q']) ++ [';'] by simp [statementText],
    List.getLast?_concat]

/-- No whole statement reaches over the end of the widest one. -/
theorem seesApart_wholeStatement? (opening : Char) (path : Text) (closing : Char) (h : NoClosing after) :
    SeesApart wholeStatement? (statementText opening path closing) after := by
  intro front kept hs hne
  refine append_of_written (p := fun x => IsStatement x.1 x.2) (w := fun x => statementText x.1 x.2 x.1)
    (fun t x r => wholeStatement?_eq_some_iff) fun ⟨q, p⟩ v r hx hw hv hafter => ?_
  have hclose : [q, ';'] <:+ kept ++ v := ⟨statementWord ++ q :: p, hw⟩
  rcases List.suffix_or_suffix_of_suffix hclose (List.suffix_append kept v) with hsuffix | hsuffix
  · exact h q hx.isQuote (hafter ▸ hsuffix.isInfix.trans (List.prefix_append v r).isInfix)
  · rcases List.suffix_cons_iff.1 hsuffix with rfl | hsuffix
    · exact h q hx.isQuote (hafter ▸ (List.prefix_append _ r).isInfix)
    · -- the statement would end with a quote in front of the boundary, where a semicolon stands
      obtain rfl : v = [';'] := (List.suffix_cons_iff.1 hsuffix).resolve_right fun hnil => hv (List.suffix_nil.1 hnil)
      have hends : (statementWord ++ q :: p ++ [q]) ++ [';'] = kept ++ [';'] := by
        rw [← hw]
        simp [statementText]
      have hkept := (List.append_cancel_right hends).symm
      have hlast := getLast?_statementText opening path closing
      rw [hs, List.getLast?_append_of_ne_nil _ hne, hkept, List.getLast?_concat] at hlast
      have hq : isQuote q = true := hx.isQuote
      rw [Option.some.inj hlast] at hq
      exact absurd hq (by decide)

/-- **Whole statements stand in the widest one.** -/
theorem withoutKnown_widest (known : Text → Bool) (hl : '\n' ∉ l) (h : IsWidest l before opening path closing after) :
    withoutKnown known l = before ++ withoutKnown known (statementText opening path closing) ++ after := by
  have hline : '\n' ∉ before ++ (statementText opening path closing ++ after) := by
    rwa [← List.append_assoc, ← h.eq]
  have hafter : '\n' ∉ after := fun hm => hline (by simp [hm])
  have happend : withoutKnown known (statementText opening path closing ++ after) =
      withoutKnown known (statementText opening path closing) ++ withoutKnown known after := by
    exact replaceMatches_append_of_apart (keepsToLine_wholeStatement?.map (leftOf known)).suffix
      ((seesApart_wholeStatement? opening path closing h.last).map (leftOf known))
  rw [withoutKnown_of_none known hafter fun s hs => statement?_after hafter h.last hs] at happend
  rw [h.eq, List.append_assoc, List.append_assoc, ← happend]
  refine replaceMatches_skip_of_none fun front back hs hne => Option.map_eq_none_iff.2 ?_
  refine wholeStatement?_of_none (fun hm => hline ?_) (statement?_before h hne ⟨front, hs.symm⟩)
  rw [hs, List.append_assoc]
  exact List.mem_append_right _ hm

/-! ### What is done with a statement -/

/-- The path of the file that a statement names, beside the style file. -/
def importPath (file : Path) (path : Text) : Path := file.parent.child (withSuffix Less.suffix path)

/-- **Is the file that a statement names one of the style files?** -/
def isKnown (workingDir : List Text) (file : Path) (styles : List Path) (path : Text) : Bool :=
  (styles.map (Path.fromRoot workingDir)).contains ((importPath file path).fromRoot workingDir)

/-- **A statement may be taken as a whole:** its path leads to some place, and it is dropped or stays just as the
whole statements in it do. -/
def TakenWhole (workingDir : List Text) (file : Path) (styles : List Path) (opening : Char) (path : Text)
    (closing : Char) : Prop :=
  (importPath file path).hasNull = false ∧
    withoutKnown (isKnown workingDir file styles) (statementText opening path closing) =
      if isKnown workingDir file styles path then [] else statementText opening path closing

/-- What is read as a statement, and what is made of it. -/
def stripStatement? (workingDir : List Text) (file : Path) (known : List Path) (t : Text) :
    Option (Except Fault Text × Text) :=
  (statement? t).map fun (path, rest) =>
    ((importedFile workingDir file path).map fun target =>
      if known.contains target then [] else t.take (t.length - rest.length), rest)

/-- A path is resolved exactly if it holds no null character. -/
theorem resolve_eq_ok_iff {workingDir : List Text} {p r : Path} :
    p.resolve workingDir = .ok r ↔ p.hasNull = false ∧ r = p.fromRoot workingDir := by
  rw [Path.resolve, Fallible.map_eq_ok, Path.checked]
  cases p.hasNull <;> simp [eq_comm]

/-- Paths are resolved exactly if none of them holds a null character. -/
theorem mapM_resolve_eq_ok_iff {workingDir : List Text} {styles known : List Path} :
    styles.mapM (Path.resolve workingDir) = .ok known ↔
      (∀ style ∈ styles, style.hasNull = false) ∧ known = styles.map (Path.fromRoot workingDir) := by
  rw [Fallible.mapM_eq_ok]
  constructor
  · intro h
    refine ⟨fun style hstyle => ?_, ?_⟩
    · obtain ⟨r, -, hr⟩ := Fallible.exists_of_mem_left h hstyle
      exact (resolve_eq_ok_iff.1 hr).1
    · rw [← List.forall₂_eq_eq_eq, List.forall₂_map_right_iff]
      exact h.flip.imp fun _ _ hr => (resolve_eq_ok_iff.1 hr).2
  · rintro ⟨hnull, rfl⟩
    rw [List.forall₂_map_right_iff, List.forall₂_same]
    exact fun style hstyle => resolve_eq_ok_iff.2 ⟨hnull style hstyle, rfl⟩

variable {workingDir : List Text} {file : Path} {known : List Path}

/-- The text that is taken is what stands in front of the rest. -/
theorem stripStatement?_of_statement? (h : statement? (s ++ rest) = some (path, rest)) :
    stripStatement? workingDir file known (s ++ rest) = some ((importedFile workingDir file path).map fun target =>
      if known.contains target then [] else s, rest) := by
  rw [stripStatement?, h]
  simp

/-- What is read as a statement stands on one line, and nothing behind the line matters. -/
theorem keepsToLine_stripStatement? : KeepsToLine (stripStatement? workingDir file known) where
  suffix t x r h := by
    obtain ⟨⟨path, r'⟩, hs, he⟩ := Option.map_eq_some_iff.1 h
    exact (Prod.mk.inj he).2 ▸ keepsToLine_statement?.suffix t path r' hs
  nil := rfl
  line l rest hl := by
    have hline := keepsToLine_statement?.line l rest hl
    cases hs : statement? l with
    | none =>
      rw [hs] at hline
      rw [stripStatement?, stripStatement?, hline, hs]
      rfl
    | some found =>
      obtain ⟨path, r⟩ := found
      obtain ⟨p, rfl⟩ := keepsToLine_statement?.suffix l path r hs
      rw [hs, List.append_assoc] at hline
      rw [stripStatement?_of_statement? hs, List.append_assoc, stripStatement?_of_statement? hline]
      rfl

/-- **The widest statement of a line is dropped or stays as a whole.** -/
theorem replaceFallibly_widest (hl : '\n' ∉ l) (h : IsWidest l before opening path closing after) :
    replaceFallibly (stripStatement? workingDir file known) l =
      (importedFile workingDir file path).map fun target =>
        before ++ (if known.contains target then [] else statementText opening path closing) ++ after := by
  have hline : '\n' ∉ statementText opening path closing ++ after := fun hm =>
    hl (by rw [h.eq, List.append_assoc]; exact List.mem_append_right _ hm)
  have hread : statement? (statementText opening path closing ++ after) = some (path, after) :=
    (statement?_eq_some_iff hline).2 ⟨opening, closing, h.opening, h.closing, rfl, h.last⟩
  have hafter : replaceFallibly (stripStatement? workingDir file known) after = .ok after :=
    replaceFallibly_of_none fun s _ hs => Option.map_eq_none_iff.2
      (statement?_after (fun hm => hline (List.mem_append_right _ hm)) h.last hs)
  rw [h.eq, List.append_assoc, replaceFallibly_skip fun s hne hs => Option.map_eq_none_iff.2 (statement?_before h hne hs),
    replaceFallibly_of_some (by simp [statementText]) (stripStatement?_of_statement? hread), hafter]
  cases importedFile workingDir file path with
  | error fault => rfl
  | ok target => simp [bind, Except.bind, Except.map]

/-- A line in which no statement begins stays, and nothing can go wrong. -/
theorem replaceFallibly_of_no_statement (h : ∀ s, s <:+ l → statement? s = none) :
    replaceFallibly (stripStatement? workingDir file known) l = .ok l :=
  replaceFallibly_of_none fun s _ hs => Option.map_eq_none_iff.2 (h s hs)

/-- No line feed comes in. -/
theorem notMem_feed_of_replaceFallibly (hl : '\n' ∉ l)
    (h : replaceFallibly (stripStatement? workingDir file known) l = .ok s) : '\n' ∉ s := by
  rcases exists_isWidest hl with hnone | ⟨before, opening, path, closing, after, hwidest⟩
  · rw [replaceFallibly_of_no_statement hnone] at h
    exact Except.ok.inj h ▸ hl
  · rw [replaceFallibly_widest hl hwidest] at h
    obtain ⟨target, -, rfl⟩ := Fallible.map_eq_ok.1 h
    intro hm
    rw [hwidest.eq] at hl
    split at hm <;> simp_all

/-- **A line gives up the whole statements of known files and nothing else** exactly if its widest statement, as
far as there is one, may be taken as a whole. -/
theorem replaceFallibly_line_iff {styles : List Path} (hl : '\n' ∉ l) :
    replaceFallibly (stripStatement? workingDir file (styles.map (Path.fromRoot workingDir))) l =
        .ok (withoutKnown (isKnown workingDir file styles) l) ↔
      ∀ before opening path closing after, IsWidest l before opening path closing after →
        TakenWhole workingDir file styles opening path closing := by
  have hwidest {before opening path closing after} (h : IsWidest l before opening path closing after) :
      replaceFallibly (stripStatement? workingDir file (styles.map (Path.fromRoot workingDir))) l =
          .ok (withoutKnown (isKnown workingDir file styles) l) ↔
        TakenWhole workingDir file styles opening path closing := by
    rw [replaceFallibly_widest hl h, withoutKnown_widest _ hl h, Fallible.map_eq_ok]
    constructor
    · rintro ⟨target, htarget, he⟩
      obtain ⟨hnull, rfl⟩ := resolve_eq_ok_iff.1 htarget
      exact ⟨hnull, (List.append_cancel_left (List.append_cancel_right he)).symm⟩
    · rintro ⟨hnull, he⟩
      exact ⟨_, resolve_eq_ok_iff.2 ⟨hnull, rfl⟩, by rw [he]; rfl⟩
  constructor
  · exact fun hline before opening path closing after h => (hwidest h).1 hline
  · intro hall
    rcases exists_isWidest hl with hnone | ⟨before, opening, path, closing, after, h⟩
    · rw [replaceFallibly_of_no_statement hnone, withoutKnown_of_none _ hl hnone]
    · exact (hwidest h).2 (hall before opening path closing after h)

/-- **The statements of known files are dropped line by line.** -/
theorem stripKnownImports_eq_ok_iff {content : Text} {styles : List Path} :
    stripKnownImports workingDir content file styles =
        .ok (withoutKnown (isKnown workingDir file styles) content) ↔
      (∀ style ∈ styles, style.hasNull = false) ∧ ∀ line ∈ lines content,
        replaceFallibly (stripStatement? workingDir file (styles.map (Path.fromRoot workingDir))) line =
          .ok (withoutKnown (isKnown workingDir file styles) line) := by
  have hjoin : withoutKnown (isKnown workingDir file styles) content =
      join ['\n'] ((lines content).map (withoutKnown (isKnown workingDir file styles))) :=
    (keepsToLine_wholeStatement?.map (leftOf _)).replaceMatches_lines content
  have hlines := keepsToLine_stripStatement?.replaceFallibly_eq_ok_iff
    (m := stripStatement? workingDir file (styles.map (Path.fromRoot workingDir)))
    (g := withoutKnown (isKnown workingDir file styles))
    (fun l hl hm => hl ((withoutKnown_sublist _ l).mem hm)) (fun _ _ => notMem_feed_of_replaceFallibly) content
  rw [← hlines, ← hjoin, stripKnownImports, Fallible.bind_eq_ok]
  constructor
  · rintro ⟨known, hknown, h⟩
    obtain ⟨hnull, rfl⟩ := mapM_resolve_eq_ok_iff.1 hknown
    exact ⟨hnull, h⟩
  · rintro ⟨hnull, h⟩
    exact ⟨_, mapM_resolve_eq_ok_iff.2 ⟨hnull, rfl⟩, h⟩

/-- A whole statement may be taken as a whole. -/
theorem takenWhole_of_isStatement {styles : List Path} (h : IsStatement q path)
    (hnull : (importPath file path).hasNull = false) : TakenWhole workingDir file styles q path q := by
  have hfound : wholeStatement? (statementText q path q ++ []) = some ((q, path), []) :=
    wholeStatement?_eq_some_iff.2 ⟨h, rfl⟩
  have hpass := replaceMatches_of_some (p := statementText q path q) (by simp [statementText])
    (m := fun t => (wholeStatement? t).map fun (s, rest) => (leftOf (isKnown workingDir file styles) s, rest))
    (by rw [hfound]; rfl)
  rw [List.append_nil, replaceMatches, List.append_nil] at hpass
  exact ⟨hnull, hpass⟩

/-- **Where no line has more than one statement,** the statements of known files are dropped and nothing else. -/
theorem stripKnownImports_of_single {content : Text} {styles : List Path}
    (hstyles : ∀ style ∈ styles, style.hasNull = false)
    (h : ∀ line ∈ lines content, ∀ before opening path closing after,
      IsWidest line before opening path closing after →
        closing = opening ∧ opening ∉ path ∧ (importPath file path).hasNull = false) :
    stripKnownImports workingDir content file styles =
      .ok (withoutKnown (isKnown workingDir file styles) content) := by
  refine stripKnownImports_eq_ok_iff.2 ⟨hstyles, fun line hline => ?_⟩
  have hfeed : '\n' ∉ line := (mem_splitOn hline).1
  refine (replaceFallibly_line_iff hfeed).2 fun before opening path closing after hwidest => ?_
  obtain ⟨rfl, hinside, hnull⟩ := h line hline before opening path closing after hwidest
  have hpath : '\n' ∉ path := fun hm => hfeed (by rw [hwidest.eq]; simp [statementText, hm])
  exact takenWhole_of_isStatement ⟨hwidest.opening, hinside, hpath⟩ hnull

example : stripKnownImports [] "@import \"a\";\n@import 'c';".toList (.ofText "/p/f.less".toList)
    [.ofText "/p/a.less".toList] = .ok "\n@import 'c';".toList := by
  decide +kernel

/-- **When exactly the import statements of known files are dropped,** and every other character is kept: no path
of a style file holds the null character, and on every line that has one, the widest statement may be taken as a
whole, either as one of a known file that holds whole statements of known files only, or as one that holds none
of them. -/
theorem stripKnownImports_eq_iff (workingDir : List Text) (content : Text) (file : Path) (styles : List Path) :
    stripKnownImports workingDir content file styles =
        .ok (withoutKnown (isKnown workingDir file styles) content) ↔
      (∀ style ∈ styles, style.hasNull = false) ∧
      ∀ line ∈ lines content, ∀ before opening path closing after,
        IsWidest line before opening path closing after →
          TakenWhole workingDir file styles opening path closing := by
  rw [stripKnownImports_eq_ok_iff]
  refine and_congr_right fun _ => forall₂_congr fun line hline => ?_
  exact replaceFallibly_line_iff (mem_splitOn hline).1

/-- **Of two statements on one line** none is dropped, though both files are known: what stands between the first
quote and the last one is read as one path. -/
theorem not_forall_stripKnownImports : ¬ ∀ (workingDir : List Text) (content : Text) (file : Path)
    (styles : List Path), (∀ style ∈ styles, style.hasNull = false) → file.hasNull = false → '\x00' ∉ content →
    stripKnownImports workingDir content file styles =
      .ok (withoutKnown (isKnown workingDir file styles) content) := by
  intro hall
  let file : Path := .ofText "/p/f.less".toList
  let styles : List Path := [.ofText "/p/a.less".toList, .ofText "/p/b.less".toList]
  have hdropped := hall [] "@import \"a\"; @import \"b\";".toList file styles (by decide) (by decide)
    (by decide)
  have hstays : stripKnownImports [] "@import \"a\"; @import \"b\";".toList file styles =
      .ok "@import \"a\"; @import \"b\";".toList := by
    decide +kernel
  have hblank : withoutKnown (isKnown [] file styles) "@import \"a\"; @import \"b\";".toList = [' '] := by
    decide +kernel
  rw [hstays, hblank] at hdropped
  exact absurd (Except.ok.inj hdropped) (by decide)

end Style
end ThemeSheet
