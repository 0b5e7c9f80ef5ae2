/-
# Rules behind a text

Whatever stands in front of a rule, the rule is found and compiled: its block is
read as it is, and the last of its selectors is the one written in front of it.
-/

import ThemeSheet.Proofs.Less.Definition
import ThemeSheet.Proofs.Less.Value
import ThemeSheet.Proofs.Text.Split

namespace ThemeSheet
namespace Less
namespace Evaluator

open Text

/-! ### Finding rules -/

/-- A text without braces has no rules. -/
theorem flatRules_of_noCurly {t : Text} (h : ∀ c ∈ t, isCurly c = false) : flatRules t = [] := by
  have hd : t.dropWhile (!isCurly ·) = [] := List.dropWhile_eq_nil_iff.2 fun c hc => by simp [h c hc]
  unfold flatRules
  split
  · rfl
  · next c rest hr => rw [hd] at hr; simp at hr

/-- A text is without curly brackets, or has a first one. -/
theorem curly_cases (t : Text) :
    (∀ c ∈ t, isCurly c = false) ∨
      ∃ front c rest, t = front ++ c :: rest ∧ (∀ d ∈ front, isCurly d = false) ∧ isCurly c = true := by
  induction t with
  | nil => exact .inl (by simp)
  | cons c t ih =>
    cases hc : isCurly c with
    | true => exact .inr ⟨[], c, t, rfl, by simp, hc⟩
    | false =>
      rcases ih with h | ⟨front, d, rest, rfl, hf, hd⟩
      · exact .inl (by simpa [hc] using h)
      · exact .inr ⟨c :: front, d, rest, rfl, by simpa [hc] using hf, hd⟩

/-- A text is cut at its first brace. -/
theorem takeWhile_noCurly {front : Text} (hf : ∀ d ∈ front, isCurly d = false) {c : Char}
    (hc : isCurly c = true) (rest : Text) :
    (front ++ c :: rest).takeWhile (!isCurly ·) = front ∧
      (front ++ c :: rest).dropWhile (!isCurly ·) = c :: rest := by
  have hall : ∀ d ∈ front, (!isCurly d) = true := fun d hd => by simp [hf d hd]
  have hstop : ∀ d, (c :: rest).head? = some d → (!isCurly d) = false := fun d hd => by
    simp [← Option.some.inj hd, hc]
  exact ⟨takeWhile_run hall hstop, dropWhile_run hall hstop⟩

/-- **What follows from two curly brackets in a row:** a rule if they are a block, and else a search
that goes on behind the first. -/
theorem flatRules_of_curlies {head body : Text} {c d : Char} (hh : ∀ e ∈ head, isCurly e = false)
    (hb : ∀ e ∈ body, isCurly e = false) (hc : isCurly c = true) (hd : isCurly d = true)
    (after : Text) :
    flatRules (head ++ c :: (body ++ d :: after)) =
      if c = '\x7b' ∧ d = '\x7d' ∧ head ≠ [] then ⟨head, body⟩ :: flatRules after
      else flatRules (body ++ d :: after) := by
  obtain ⟨ht, hdrop⟩ := takeWhile_noCurly hh hc (body ++ d :: after)
  obtain ⟨ht', hdrop'⟩ := takeWhile_noCurly hb hd after
  conv => lhs; unfold flatRules
  split
  · next h => rw [hdrop] at h; simp at h
  · next c' rest h =>
    obtain ⟨rfl, rfl⟩ := List.cons.inj (hdrop.symm.trans h)
    split
    · next after' h' =>
      obtain ⟨rfl, rfl⟩ := List.cons.inj (hdrop'.symm.trans h')
      rw [ht, ht']
      simp
    · next h' =>
      have hne : ¬ d = '\x7d' := fun he => h' after (he ▸ hdrop')
      rw [if_neg fun hn => hne hn.2.1]

/-- **A rule is found behind any text,** with what is left of that text before its selectors. -/
theorem flatRules_append {head body : Text} (hh : ∀ e ∈ head, isCurly e = false) (hne : head ≠ [])
    (hb : ∀ e ∈ body, isCurly e = false) (t after : Text) :
    ∃ rules junk, flatRules (t ++ (head ++ '\x7b' :: (body ++ '\x7d' :: after))) =
      rules ++ ⟨junk ++ head, body⟩ :: flatRules after := by
  have hopen : isCurly '\x7b' = true := by decide
  have hclose : isCurly '\x7d' = true := by decide
  induction hlen : t.length using Nat.strongRecOn generalizing t with
  | _ n ih =>
    subst hlen
    rcases curly_cases t with ht | ⟨front, c, rest, rfl, hf, hc⟩
    · refine ⟨[], t, ?_⟩
      have hboth : ∀ e ∈ t ++ head, isCurly e = false :=
        fun e he => (List.mem_append.1 he).elim (ht e) (hh e)
      rw [← List.append_assoc, flatRules_of_curlies hboth hb hopen hclose after,
        if_pos ⟨rfl, rfl, by simp [hne]⟩]
      rfl
    · rcases curly_cases rest with hr | ⟨mid, d, rest, rfl, hm, hd⟩
      · -- the bracket is followed by the opening one of the rule
        have hboth : ∀ e ∈ rest ++ head, isCurly e = false :=
          fun e he => (List.mem_append.1 he).elim (hr e) (hh e)
        obtain ⟨rules, junk, hrules⟩ := ih rest.length (by simp; omega) rest rfl
        refine ⟨rules, junk, ?_⟩
        have := flatRules_of_curlies hf hboth hc hopen (body ++ '\x7d' :: after)
        rw [if_neg fun hn => absurd hn.2.1 (by decide)] at this
        rw [← hrules, List.append_assoc, List.cons_append, ← List.append_assoc rest, this]
      · have := flatRules_of_curlies hf hm hc hd (rest ++ (head ++ '\x7b' :: (body ++ '\x7d' :: after)))
        rw [show front ++ c :: (mid ++ d :: rest) ++ (head ++ '\x7b' :: (body ++ '\x7d' :: after)) =
          front ++ c :: (mid ++ d :: (rest ++ (head ++ '\x7b' :: (body ++ '\x7d' :: after))))
            by simp, this]
        split
        · obtain ⟨rules, junk, hrules⟩ := ih rest.length (by simp; omega) rest rfl
          exact ⟨_ :: rules, junk, by rw [hrules]; rfl⟩
        · obtain ⟨rules, junk, hrules⟩ :=
            ih (mid ++ d :: rest).length (by simp; omega) (mid ++ d :: rest) rfl
          exact ⟨rules, junk, by rw [← hrules]; simp⟩

/-! ### Compiling a rule -/

/-- The declaration of a color as it is written in a block. -/
def colorBody (value : Text) : Text := [' ', 'c', 'o', 'l', 'o', 'r', ':', ' '] ++ value ++ [';', ' ']

/-- The block with a color as it is compiled. -/
def compiledBlock (value : Text) : Text :=
  [' ', '\x7b', '\n', ' ', ' ', 'c', 'o', 'l', 'o', 'r', ':', ' '] ++ value ++ [';', '\n', '\x7d']

/-- **A color is compiled to itself.** -/
theorem computed_of_isValue {defined : Table Text} {source v : Text} (hv : Color.IsValue v) :
    computed defined source (' ' :: v) = .ok v := by
  have hstrip : strip (' ' :: v) = v := by
    have hne : v ≠ [] := by
      obtain ⟨w, rfl, -⟩ := hv
      simp
    simpa using strip_append (a := [' ']) (b := []) (by decide)
      (fun c hc => hv.not_blank hc) hne (by simp)
  refine Fallible.bind_eq_ok.2 ⟨v, ?_, Fallible.bind_eq_ok.2 ⟨v, ?_, ?_⟩⟩
  · rw [hstrip]
    exact substitute_of_notMem (hv.notMem (by decide)) _
  · exact replaceFades_of_notMem (hv.notMem (by decide))
  · rw [lowerColors_of_isValue hv]
    rfl

/-- A rule that sets a color to a value is printed with that value. -/
theorem declarationLines_color {defined : Table Text} {source v : Text} (hv : Color.IsValue v) :
    declarationLines defined source (colorBody v) =
      .ok [[' ', ' ', 'c', 'o', 'l', 'o', 'r', ':', ' '] ++ v ++ [';']] := by
  have hsplit : splitOn ';' (colorBody v) = [[' ', 'c', 'o', 'l', 'o', 'r', ':', ' '] ++ v, [' ']] := by
    have hnone : ';' ∉ [' ', 'c', 'o', 'l', 'o', 'r', ':', ' '] ++ v :=
      fun hm => (List.mem_append.1 hm).elim (by decide) (hv.notMem (by decide))
    rw [colorBody, splitOn_append hnone]
    rfl
  have hcut : cutAt? [':'] ([' ', 'c', 'o', 'l', 'o', 'r', ':', ' '] ++ v) =
      some ([' ', 'c', 'o', 'l', 'o', 'r'], ' ' :: v) := rfl
  have hproperty : strip [' ', 'c', 'o', 'l', 'o', 'r'] = ['c', 'o', 'l', 'o', 'r'] := by decide
  rw [declarationLines, hsplit]
  refine Fallible.bind_eq_ok.2
    ⟨[some ([' ', ' ', 'c', 'o', 'l', 'o', 'r', ':', ' '] ++ v ++ [';']), none], ?_, rfl⟩
  rw [Fallible.mapM_eq_ok]
  refine .cons ?_ (.cons rfl .nil)
  rw [hcut]
  refine Fallible.bind_eq_ok.2 ⟨v, computed_of_isValue hv, ?_⟩
  rw [hproperty]
  rfl

/-- **A rule with a color is compiled to a text that ends with its last selector and the color.** -/
theorem compiledRule_color (defined : Table Text) (source : Text) {v selector : Text}
    (hv : Color.IsValue v) (hs : ∀ c ∈ selector, isBlank c = false ∧ c ≠ ',') (hne : selector ≠ [])
    (junk : Text) :
    ∃ before, compiledRule defined source ⟨junk ++ (selector ++ [' ']), colorBody v⟩ =
      .ok (before ++ selector ++ compiledBlock v) := by
  have hcomma : ',' ∉ selector ++ [' '] := by
    intro hm
    rcases List.mem_append.1 hm with hm | hm
    · exact (hs _ hm).2 rfl
    · exact absurd hm (by decide)
  obtain ⟨front, piece, hsplit⟩ := splitOn_append_last hcomma junk
  obtain ⟨piece', hstrip⟩ := strip_append_last (fun c hc => (hs c hc).1) hne
    (b := [' ']) (by decide) piece
  rw [List.append_assoc] at hstrip
  have hjoin := join_append ",\n".toList (front.map strip) (l := [piece' ++ selector]) (by simp)
  refine ⟨(front.map strip).flatMap (· ++ ",\n".toList) ++ piece', ?_⟩
  refine Fallible.bind_eq_ok.2 ⟨_, declarationLines_color hv, congrArg Except.ok ?_⟩
  rw [hsplit, List.map_append, List.map_singleton, hstrip, hjoin]
  simp [join, compiledBlock]

/-- A rule that stands alone on its line is compiled to its selector and the color. -/
theorem compiledRule_color_line {defined : Table Text} {source v selector : Text} (hv : Color.IsValue v)
    (hs : ∀ c ∈ selector, isBlank c = false ∧ c ≠ ',') (hne : selector ≠ []) :
    compiledRule defined source ⟨['\n'] ++ (selector ++ [' ']), colorBody v⟩ =
      .ok (selector ++ compiledBlock v) := by
  have hcomma : ',' ∉ ['\n'] ++ (selector ++ [' ']) := by
    intro hm
    rcases List.mem_append.1 hm with hm | hm
    · exact absurd hm (by decide)
    · rcases List.mem_append.1 hm with hm | hm
      · exact (hs _ hm).2 rfl
      · exact absurd hm (by decide)
  have hstrip : strip (['\n'] ++ (selector ++ [' '])) = selector := by
    rw [← List.append_assoc]
    exact strip_append (by decide) (fun c hc => (hs c hc).1) hne (by decide)
  refine Fallible.bind_eq_ok.2 ⟨_, declarationLines_color hv, congrArg Except.ok ?_⟩
  rw [splitOn_of_notMem hcomma, List.map_singleton, hstrip]
  simp [join, compiledBlock]

end Evaluator
end Less
end ThemeSheet
