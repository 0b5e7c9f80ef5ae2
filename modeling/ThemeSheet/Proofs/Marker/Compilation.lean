/-
# Compiling the style sheet of markers

Behind whatever the color file compiles to, every rule of the style sheet compiles to
its class with a color: the marker itself, or the shade that the palette function
gives for the marker.
-/

import ThemeSheet.Proofs.Css.Comment
import ThemeSheet.Proofs.Less.Rule
import ThemeSheet.Proofs.Marker.Stylesheet

namespace ThemeSheet
namespace Marker

open Text Variable Less.Evaluator

/-! ### Shades in the rules -/

/-- What the value of a rule becomes: a color stays, and a call gives the color of the palette
function. -/
def Gives (defined : Table Text) (source v color : Text) : Prop :=
  (Color.IsValue v ∧ color = v) ∨ ∃ name n, v = paletteCall name (decimalDigits n) ∧
    (name ≠ [] ∧ ∀ c ∈ name, isNameChar c = true) ∧ n ∈ shadeNumbers ∧
      paletteColor defined source name (decimalDigits n) = .ok color

/-- Text in front of a call or a line's end is left alone. -/
theorem replacePaletteCalls_skip {defined : Table Text} {source p t : Text} {c : Char} (hp : '(' ∉ p)
    (hc : c ∉ paletteOpening) :
    replacePaletteCalls defined source (p ++ [c] ++ t) =
      (replacePaletteCalls defined source t).map (p ++ [c] ++ ·) :=
  replaceFallibly_skip fun s hs hsuffix => by rw [paletteCall?_skip hp hc s hs hsuffix]; rfl

/-- A rule up to the colon. -/
def ruleStart (name : Text) : Text :=
  ['.'] ++ bareName name ++ [' ', '\x7b', ' ', 'c', 'o', 'l', 'o', 'r', ':']

/-- A rule behind its value, with the line's end. -/
def ruleEnd : Text := [';', ' ', '\x7d']

/-- The first rule, written out. -/
theorem ruleLines_cons (name v : Text) (rules : List (Text × Text)) :
    ruleLines ((name, v) :: rules) =
      ruleStart name ++ [' '] ++ (v ++ (ruleEnd ++ ['\n'] ++ ruleLines rules)) := by
  rw [ruleLines, List.flatMap_cons, markerRule_eq]
  simp [ruleStart, ruleEnd, ruleLines]

/-- No bracket stands before the colon of a rule. -/
theorem notMem_ruleStart {name : Text} (h : IsVariable name) : '(' ∉ ruleStart name :=
  List.not_mem_append (List.not_mem_append (by decide)
    (notMem_of_isNameChar h.bareName_spec.2 (by decide))) (by decide)

/-- **The rules keep their classes and get their colors.** -/
theorem replacePaletteCalls_ruleLines {defined : Table Text} {source out : Text}
    {rules : List (Text × Text)} (h : ∀ e ∈ rules, IsVariable e.1 ∧ IsAsked e.2)
    (hout : replacePaletteCalls defined source (ruleLines rules) = .ok out) :
    ∃ results, out = ruleLines results ∧
      List.Forall₂ (fun e e' => e'.1 = e.1 ∧ Gives defined source e.2 e'.2) rules results := by
  induction rules generalizing out with
  | nil =>
    obtain rfl : [] = out := by simpa [ruleLines, replacePaletteCalls, replaceFallibly] using hout
    exact ⟨[], rfl, .nil⟩
  | cons e rules ih =>
    obtain ⟨name, v⟩ := e
    obtain ⟨hn, hv⟩ := h (name, v) (List.mem_cons_self ..)
    have hrules : ∀ e ∈ rules, IsVariable e.1 ∧ IsAsked e.2 :=
      fun e he => h e (List.mem_cons_of_mem _ he)
    have hstart := notMem_ruleStart hn
    rcases hv with hv | ⟨base, n, rfl, hne, hbase, hk⟩
    · have hline : ruleLines ((name, v) :: rules) =
          (ruleStart name ++ [' '] ++ v ++ ruleEnd) ++ ['\n'] ++ ruleLines rules := by
        rw [ruleLines_cons]
        simp
      have hopen : '(' ∉ ruleStart name ++ [' '] ++ v ++ ruleEnd :=
        List.not_mem_append (List.not_mem_append (List.not_mem_append hstart (by decide))
          (hv.notMem (by decide))) (by decide)
      rw [hline, replacePaletteCalls_skip hopen (by decide)] at hout
      obtain ⟨out', hout', rfl⟩ := Fallible.map_eq_ok.1 hout
      obtain ⟨results, rfl, hall⟩ := ih hrules hout'
      refine ⟨(name, v) :: results, ?_, .cons ⟨rfl, .inl ⟨hv, rfl⟩⟩ hall⟩
      rw [ruleLines_cons]
      simp
    · obtain ⟨hdne, hdigits, -⟩ := shadeNumbers_digits n hk
      have hfound := paletteCall?_paletteCall hne hbase hdne (fun c hc => (hdigits c hc).1)
        (ruleEnd ++ ['\n'] ++ ruleLines rules)
      have hcne : paletteCall base (decimalDigits n) ≠ [] := by
        rw [paletteCall_eq]
        simp [paletteEnd]
      have hreplaced : replacePaletteCalls defined source
          (paletteCall base (decimalDigits n) ++ (ruleEnd ++ ['\n'] ++ ruleLines rules)) =
          paletteColor defined source base (decimalDigits n) >>= fun x =>
            (replacePaletteCalls defined source (ruleEnd ++ ['\n'] ++ ruleLines rules)).map (x ++ ·) :=
        replaceFallibly_of_some hcne (by rw [hfound]; rfl)
      rw [ruleLines_cons, replacePaletteCalls_skip hstart (by decide), hreplaced] at hout
      obtain ⟨out₁, hout₁, rfl⟩ := Fallible.map_eq_ok.1 hout
      obtain ⟨color, hcolor, hout₂⟩ := Fallible.bind_eq_ok.1 hout₁
      rw [replacePaletteCalls_skip (by decide) (by decide)] at hout₂
      obtain ⟨out₂, hout₃, rfl⟩ := Fallible.map_eq_ok.1 hout₂
      obtain ⟨out₃, hout₄, rfl⟩ := Fallible.map_eq_ok.1 hout₃
      obtain ⟨results, rfl, hall⟩ := ih hrules hout₄
      refine ⟨(name, color) :: results, ?_,
        .cons ⟨rfl, .inr ⟨base, n, rfl, ⟨hne, hbase⟩, hk, hcolor⟩⟩ hall⟩
      rw [ruleLines_cons]

/-! ### The compiled rules -/

/-- The class of a name. -/
def selector (name : Text) : Text := '.' :: bareName name

/-- The compiled rules of names with colors. -/
def compiledLines (results : List (Text × Text)) : Text :=
  results.flatMap fun e => selector e.1 ++ compiledBlock e.2 ++ ['\n']

/-- The curly brackets are two. -/
theorem isCurly_iff {c : Char} : isCurly c = true ↔ c = '\x7b' ∨ c = '\x7d' := by
  simp [isCurly]

/-- The class of a variable holds neither blanks nor commas nor curly brackets. -/
theorem selector_spec {name : Text} (h : IsVariable name) :
    ∀ c ∈ selector name, isBlank c = false ∧ c ≠ ',' ∧ isCurly c = false := by
  intro c hc
  rcases List.mem_cons.1 hc with rfl | hc
  · decide
  · have hn := h.bareName_spec.2 c hc
    refine ⟨not_blank_of_isNameChar hn, ?_, ?_⟩
    · rintro rfl
      exact absurd hn (by decide)
    · by_contra hcurly
      rcases isCurly_iff.1 ((Bool.not_eq_false _).mp hcurly) with rfl | rfl <;>
        exact absurd hn (by decide)

/-- The declaration of a color holds no curly brackets. -/
theorem noCurly_colorBody {v : Text} (hv : Color.IsValue v) : ∀ c ∈ colorBody v, isCurly c = false := by
  intro c hc
  rcases List.mem_append.1 hc with hc | hc
  · rcases List.mem_append.1 hc with hc | hc
    · exact (by decide : ∀ c ∈ [' ', 'c', 'o', 'l', 'o', 'r', ':', ' '], isCurly c = false) c hc
    · by_contra hcurly
      rcases isCurly_iff.1 ((Bool.not_eq_false _).mp hcurly) with rfl | rfl <;>
        exact hv.notMem (by decide) hc
  · exact (by decide : ∀ c ∈ [';', ' '], isCurly c = false) c hc

/-- A rule is a class, a blank and a block with the declaration of its color. -/
theorem ruleLines_eq (name v : Text) (results : List (Text × Text)) :
    ruleLines ((name, v) :: results) =
      (selector name ++ [' ']) ++ '\x7b' :: (colorBody v ++ '\x7d' :: '\n' :: ruleLines results) := by
  rw [ruleLines_cons]
  simp [ruleStart, ruleEnd, selector, colorBody]

/-- What stands before the block of a rule holds no curly brackets. -/
theorem noCurly_selector {name : Text} (h : IsVariable name) :
    ∀ c ∈ selector name ++ [' '], isCurly c = false := by
  intro c hc
  rcases List.mem_append.1 hc with hc | hc
  · exact (selector_spec h c hc).2.2
  · rw [List.mem_singleton.1 hc]; decide

/-- Behind a line's end, every line is a rule. -/
theorem flatRules_ruleLines {results : List (Text × Text)}
    (h : ∀ e ∈ results, IsVariable e.1 ∧ Color.IsValue e.2) :
    flatRules ('\n' :: ruleLines results) =
      results.map fun e => ⟨['\n'] ++ (selector e.1 ++ [' ']), colorBody e.2⟩ := by
  induction results with
  | nil => exact flatRules_of_noCurly (by decide)
  | cons e results ih =>
    obtain ⟨name, v⟩ := e
    obtain ⟨hn, hv⟩ := h (name, v) (List.mem_cons_self ..)
    have hhead : ∀ c ∈ ['\n'] ++ (selector name ++ [' ']), isCurly c = false := by
      intro c hc
      rcases List.mem_append.1 hc with hc | hc
      · rw [List.mem_singleton.1 hc]; decide
      · exact noCurly_selector hn c hc
    have := flatRules_of_curlies hhead (noCurly_colorBody hv) (show isCurly '\x7b' = true by decide)
      (show isCurly '\x7d' = true by decide) ('\n' :: ruleLines results)
    rw [if_pos ⟨rfl, rfl, by simp⟩, ih fun e he => h e (List.mem_cons_of_mem _ he)] at this
    rw [List.map_cons, ← this, ruleLines_eq]
    simp

/-- **The compiled rules stand at the end of the compiled style sheet.** -/
theorem compiledLines_of_ok {defined : Table Text} {source body css : Text} {compiled : List Text}
    {results : List (Text × Text)} (hne : results ≠ [])
    (h : ∀ e ∈ results, IsVariable e.1 ∧ Color.IsValue e.2)
    (hcompiled : (flatRules (body ++ ruleLines results)).mapM (compiledRule defined source) =
      .ok compiled)
    (hcss : css = join ['\n'] compiled ++ ['\n']) :
    ∃ before, css = before ++ compiledLines results := by
  obtain ⟨⟨name, v⟩, results, rfl⟩ := List.exists_cons_of_ne_nil hne
  obtain ⟨hn, hv⟩ := h (name, v) (List.mem_cons_self ..)
  have hrest : ∀ e ∈ results, IsVariable e.1 ∧ Color.IsValue e.2 :=
    fun e he => h e (List.mem_cons_of_mem _ he)
  have hselector : ∀ c ∈ selector name, isBlank c = false ∧ c ≠ ',' :=
    fun c hc => ⟨(selector_spec hn c hc).1, (selector_spec hn c hc).2.1⟩
  obtain ⟨rules, junk, hrules⟩ :=
    flatRules_append (noCurly_selector hn) (by simp) (noCurly_colorBody hv) body
      ('\n' :: ruleLines results)
  rw [ruleLines_eq, hrules, flatRules_ruleLines hrest, List.mapM_append] at hcompiled
  obtain ⟨front, -, hcompiled⟩ := Fallible.bind_eq_ok.1 hcompiled
  obtain ⟨last, hlast, hcompiled⟩ := Fallible.bind_eq_ok.1 hcompiled
  obtain rfl := Except.ok.inj hcompiled
  obtain ⟨first, lines, hfirst, hlines, rfl⟩ :=
    List.forall₂_cons_left_iff.1 (Fallible.mapM_eq_ok.1 hlast)
  -- the first rule of the markers may have text of the color file before its selector
  obtain ⟨before, hbefore⟩ := compiledRule_color defined source hv hselector
    (by simp [selector]) junk
  obtain rfl := Except.ok.inj (hbefore.symm.trans hfirst)
  have hlines' : lines = results.map fun e => selector e.1 ++ compiledBlock e.2 := by
    rw [← Fallible.mapM_eq_ok, List.mapM_map] at hlines
    refine (Except.ok.inj ((Fallible.mapM_of_forall fun e he => ?_).symm.trans hlines)).symm
    obtain ⟨hn', hv'⟩ := hrest e he
    exact compiledRule_color_line hv'
      (fun c hc => ⟨(selector_spec hn' c hc).1, (selector_spec hn' c hc).2.1⟩)
      (by simp [selector])
  refine ⟨front.flatMap (· ++ ['\n']) ++ before, ?_⟩
  rw [hcss, join_append ['\n'] front (by simp), List.append_assoc, join_end ['\n'] (by simp), hlines',
    List.flatMap_cons, List.flatMap_map, compiledLines, List.flatMap_cons]
  simp

end Marker
end ThemeSheet
