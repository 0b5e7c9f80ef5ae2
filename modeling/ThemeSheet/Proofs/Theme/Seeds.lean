/-
# The theme does not depend on the colors drawn for it

The markers of the variables and the colors of the library's calls are drawn.  When
everything is compiled, a run has a style sheet in which colors stand for variables
and calls, and a palette that says for which.  Where the colors can be told apart,
the restored styles are what a single reading of the style sheet makes of it, so two
runs with different draws restore the same styles exactly when their style sheets
read the same, and then their themes are equal.  A text that the compiler has
computed from a drawn color and that the palette does not know is read as it stands
and differs from run to run: a fade by the value of a variable is such a text.
-/

import ThemeSheet.Less.Evaluator
import ThemeSheet.Proofs.Fade.Computed
import ThemeSheet.Proofs.Theme.Passes
import ThemeSheet.Proofs.Theme.Sharing
import ThemeSheet.Proofs.Theme.Substitution

namespace ThemeSheet
namespace Theme

open Recorded Text

/-- What is known when everything is compiled. -/
structure Compiled where
  known : Variable.Collection
  names : List Text
  discovered : Table Text
  fades : FadeMap
  css : Text

/-- The theme of the sources, up to the last answer of the compiler. -/
def compileStyles (o : Options) (tree : FileTree) (compiler : Compiler) (draws : Color.Draws)
    (s : Sources) : Recorded Compiled := do
  let known ← liftM (n := Recorded) (o.collection tree s.packages)
  let file ← liftM (n := Recorded) o.variablesPath
  let names := known.themeVariables (← liftM (n := Recorded) (o.themeVariables.toList "theme_variables"))
  Recorded.tell (.themeVariables names)
  let (markers, rest) ← liftM (n := Recorded) (MarkerAssignment.ofVariables names draws)
  let colorFile ← liftM (n := Recorded) (Less.bundle tree s.packages (s.antd.child "style/color/colors.less".toList))
  let discovered ← Marker.compile compiler colorFile markers
    ((s.antd.child "style".toList).written :: s.styleDirs) names
  let custom ← Style.compileAll compiler
    ⟨tree.workingDir, s.styles, file, discovered, s.antd.written :: s.styleDirs⟩ s.contents
  let target ← liftM (n := Recorded) o.targetFile
  let library ← liftM (n := Recorded) (Less.bundle tree s.packages target)
  let collected ← liftM (n := Recorded)
    ((FadeMap.start rest (markers.owners.keys ++ discovered.values)).collect library)
  let fades := s.contents.foldl FadeMap.observe collected
  let source := fades.substitute (library ++ '\n' :: themeValues names discovered)
  let compiled ← liftM (n := Recorded)
    (← Recorded.ask compiler ⟨source, [s.antd.written, target.parent.written], some target.written⟩)
  pure ⟨known, names, discovered, fades, compiled ++ '\n' :: custom⟩

namespace Compiled

/-- The compiled styles, written in terms of variables and calls. -/
def restored (c : Compiled) : Except Fault Text := do
  let known := Discovered.ofColors c.discovered
  let restored ← c.fades.restore (← Css.prune c.css) known
  pure (substituteVariables restored known)

/-- The theme of the restored styles. -/
def finish (c : Compiled) (tree : FileTree) (s : Sources) (t : Text) : Except Fault Text := do
  let defaults ← Less.bundle tree s.packages (Options.defaultTheme s.antd)
  let defined ← prependDefinitions c.known
    (strip (replaceAll browserMark [] (dropLeftovers t)) ++ '\n' :: defaults) c.names
  pure (Css.minify defined)

end Compiled

/-- **The theme is built in two parts:** the draws count only in the first one. -/
theorem build_eq (o : Options) (tree : FileTree) (compiler : Compiler) (draws : Color.Draws)
    (s : Sources) : build o tree compiler draws s =
      compileStyles o tree compiler draws s >>= fun c => liftM (n := Recorded) (c.restored >>= c.finish tree s) := by
  unfold build compileStyles
  simp only [bind_assoc, pure_bind, abstracted, Compiled.restored, Compiled.finish, lift_bind, lift_pure]

/-! ### What is known when everything is compiled -/

variable {o : Options} {tree : FileTree} {compiler : Compiler} {draws : Color.Draws} {s : Sources}
    {c : Compiled} {j j' : Journal}

/-- The names that are read back are names of variables. -/
theorem isReference_of_compile {file : Text} {m : MarkerAssignment} {paths names : List Text}
    {discovered : Table Text}
    (h : perform (Marker.compile compiler file m paths names) j = (.ok discovered, j')) :
    ∀ e ∈ discovered.entries, Variable.isReference e.1 = true := by
  obtain ⟨sheet, j₁, -, h⟩ := perform_bind_eq_ok.1 h
  obtain ⟨answer, j₂, -, h⟩ := perform_bind_eq_ok.1 h
  split at h
  · obtain ⟨h, -⟩ := Prod.mk.inj h
    obtain rfl := Except.ok.inj h
    exact fun e he => Discovered.isReference_of_discover he
  · obtain ⟨-, j₃, -, h⟩ := perform_bind_eq_ok.1 h
    obtain ⟨h, -⟩ := Prod.mk.inj h
    obtain rfl := Except.ok.inj h
    exact fun e he => absurd he List.not_mem_nil
  · exact absurd (Prod.mk.inj h).1 (by simp)

/-- **What does not depend on the draws, and what is known of the rest.** -/
theorem compileStyles_spec (h : perform (compileStyles o tree compiler draws s) j = (.ok c, j')) :
    o.collection tree s.packages = .ok c.known ∧
      (∃ asked, o.themeVariables.toList "theme_variables" = .ok asked ∧
        c.names = c.known.themeVariables asked) ∧
      (∀ e ∈ c.discovered.entries, Variable.isReference e.1 = true) ∧
      ∀ e ∈ c.fades.sentinels.entries, Fade.IsCall e.1 ∧ Color.Drawn e.2 := by
  obtain ⟨known, j₁, hknown, h⟩ := perform_bind_eq_ok.1 h
  obtain ⟨file, j₂, -, h⟩ := perform_bind_eq_ok.1 h
  obtain ⟨asked, j₃, hasked, h⟩ := perform_bind_eq_ok.1 h
  obtain ⟨-, j₄, -, h⟩ := perform_bind_eq_ok.1 h
  obtain ⟨⟨markers, rest⟩, j₅, -, h⟩ := perform_bind_eq_ok.1 h
  obtain ⟨colorFile, j₆, -, h⟩ := perform_bind_eq_ok.1 h
  obtain ⟨discovered, j₇, hdiscovered, h⟩ := perform_bind_eq_ok.1 h
  obtain ⟨custom, j₈, -, h⟩ := perform_bind_eq_ok.1 h
  obtain ⟨target, j₉, -, h⟩ := perform_bind_eq_ok.1 h
  obtain ⟨library, j₁₀, -, h⟩ := perform_bind_eq_ok.1 h
  obtain ⟨collected, j₁₁, hcollected, h⟩ := perform_bind_eq_ok.1 h
  obtain ⟨answer, j₁₂, -, h⟩ := perform_bind_eq_ok.1 h
  obtain ⟨compiled, j₁₃, -, h⟩ := perform_bind_eq_ok.1 h
  obtain ⟨h, -⟩ := Prod.mk.inj h
  obtain rfl := Except.ok.inj h
  have hsound := FadeMap.sound_collect (perform_lift_eq_ok.1 hcollected).1
  refine ⟨(perform_lift_eq_ok.1 hknown).1, ⟨asked, (perform_lift_eq_ok.1 hasked).1, rfl⟩,
    isReference_of_compile hdiscovered, fun e he => ?_⟩
  rw [FadeMap.sentinels_foldl_observe] at he
  exact ⟨(hsound.call e he).1, hsound.color e he⟩

/-! ### The palette of a run -/

namespace Palette

/-- The colors of a run: those drawn for calls, the computed ones, and those of variables. -/
def ofRun (f : FadeMap) (computed : Table Text) (d : Discovered) : Palette :=
  f.sentinels.entries.map (fun e => (.drawn e.1, e.2)) ++
    (computed.entries.map (fun e => (.computed e.2, e.1)) ++
      d.entries.filterMap fun e => e.2.map (.discovered e.1, ·))

variable {f : FadeMap} {computed : Table Text} {d : Discovered}

/-- **Restoring a style sheet is a pass for every color of the palette.** -/
theorem restore_eq (hd : d.SixDigit) (hc : f.derived d = .ok computed) (t : Text) :
    (f.restore t d).map (substituteVariables · d) =
      .ok ((ofRun f computed d).foldl StandIn.pass t) := by
  have hvariables (u : Text) : substituteVariables u d =
      (d.entries.filterMap fun e => e.2.map (StandIn.discovered e.1, ·)).foldl StandIn.pass u := by
    rw [hd.substituteVariables_eq, Discovered.references, List.foldl_filterMap, List.foldl_filterMap]
    refine congrArg (fun g => d.entries.foldl g u) ?_
    funext u e
    cases e.2 <;> rfl
  rw [FadeMap.restore, hc, ofRun, List.foldl_append, List.foldl_append, List.foldl_map,
    List.foldl_map, ← hvariables]
  rfl

/-- A color of a run was drawn for a call, or computed, or is that of a variable. -/
theorem mem_ofRun {e : StandIn × Text} (he : e ∈ ofRun f computed d) :
    (∃ e' ∈ f.sentinels.entries, e = (.drawn e'.1, e'.2)) ∨
      (∃ e' ∈ computed.entries, e = (.computed e'.2, e'.1)) ∨
      ∃ e' ∈ d.entries, ∃ color, e'.2 = some color ∧ e = (.discovered e'.1, color) := by
  rw [ofRun, List.mem_append, List.mem_append] at he
  rcases he with he | he | he
  · obtain ⟨e', he', rfl⟩ := List.mem_map.1 he
    exact .inl ⟨e', he', rfl⟩
  · obtain ⟨e', he', rfl⟩ := List.mem_map.1 he
    exact .inr (.inl ⟨e', he', rfl⟩)
  · obtain ⟨e', he', h⟩ := List.mem_filterMap.1 he
    obtain ⟨color, hcolor, rfl⟩ := Option.map_eq_some_iff.1 h
    exact .inr (.inr ⟨e', he', color, hcolor, rfl⟩)

/-- The colors drawn for calls are colors of the run. -/
theorem mem_ofRun_drawn {e : Text × Text} (he : e ∈ f.sentinels.entries) :
    (.drawn e.1, e.2) ∈ ofRun f computed d :=
  List.mem_append_left _ (List.mem_map_of_mem he)

/-- The colors of variables are colors of the run. -/
theorem mem_ofRun_discovered {colors : Table Text} {e : Text × Text} (he : e ∈ colors.entries) :
    (.discovered e.1, e.2) ∈ ofRun f computed (.ofColors colors) := by
  refine List.mem_append_right _ (List.mem_append_right _ (List.mem_filterMap.2 ⟨(e.1, some e.2), ?_, rfl⟩))
  have hkeys : ((colors.entries.map fun e => (e.1, some e.2)).map Prod.fst).Nodup := by
    rw [List.map_map]
    exact colors.nodup
  have hperm := @Table.ofList_append_perm _ [] _ hkeys (by simp)
  exact hperm.mem_iff.2 (List.mem_map_of_mem he)

/-- **The palette of a run is sound** if none of its colors occurs in a call. -/
theorem sound_ofRun
    (hf : ∀ e ∈ f.sentinels.entries, Fade.IsCall e.1 ∧ Color.Drawn e.2) (hd : d.SixDigit)
    (hc : f.derived d = .ok computed)
    (ha : ∀ e ∈ ofRun f computed d, ∀ e' ∈ ofRun f computed d, e'.1.isCall = true →
      e.1.occurs e.2 e'.1.written = false) : (ofRun f computed d).Sound where
  color e he := by
    rcases mem_ofRun he with ⟨e', he', rfl⟩ | ⟨e', he', rfl⟩ | ⟨e', he', color, hcolor, rfl⟩
    · exact (hf e' he').2.six
    · exact (FadeMap.isComputed_of_derived hc e' he').1
    · have hsix := hd.color e' he'
      rw [hcolor] at hsix
      exact hsix
  written e he := by
    rcases mem_ofRun he with ⟨e', he', rfl⟩ | ⟨e', he', rfl⟩ | ⟨e', he', color, hcolor, rfl⟩
    · exact (hf e' he').1
    · exact (FadeMap.isComputed_of_derived hc e' he').2
    · exact referenceTo_inert (hd.name e' he')
  absent := ha
  order := by
    refine List.pairwise_append.2 ⟨?_, List.pairwise_append.2 ⟨?_, ?_, ?_⟩, ?_⟩
    · exact List.pairwise_map.2 (List.pairwise_of_forall fun _ _ _ => rfl)
    · exact List.pairwise_map.2 (List.pairwise_of_forall fun _ _ _ => rfl)
    · refine List.pairwise_filterMap.2 (List.pairwise_of_forall fun a b => ?_)
      rintro e - e' he' hcomputed
      obtain ⟨color, -, rfl⟩ := Option.map_eq_some_iff.1 he'
      exact Bool.noConfusion hcomputed
    · rintro e he e' - -
      obtain ⟨_, -, rfl⟩ := List.mem_map.1 he
      rfl
    · rintro e he e' - -
      obtain ⟨_, -, rfl⟩ := List.mem_map.1 he
      rfl

end Palette

namespace Compiled

/-- The palette of the run. -/
def palette (c : Compiled) (computed : Table Text) : Palette :=
  .ofRun c.fades computed (.ofColors c.discovered)

/-- What a single reading makes of a style sheet of the run. -/
def reading (c : Compiled) (computed : Table Text) (t : Text) : Text :=
  writeOut ((c.palette computed).read t)

/-- **A run whose colors can be told apart:** its style sheet is pruned without a fault, calls are
recognised by their computed texts, variables have colors in digits, no color of the palette occurs
in a call, and none stands directly behind a digit. -/
structure Legible (c : Compiled) (computed : Table Text) (t : Text) : Prop where
  pruned : Css.prune c.css = .ok t
  recognised : c.fades.derived (.ofColors c.discovered) = .ok computed
  six : ∀ e ∈ c.discovered.entries, Color.isSixDigit e.2 = true
  absent : ∀ e ∈ c.palette computed, ∀ e' ∈ c.palette computed, e'.1.isCall = true →
    e.1.occurs e.2 e'.1.written = false
  apart : isApart false ((c.palette computed).read t) = true

/-- **A legible style sheet is restored to what a single reading makes of it,** and no drawn color and
no color of a variable is left. -/
theorem Legible.restored_eq {computed : Table Text} {t : Text} (h : c.Legible computed t)
    (hc : perform (compileStyles o tree compiler draws s) j = (.ok c, j')) :
    c.restored = .ok (c.reading computed t) ∧
      ∀ color ∈ c.fades.sentinels.values ++ c.discovered.values,
        occursAnyCase color (c.reading computed t) = false := by
  obtain ⟨-, -, hnames, hsentinels⟩ := compileStyles_spec hc
  have hd := Discovered.sixDigit_ofColors hnames h.six
  have hp : (c.palette computed).Sound := Palette.sound_ofRun hsentinels hd h.recognised h.absent
  obtain ⟨hpasses, hleft⟩ := Palette.foldl_pass_eq hp h.apart
  constructor
  · have hrestore := Palette.restore_eq hd h.recognised t
    rw [reading, ← hpasses, restored, h.pruned]
    exact hrestore
  · intro color hm
    obtain ⟨e, he, hdigits, rfl⟩ : ∃ e ∈ c.palette computed, e.1.isComputed = false ∧ e.2 = color := by
      rcases List.mem_append.1 hm with hm | hm
      · obtain ⟨e, he, rfl⟩ := List.mem_map.1 hm
        exact ⟨_, Palette.mem_ofRun_drawn he, rfl, rfl⟩
      · obtain ⟨e, he, rfl⟩ := List.mem_map.1 hm
        exact ⟨_, Palette.mem_ofRun_discovered he, rfl, rfl⟩
    have hsix := hp.color e he
    rw [StandIn.HasColor, hdigits, if_neg Bool.false_ne_true] at hsix
    exact StandIn.occursAnyCase_of_occurs hdigits hsix (hleft e he hdigits)

/-- The reading of a run that is legible. -/
def reading? (c : Compiled) : Option Text :=
  match Css.prune c.css, c.fades.derived (.ofColors c.discovered) with
  | .ok t, .ok computed =>
    let p := c.palette computed
    if (c.discovered.entries.all fun e => Color.isSixDigit e.2) ∧
        (p.all fun e => p.all fun e' => !(e'.1.isCall && e.1.occurs e.2 e'.1.written)) ∧
        isApart false (p.read t)
    then some (c.reading computed t) else none
  | _, _ => none

/-- A run with a reading is legible. -/
theorem exists_legible {r : Text} (h : c.reading? = some r) :
    ∃ computed t, c.Legible computed t ∧ c.reading computed t = r := by
  unfold reading? at h
  split at h
  · next t computed hprune hderived =>
    obtain ⟨⟨hsix, habsent, hapart⟩, h⟩ := Option.ite_none_right_eq_some.1 h
    refine ⟨computed, t, ⟨hprune, hderived, List.all_eq_true.1 hsix, fun e he e' he' hcall => ?_, hapart⟩,
      Option.some.inj h⟩
    have hpair := List.all_eq_true.1 (List.all_eq_true.1 habsent e he) e' he'
    rw [hcall, Bool.true_and, Bool.not_eq_true'] at hpair
    exact hpair
  · simp at h

end Compiled

/-- What is generated with an empty cache is what is built. -/
theorem generate_css (hs : o.sources tree = .ok s) :
    (generate o tree (.ok compiler) draws .empty).css =
      (perform (build o tree compiler draws s) .empty).1.toOption.getD [] := by
  simp only [generate, hs]
  exact (Call.finish_spec ⟨o, tree, .ok compiler, draws⟩ .empty compiler s).1

/-- **Two runs restore the same styles exactly when these read the same,** and then they give the same
theme, whatever colors were drawn for them; none of these colors is left in the restored styles. -/
theorem generate_css_eq_of_reading_eq {draws' : Color.Draws} {c' : Compiled}
    {computed computed' : Table Text} {t t' : Text} {j₁ j₂ : Journal}
    (hs : o.sources tree = .ok s)
    (hc : perform (compileStyles o tree compiler draws s) .empty = (.ok c, j₁))
    (hc' : perform (compileStyles o tree compiler draws' s) .empty = (.ok c', j₂))
    (h : c.Legible computed t) (h' : c'.Legible computed' t') :
    (c.restored = c'.restored ↔ c.reading computed t = c'.reading computed' t') ∧
      (c.reading computed t = c'.reading computed' t' →
        (generate o tree (.ok compiler) draws .empty).css =
          (generate o tree (.ok compiler) draws' .empty).css) ∧
      ∃ restored, c.restored = .ok restored ∧
        ∀ color ∈ c.fades.sentinels.values ++ c.discovered.values,
          occursAnyCase color restored = false := by
  obtain ⟨hrestored, hleft⟩ := h.restored_eq hc
  obtain ⟨hrestored', -⟩ := h'.restored_eq hc'
  refine ⟨by rw [hrestored, hrestored', Except.ok.injEq], fun hread => ?_, _, hrestored, hleft⟩
  obtain ⟨hknown, ⟨asked, hasked, hnames⟩, -, -⟩ := compileStyles_spec hc
  obtain ⟨hknown', ⟨asked', hasked', hnames'⟩, -, -⟩ := compileStyles_spec hc'
  obtain rfl := Except.ok.inj (hasked.symm.trans hasked')
  have hsame : c.known = c'.known := Except.ok.inj (hknown.symm.trans hknown')
  have hfinish : c.finish tree s = c'.finish tree s := by
    funext u
    rw [Compiled.finish, Compiled.finish, hnames, hnames', hsame]
  rw [generate_css hs, generate_css hs, build_eq, build_eq, perform_bind, perform_bind, hc, hc']
  simp only [perform_lift, hrestored, hrestored', hread, hfinish]

/-- A library with one theme variable, and an application with one style file. -/
def fadedTree (library style : String) : FileTree :=
  let file (tree : FileTree) (name content : String) : FileTree :=
    tree.addFile (.ofText name.toList) content.toUTF8.toList
  file (file (file smallTree "/a/lib/style/themes/default.less" "@info-color: #0f0;\n")
    "/a/dist/antd.less" library) "/s/a.less" style

/-- The variable of the library is to be switchable. -/
def fadedOptions : Options :=
  ⟨.given "/a".toList, .many ["/s".toList], .absent, .absent, .many ["@info-color".toList], .absent, []⟩

/-- Library and application fade the variable by written percentages. -/
def writtenFades : FileTree :=
  fadedTree ".b \x7b color: fade(@info-color, 50%); \x7d" ".x \x7b color: fade(@info-color, 20%); \x7d"

/-- A run with the given numbers: what it reads, and the style sheet that it reads. -/
def writtenRun (numbers : List Int) (s : Sources) : Option (Text × Text) :=
  (perform (compileStyles fadedOptions writtenFades (Less.Evaluator.compiler writtenFades)
    (.ofScript numbers) s) .empty).1.toOption.bind fun c => c.reading?.map (·, c.css)

/-- A run with the given numbers and a reading is legible, and gives its style sheet. -/
theorem exists_legible_of_run {numbers : List Int} {r css : Text}
    (h : writtenRun numbers s = some (r, css)) :
    ∃ c j computed t, perform (compileStyles fadedOptions writtenFades
        (Less.Evaluator.compiler writtenFades) (.ofScript numbers) s) .empty = (.ok c, j) ∧
      c.Legible computed t ∧ c.reading computed t = r ∧ c.css = css := by
  unfold writtenRun at h
  rcases hp : perform (compileStyles fadedOptions writtenFades (Less.Evaluator.compiler writtenFades)
    (.ofScript numbers) s) .empty with ⟨fault | c, j⟩
  · rw [hp] at h
    simp [Except.toOption] at h
  · rw [hp] at h
    obtain ⟨r', hr, hcss⟩ := Option.map_eq_some_iff.1 (show c.reading?.map (·, c.css) = _ from h)
    obtain ⟨rfl, rfl⟩ := Prod.mk.inj hcss
    obtain ⟨computed, t, hlegible, hreading⟩ := Compiled.exists_legible hr
    exact ⟨c, j, computed, t, rfl, hlegible, hreading, rfl⟩

/-- What both runs read. -/
def writtenReading : Text :=
  ".b \x7b\n  color: fade(@info-color, 50%);\n\x7d\n.x \x7b\n  color: fade(@info-color, 20%);\n\x7d\n".toList

/-- Both runs read the same, with the colors of their own numbers in the style sheet. -/
theorem sources_writtenFades : ∃ s, fadedOptions.sources writtenFades = .ok s ∧
    writtenRun [0x4455aa, 0x778899] s = some (writtenReading,
      ".b \x7b\n  color: #778899;\n\x7d\n\n.x \x7b\n  color: rgba(68, 85, 170, 0.2);\n\x7d\n".toList) ∧
    writtenRun [0xbb7733, 0x112233] s = some (writtenReading,
      ".b \x7b\n  color: #112233;\n\x7d\n\n.x \x7b\n  color: rgba(187, 119, 51, 0.2);\n\x7d\n".toList) := by
  have h : (fadedOptions.sources writtenFades).toOption.map (fun s =>
      (writtenRun [0x4455aa, 0x778899] s, writtenRun [0xbb7733, 0x112233] s)) =
      some (some (writtenReading,
        ".b \x7b\n  color: #778899;\n\x7d\n\n.x \x7b\n  color: rgba(68, 85, 170, 0.2);\n\x7d\n".toList),
      some (writtenReading,
        ".b \x7b\n  color: #112233;\n\x7d\n\n.x \x7b\n  color: rgba(187, 119, 51, 0.2);\n\x7d\n".toList)) := by
    decide +kernel
  cases hs : fadedOptions.sources writtenFades with
  | error fault => rw [hs] at h; simp [Except.toOption] at h
  | ok s =>
    rw [hs] at h
    obtain ⟨h₁, h₂⟩ := Prod.mk.inj (Option.some.inj h)
    exact ⟨s, rfl, h₁, h₂⟩

/-- Two runs with different style sheets read the same, and so give the same theme. -/
theorem generate_css_eq_of_reading_eq_faded : ∃ s c c' j j',
    fadedOptions.sources writtenFades = .ok s ∧
    perform (compileStyles fadedOptions writtenFades (Less.Evaluator.compiler writtenFades)
      (.ofScript [0x4455aa, 0x778899]) s) .empty = (.ok c, j) ∧
    perform (compileStyles fadedOptions writtenFades (Less.Evaluator.compiler writtenFades)
      (.ofScript [0xbb7733, 0x112233]) s) .empty = (.ok c', j') ∧
    c.css ≠ c'.css ∧ c.restored = c'.restored ∧
    (generate fadedOptions writtenFades (.ok (Less.Evaluator.compiler writtenFades))
        (.ofScript [0x4455aa, 0x778899]) .empty).css =
      (generate fadedOptions writtenFades (.ok (Less.Evaluator.compiler writtenFades))
        (.ofScript [0xbb7733, 0x112233]) .empty).css := by
  obtain ⟨s, hs, hrun, hrun'⟩ := sources_writtenFades
  obtain ⟨c, j, computed, t, hc, h, hreading, hcss⟩ := exists_legible_of_run hrun
  obtain ⟨c', j', computed', t', hc', h', hreading', hcss'⟩ := exists_legible_of_run hrun'
  obtain ⟨hrestored, hsame, -⟩ := generate_css_eq_of_reading_eq hs hc hc' h h'
  have hread := hreading.trans hreading'.symm
  exact ⟨s, c, c', j, j', hs, hc, hc', by rw [hcss, hcss']; decide, hrestored.2 hread, hsame hread⟩

/-! ### A color that is left -/

/-- Is the color written in a file, in any letter case? -/
def IsWrittenIn (tree : FileTree) (color : Text) : Prop :=
  ∃ e ∈ tree.entries, ∃ bytes, e.2 = .file bytes ∧
    occursAnyCase color (Utf8.decodeLenient bytes) = true

/-- Does the text hold no number sign with six digits behind it? -/
def isFreeOfColors : Text → Bool
  | [] => true
  | c :: t => !Color.isSixDigit ((c :: t).take 7) && isFreeOfColors t

/-- A text free of colors holds none, in any letter case. -/
theorem occursAnyCase_of_isFreeOfColors {color t : Text} (hc : Color.isSixDigit color = true)
    (h : isFreeOfColors t = true) : occursAnyCase color t = false := by
  induction t with
  | nil =>
    obtain ⟨ds, rfl, -⟩ := Color.isSixDigit_iff.1 hc
    rfl
  | cons c t ih =>
    rw [isFreeOfColors, Bool.and_eq_true, Bool.not_eq_true'] at h
    rw [occursAnyCase, ih h.2, Bool.or_false]
    by_contra hb
    obtain ⟨q, r, hq, ht⟩ := beginsAnyCase_iff.1 (by simpa using hb)
    have hsix := Color.isSixDigit_of_sameText hc hq
    obtain ⟨ds, rfl, hlen, -⟩ := Color.isSixDigit_iff.1 hsix
    rw [ht, List.take_left' (by simp [hlen]), hsix] at h
    exact Bool.noConfusion h.1

/-- Is what stands at a place, where it is a file, free of colors? -/
def holdsNoColor : FileEntry → Bool
  | .directory => true
  | .file bytes => isFreeOfColors (Utf8.decodeLenient bytes)

/-- The application fades the variable by the value of another one. -/
def namedFade : FileTree :=
  fadedTree "" "@b: 20%;\n.x \x7b color: fade(@info-color, @b); \x7d"

/-- **A fade by a percentage that is not written out is not recognised:** the compiler computes it from
the color that was drawn for the variable, and its text stays in the theme.  So the theme depends on
what is drawn although no color is written in any file. -/
theorem not_forall_generate_css_eq :
    ¬ ∀ (o : Options) (tree : FileTree) (draws draws' : Color.Draws),
      (∀ color, Color.isSixDigit color = true → ¬ IsWrittenIn tree color) →
        (generate o tree (.ok (Less.Evaluator.compiler tree)) draws .empty).css =
          (generate o tree (.ok (Less.Evaluator.compiler tree)) draws' .empty).css := by
  intro hall
  have hfree : ∀ e ∈ namedFade.entries, holdsNoColor e.2 = true := by
    decide +kernel
  have hcss := hall fadedOptions namedFade (.ofScript [0x4455aa]) (.ofScript [0xbb7733]) fun color hc => by
    rintro ⟨⟨place, -⟩, he, bytes, rfl, ho⟩
    exact Bool.noConfusion ((occursAnyCase_of_isFreeOfColors hc (hfree _ he)).symm.trans ho)
  have h₁ : (generate fadedOptions namedFade (.ok (Less.Evaluator.compiler namedFade))
      (.ofScript [0x4455aa]) .empty).css =
        "@info-color: #0f0;\n.x \x7bcolor: rgba(68, 85, 170, 0.2);\x7d\n".toList := by
    decide +kernel
  have h₂ : (generate fadedOptions namedFade (.ok (Less.Evaluator.compiler namedFade))
      (.ofScript [0xbb7733]) .empty).css =
        "@info-color: #0f0;\n.x \x7bcolor: rgba(187, 119, 51, 0.2);\x7d\n".toList := by
    decide +kernel
  rw [h₁, h₂] at hcss
  exact absurd hcss (by decide)

end Theme
end ThemeSheet
