/-
# What a build asks first

The compiler is first asked for the style sheet of the markers.  Everything before
that depends on the options and the files alone: either it ends the build with a
fault before anything is asked, or the style sheet of the markers is asked for.
-/

import ThemeSheet.Proofs.Fallible
import ThemeSheet.Proofs.Recorded
import ThemeSheet.Theme.Generation

namespace ThemeSheet
namespace Theme

open Recorded

/-- The request that the compiler is asked first: the style sheet of the markers. -/
def firstRequest (o : Options) (tree : FileTree) (draws : Color.Draws) (s : Sources) :
    Except Fault CompileRequest := do
  let known ← o.collection tree s.packages
  let _ ← o.variablesPath
  let names := known.themeVariables (← o.themeVariables.toList "theme_variables")
  let (markers, _) ← MarkerAssignment.ofVariables names draws
  let colorFile ← Less.bundle tree s.packages (s.antd.child "style/color/colors.less".toList)
  let sheet ← Marker.stylesheet colorFile markers true
  pure ⟨sheet, (s.antd.child "style".toList).written :: s.styleDirs, none⟩

/-- Compiling a style file forgets nothing that has been asked. -/
theorem grows_compileOne (compiler : Compiler) (s : Style.Setting) (file : Path) (content : Text) :
    Grows (Style.compileOne compiler s file content) := by
  unfold Style.compileOne
  split
  · exact grows_pure _
  · refine (grows_ask _ _).bind fun answer => ?_
    split
    · exact grows_pure _
    · exact (grows_tell _).bind fun _ => grows_pure _
    · exact grows_pure _

/-- Compiling the style files forgets nothing that has been asked. -/
theorem grows_compileAll (compiler : Compiler) (s : Style.Setting) (contents : List Text) :
    Grows (Style.compileAll compiler s contents) := by
  unfold Style.compileAll
  refine (grows_mapM (fun e => ?_) _).bind fun _ => (grows_lift _).bind fun _ => grows_pure _
  exact grows_compileOne compiler s e.1 e.2

variable {compiler : Compiler} {file sheet : Text} {m : MarkerAssignment} {paths names : List Text}
    {fault : Fault}

/-- A compile of the library asks for its stylesheet first. -/
theorem asksFirst_compile (h : Marker.stylesheet file m true = .ok sheet) :
    AsksFirst (Marker.compile compiler file m paths names)
      ⟨⟨sheet, paths, none⟩, compiler ⟨sheet, paths, none⟩⟩ := by
  refine AsksFirst.lift_bind h <| (asksFirst_ask _ _).bind fun answer => ?_
  split
  · exact grows_pure _
  · exact (grows_tell _).bind fun _ => grows_pure _
  · exact grows_throw _

/-- Without a stylesheet the compile asks nothing. -/
theorem stops_compile (h : Marker.stylesheet file m true = .error fault) :
    Stops (Marker.compile compiler file m paths names) fault :=
  (stops_lift h).bind

variable {o : Options} {tree : FileTree} {draws : Color.Draws} {s : Sources}

/-- **A fault before the first request ends the build,** and nothing is asked. -/
theorem stops_build (compiler : Compiler) (h : firstRequest o tree draws s = .error fault) :
    Stops (build o tree compiler draws s) fault := by
  rcases Fallible.bind_eq_error.1 h with h | ⟨known, hknown, h⟩
  · exact (stops_lift h).bind
  refine .lift_bind hknown ?_
  rcases Fallible.bind_eq_error.1 h with h | ⟨path, hpath, h⟩
  · exact (stops_lift h).bind
  refine .lift_bind hpath ?_
  rcases Fallible.bind_eq_error.1 h with h | ⟨asked, hasked, h⟩
  · exact (stops_lift h).bind
  refine .lift_bind hasked <| .tell_bind ?_
  rcases Fallible.bind_eq_error.1 h with h | ⟨⟨markers, rest⟩, hmarkers, h⟩
  · exact (stops_lift h).bind
  refine .lift_bind hmarkers ?_
  rcases Fallible.bind_eq_error.1 h with h | ⟨colorFile, hcolors, h⟩
  · exact (stops_lift h).bind
  refine .lift_bind hcolors ?_
  rcases Fallible.bind_eq_error.1 h with h | ⟨sheet, -, h⟩
  · exact (stops_compile h).bind
  · simp [pure, Except.pure] at h

/-- **Without such a fault the build asks for the style sheet of the markers.** -/
theorem asksFirst_build (compiler : Compiler) {r : CompileRequest}
    (h : firstRequest o tree draws s = .ok r) :
    AsksFirst (build o tree compiler draws s) ⟨r, compiler r⟩ := by
  obtain ⟨known, hknown, h⟩ := Fallible.bind_eq_ok.1 h
  obtain ⟨path, hpath, h⟩ := Fallible.bind_eq_ok.1 h
  obtain ⟨asked, hasked, h⟩ := Fallible.bind_eq_ok.1 h
  obtain ⟨⟨markers, rest⟩, hmarkers, h⟩ := Fallible.bind_eq_ok.1 h
  obtain ⟨colorFile, hcolors, h⟩ := Fallible.bind_eq_ok.1 h
  obtain ⟨sheet, hsheet, h⟩ := Fallible.bind_eq_ok.1 h
  obtain rfl := Except.ok.inj h
  refine .lift_bind hknown <| .lift_bind hpath <| .lift_bind hasked <| .tell_bind <|
    .lift_bind hmarkers <| .lift_bind hcolors <|
      (asksFirst_compile hsheet).bind fun discovered => ?_
  -- what comes behind the markers only adds to the journal
  refine (grows_compileAll _ _ _).bind fun custom => ?_
  refine (grows_lift _).bind fun target => (grows_lift _).bind fun library =>
    (grows_lift _).bind fun collected => ?_
  refine (grows_ask _ _).bind fun answer => (grows_lift _).bind fun compiled => ?_
  exact (grows_lift _).bind fun theme => (grows_lift _).bind fun defaults =>
    (grows_lift _).bind fun defined => grows_pure _

end Theme
end ThemeSheet
