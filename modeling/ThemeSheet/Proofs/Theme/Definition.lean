/-
# Theme variables are defined at the top and nowhere else

A definition of a variable is its name, spaces, a colon, text and a semicolon on one
line.  The pass for a variable takes out of every line what reaches from the first
definition on it to the last semicolon of the line.  What moves together there has no
semicolon behind the place, so it defines nothing, whatever it spells: a variable whose
definitions are gone stays without any.  The definitions at the top stay, as each is on
a line of its own and names no other variable in front of a colon.
-/

import Mathlib.Data.List.Infix
import ThemeSheet.Proofs.Marker.Stylesheet
import ThemeSheet.Proofs.Text.Lines
import ThemeSheet.Proofs.Text.Linewise
import ThemeSheet.Proofs.Variable.Collection
import ThemeSheet.Proofs.Variable.Name
import ThemeSheet.Theme.Restoration

namespace ThemeSheet
namespace Theme

open Text Variable

/-- **A definition of a variable:** the name, spaces, a colon, text and a semicolon, on one line. -/
def IsDefinition (name d : Text) : Prop :=
  ∃ spaces text, d = name ++ spaces ++ ':' :: text ++ [';'] ∧ (∀ c ∈ spaces, c = ' ') ∧ '\n' ∉ text

/-- **Is the variable defined in the text,** wherever on a line? -/
def Defines (name t : Text) : Prop := ∃ d, IsDefinition name d ∧ d <:+: t

/-- **A name that begins with `@`.**  Characters of a name follow, if anything does. -/
def IsAtWord (name : Text) : Prop := ∃ w, name = '@' :: w ∧ ∀ c ∈ w, isNameChar c = true

/-- Does the name stand in front of a colon, spaces between them aside? -/
def StandsBeforeColon (name t : Text) : Prop :=
  ∃ before spaces after, t = before ++ name ++ spaces ++ ':' :: after ∧ ∀ c ∈ spaces, c = ' '

/-- **Definitions taken out of a text,** one after another. -/
inductive TakenOut (names : List Text) : Text → Text → Prop
  | none (t : Text) : TakenOut names t t
  | one {name d after t : Text} (before : Text) (hname : name ∈ names) (hd : IsDefinition name d)
      (rest : TakenOut names (before ++ after) t) : TakenOut names (before ++ d ++ after) t

variable {name other d s t l rest : Text} {names : List Text}

/-! ### Definitions -/

/-- A name stands on one line. -/
theorem IsAtWord.notMem_feed (h : IsAtWord name) : '\n' ∉ name := by
  obtain ⟨w, rfl, hw⟩ := h
  exact List.not_mem_cons_of_ne_of_not_mem (by decide) (notMem_of_isNameChar hw (by decide))

/-- A name that begins with an at sign is not empty. -/
theorem IsAtWord.ne_nil (h : IsAtWord name) : name ≠ [] := by
  obtain ⟨w, rfl, -⟩ := h
  exact List.cons_ne_nil '@' w

/-- A definition is not empty. -/
theorem IsDefinition.ne_nil (h : IsDefinition name d) : d ≠ [] := by
  obtain ⟨spaces, text, rfl, -⟩ := h
  simp

/-- A definition of a name on one line stands on one line. -/
theorem IsDefinition.notMem_feed (hname : '\n' ∉ name) (h : IsDefinition name d) : '\n' ∉ d := by
  obtain ⟨spaces, text, rfl, hspaces, htext⟩ := h
  have hfeed : '\n' ∉ spaces := fun hm => absurd (hspaces _ hm) (by decide)
  simp [hname, hfeed, htext]

/-- What is defined in a part of a text is defined in the text. -/
theorem Defines.mono (h : Defines name s) (hs : s <:+: t) : Defines name t := by
  obtain ⟨d, hd, hds⟩ := h
  exact ⟨d, hd, hds.trans hs⟩

/-- **Behind the last semicolon nothing is defined.** -/
theorem Defines.of_append (hrest : ';' ∉ rest) (h : Defines name (s ++ rest)) : Defines name s := by
  obtain ⟨d, hd, before, after, h⟩ := h
  rcases append_eq_append_cases h.symm with ⟨v, rfl⟩ | ⟨w, hw, hdw, rfl⟩
  · rw [← List.append_assoc] at h
    exact ⟨d, hd, before, v, List.append_cancel_right h⟩
  · -- the semicolon of the definition would stand behind
    obtain ⟨spaces, text, rfl, -⟩ := hd
    have hlast := congrArg List.getLast? hdw
    rw [← List.append_assoc before, List.getLast?_concat, List.getLast?_append_of_ne_nil _ hw] at hlast
    exact absurd (List.mem_append_left _ (List.mem_of_getLast? hlast.symm)) hrest

/-! ### The pass for one variable -/

/-- What the pass finds is a definition, and it puts nothing in. -/
theorem definitionOf_eq_some {new : Text} (h : definitionOf name t = some (new, rest)) :
    new = [] ∧ ∃ d, IsDefinition name d ∧ t = d ++ rest := by
  obtain ⟨afterName, hname, h⟩ := Option.bind_eq_some_iff.1 h
  obtain ⟨value, hcolon, h⟩ := Option.bind_eq_some_iff.1 h
  obtain ⟨⟨text, behind⟩, hcut, h⟩ := Option.bind_eq_some_iff.1 h
  obtain ⟨rfl, rfl⟩ := Prod.mk.inj (Option.some.inj h)
  obtain ⟨rfl, htext⟩ := lastInLine?_eq_some hcut
  refine ⟨rfl, _, ⟨afterName.takeWhile (· == ' '), text, rfl, fun c hc => ?_, htext⟩, ?_⟩
  · simpa using List.mem_takeWhile_imp hc
  · have hspaces := List.takeWhile_append_dropWhile (p := (· == ' ')) (l := afterName)
    rw [dropPrefix?_eq_some.1 hcolon] at hspaces
    rw [dropPrefix?_eq_some.1 hname]
    conv_lhs => rw [← hspaces]
    simp

/-- **At a definition the line is cut at its last semicolon.** -/
theorem definitionOf_of_prefix (hl : '\n' ∉ l) (hd : IsDefinition name d) (h : d <+: l) :
    ∃ rest, definitionOf name l = some ([], rest) ∧ ';' ∉ rest := by
  obtain ⟨after, rfl⟩ := h
  obtain ⟨spaces, text, rfl, hspaces, -⟩ := hd
  have hvalue : '\n' ∉ text ++ ';' :: after := fun hm => hl (by simp_all)
  obtain ⟨⟨front, rest⟩, hcut⟩ : ∃ cut, lastCut? (dropPrefix? [';']) (text ++ ';' :: after) = some cut := by
    refine Option.ne_none_iff_exists'.1 fun hnone => ?_
    exact absurd (by simp) (lastCut?_mark_eq_none_iff.1 hnone)
  refine ⟨rest, ?_, (lastCut?_mark_eq_some_iff.1 hcut).2⟩
  have hname : dropPrefix? name (name ++ spaces ++ ':' :: text ++ [';'] ++ after) =
      some (spaces ++ ':' :: (text ++ ';' :: after)) := dropPrefix?_eq_some.2 (by simp)
  have hdrop : (spaces ++ ':' :: (text ++ ';' :: after)).dropWhile (· == ' ') = ':' :: (text ++ ';' :: after) :=
    dropWhile_run (fun c hc => by simp [hspaces c hc]) (by simp)
  have hcolon : dropPrefix? [':'] (':' :: (text ++ ';' :: after)) = some (text ++ ';' :: after) :=
    dropPrefix?_eq_some.2 rfl
  simp only [definitionOf, hname, Option.bind_eq_bind, Option.bind_some, hdrop, hcolon,
    lastInLine?_line hvalue, hcut, Option.pure_def]

/-- The pass keeps to its lines. -/
theorem keepsToLine_definitionOf (hname : '\n' ∉ name) (hne : name ≠ []) : KeepsToLine (definitionOf name) where
  suffix t x r h := by
    obtain ⟨-, d, -, rfl⟩ := definitionOf_eq_some h
    exact ⟨d, rfl⟩
  nil := by
    obtain ⟨c, w, rfl⟩ := List.exists_cons_of_ne_nil hne
    rfl
  line l rest hl := by
    rw [definitionOf, definitionOf, dropPrefix?_feed hname]
    cases hn : dropPrefix? name l with
    | none => rfl
    | some afterName =>
      simp only [Option.map_some, Option.bind_eq_bind, Option.bind_some]
      rw [dropWhile_stop (by decide), dropPrefix?_feed (by decide)]
      cases hc : dropPrefix? [':'] (afterName.dropWhile (· == ' ')) with
      | none => rfl
      | some value =>
        have hvalue : '\n' ∉ value := fun hm => hl <| by
          have hmem : '\n' ∈ afterName.dropWhile (· == ' ') := by
            rw [dropPrefix?_eq_some.1 hc]
            exact List.mem_append_right _ hm
          rw [dropPrefix?_eq_some.1 hn]
          exact List.mem_append_right _ ((List.dropWhile_suffix _).mem hmem)
        simp only [Option.map_some, Option.bind_some]
        rw [lastInLine?_feed hvalue]
        cases lastInLine? ';' value <;> rfl

/-- Where the variable is not defined, the pass leaves the text alone. -/
theorem replaceMatches_definitionOf_of_not_defines (h : ¬ Defines name t) :
    replaceMatches (definitionOf name) t = t := by
  refine replaceMatches_eq_self fun s _ ⟨front, hs⟩ => Option.eq_none_iff_forall_ne_some.2 fun ⟨new, rest⟩ hm => h ?_
  obtain ⟨-, d, hd, rfl⟩ := definitionOf_eq_some hm
  exact ⟨d, hd, front, rest, by rw [← hs, List.append_assoc]⟩

/-- **The pass over a line** leaves a front of it in which the variable is not defined, and behind that no
semicolon. -/
theorem pass_line (name : Text) (hl : '\n' ∉ l) : ∃ front rest, replaceMatches (definitionOf name) l = front ++ rest ∧
    front <+: l ∧ ';' ∉ rest ∧ ¬ Defines name front := by
  have hnil : ¬ Defines name [] := by
    rintro ⟨d, hd, hinfix⟩
    exact hd.ne_nil (List.infix_nil.1 hinfix)
  induction l with
  | nil => exact ⟨[], [], replaceMatches.eq_1 _, List.prefix_refl _, List.not_mem_nil, hnil⟩
  | cons c l ih =>
    obtain ⟨front, rest, hpass, hfront, hrest, hnot⟩ := ih fun hm => hl (List.mem_cons_of_mem _ hm)
    cases hm : definitionOf name (c :: l) with
    | none =>
      refine ⟨c :: front, rest, by rw [replaceMatches_of_none hm, hpass]; rfl, List.cons_prefix_cons.2 ⟨rfl, hfront⟩,
        hrest, ?_⟩
      rintro ⟨d, hd, hinfix⟩
      rcases List.infix_cons_iff.1 hinfix with hd' | hd'
      · obtain ⟨r, hr, -⟩ := definitionOf_of_prefix hl hd
          (hd'.trans (List.cons_prefix_cons.2 ⟨rfl, hfront⟩))
        rw [hm] at hr
        exact absurd hr.symm (Option.some_ne_none _)
      · exact hnot ⟨d, hd, hd'⟩
    | some found =>
      obtain ⟨new, r⟩ := found
      obtain ⟨rfl, d, hd, he⟩ := definitionOf_eq_some hm
      obtain ⟨r', hr', hsemicolon⟩ := definitionOf_of_prefix hl hd ⟨r, he.symm⟩
      obtain rfl : r = r' := (Prod.mk.inj (Option.some.inj (hm.symm.trans hr'))).2
      have hnone : ¬ Defines name r := fun hdef => hnil (Defines.of_append hsemicolon hdef)
      refine ⟨[], r, ?_, List.nil_prefix, hsemicolon, hnil⟩
      rw [he] at hm ⊢
      rw [replaceMatches_of_some hd.ne_nil hm, replaceMatches_definitionOf_of_not_defines hnone]

/-- **What a pass leaves defined was defined before,** and the variable of the pass is not. -/
theorem defines_of_pass (hname : '\n' ∉ name) (hne : name ≠ []) (hother : '\n' ∉ other)
    (h : Defines other (replaceMatches (definitionOf name) t)) : Defines other t ∧ other ≠ name := by
  obtain ⟨d, hd, hinfix⟩ := h
  rw [(keepsToLine_definitionOf hname hne).replaceMatches_lines] at hinfix
  obtain ⟨u, hu, hinfix⟩ := exists_infix_of_infix_join (hd.notMem_feed hother) hd.ne_nil hinfix
  obtain ⟨l, hl, rfl⟩ := List.mem_map.1 hu
  obtain ⟨front, rest, hpass, hfront, hrest, hnot⟩ := pass_line name (mem_splitOn hl).1
  have hdef : Defines other front := Defines.of_append hrest ⟨d, hd, hpass ▸ hinfix⟩
  constructor
  · have hline : l <:+: t := by
      conv_rhs => rw [← join_splitOn '\n' t]
      exact infix_join hl
    exact hdef.mono (hfront.isInfix.trans hline)
  · rintro rfl
    exact hnot hdef

/-- Definitions that are taken out of a text are taken out behind a further character. -/
theorem TakenOut.cons (c : Char) (h : TakenOut names s t) : TakenOut names (c :: s) (c :: t) := by
  induction h with
  | none t => exact .none _
  | one before hname hd _ ih => exact .one (c :: before) hname hd ih

/-- Taking out definitions twice is taking them out. -/
theorem TakenOut.trans {u : Text} (h : TakenOut names s t) (h' : TakenOut names t u) : TakenOut names s u := by
  induction h with
  | none t => exact h'
  | one before hname hd _ ih => exact .one before hname hd (ih h')

/-- A pass takes definitions out. -/
theorem takenOut_pass (hname : name ∈ names) (t : Text) :
    TakenOut names t (replaceMatches (definitionOf name) t) := by
  fun_induction replaceMatches (definitionOf name) t with
  | case1 => exact .none _
  | case2 c t new rest hm hle ih =>
    obtain ⟨rfl, d, hd, he⟩ := definitionOf_eq_some hm
    rw [he]
    exact .one [] hname hd ih
  | case3 c t new rest hm hle ih => exact ih.cons c
  | case4 c t hm ih => exact ih.cons c

/-! ### The passes for all variables -/

/-- The text without the definitions of the variables, those of the last one taken out first. -/
def withoutDefinitions (names : List Text) (css : Text) : Text :=
  names.foldr (fun name t => replaceMatches (definitionOf name) t) css

/-- **Nothing but definitions of the variables is taken out.** -/
theorem takenOut_withoutDefinitions {chosen : List Text} (h : ∀ name ∈ chosen, name ∈ names) (css : Text) :
    TakenOut names css (withoutDefinitions chosen css) := by
  induction chosen with
  | nil => exact .none css
  | cons name chosen ih =>
    exact (ih fun other ho => h other (List.mem_cons_of_mem _ ho)).trans
      (takenOut_pass (h name (List.mem_cons_self ..)) _)

/-- **No variable of the list is left defined.** -/
theorem not_defines_withoutDefinitions (h : ∀ name ∈ names, IsAtWord name) (css : Text) :
    ∀ name ∈ names, ¬ Defines name (withoutDefinitions names css) := by
  induction names with
  | nil => exact fun name hname => absurd hname List.not_mem_nil
  | cons first names ih =>
    intro name hname hdef
    have hfirst := h first (List.mem_cons_self ..)
    obtain ⟨hbefore, hne⟩ := defines_of_pass hfirst.notMem_feed hfirst.ne_nil
      (h name hname).notMem_feed hdef
    exact ih (fun other ho => h other (List.mem_cons_of_mem _ ho)) name
      ((List.mem_cons.1 hname).resolve_left hne) hbefore

/-! ### The definitions at the top -/

/-- Where a name stands in front of a colon, a colon stands. -/
theorem StandsBeforeColon.mem_colon (h : StandsBeforeColon name t) : ':' ∈ t := by
  obtain ⟨before, spaces, after, rfl, -⟩ := h
  simp

/-- Names that spaces and a colon end are the same where they stand at the same place. -/
theorem name_eq_of_colon {v w spaces : Text} (hw : ∀ c ∈ w, isNameChar c = true) (hv : ∀ c ∈ v, isNameChar c = true)
    (hspaces : ∀ c ∈ spaces, c = ' ') (h : w ++ (spaces ++ ':' :: s) = v ++ ':' :: t) : w = v := by
  have hends : ∀ c, (spaces ++ ':' :: s).head? = some c → isNameChar c = false := by
    intro c hc
    cases spaces with
    | nil => exact Option.some.inj hc ▸ (by decide)
    | cons d spaces =>
      rw [← Option.some.inj hc, hspaces d (List.mem_cons_self ..)]
      decide
  have hrun := congrArg (List.takeWhile isNameChar) h
  rwa [takeWhile_run hw hends, takeWhile_run hv (by simp; decide)] at hrun

/-- A name in front of a colon stands in the value if a semicolon follows it. -/
theorem standsBeforeColon_of_semicolon {value front spaces text after : Text} (hspaces : ∀ c ∈ spaces, c = ' ')
    (h : value ++ [';'] = (front ++ name ++ spaces ++ [':']) ++ (text ++ ';' :: after)) :
    StandsBeforeColon name value := by
  rcases append_eq_append_cases h with ⟨back, hback⟩ | ⟨back, hback, -, hend⟩
  · rw [hback, ← List.append_assoc] at h
    exact ⟨front, spaces, back, by simpa using List.append_cancel_right h, hspaces⟩
  · -- only the last semicolon stands behind the value
    have hlen := congrArg List.length hend
    have hpos := List.length_pos_iff.2 hback
    simp only [List.length_append, List.length_cons, List.length_nil] at hlen
    omega

/-- **The definition of a variable defines no other one** unless its value does. -/
theorem not_defines_definition {e : Text × Text} (he : IsAtWord e.1) (hname : IsAtWord name)
    (hne : name ≠ e.1) (hvalue : ¬ StandsBeforeColon name e.2) :
    ¬ Defines name (e.1 ++ ": ".toList ++ e.2 ++ [';']) := by
  obtain ⟨key, value⟩ := e
  obtain ⟨v, rfl, hv⟩ : IsAtWord key := he
  obtain ⟨w, rfl, hw⟩ := hname
  dsimp only at hne hvalue ⊢
  rintro ⟨d, ⟨spaces, text, rfl, hspaces, -⟩, before, after, h⟩
  cases before with
  | nil =>
    have htail : w ++ (spaces ++ ':' :: (text ++ ';' :: after)) = v ++ ':' :: ' ' :: (value ++ [';']) := by
      simpa using h
    exact hne (name_eq_of_colon hw hv hspaces htail ▸ rfl)
  | cons c before =>
    -- the sign that begins the name stands in the value
    have htail : before ++ '@' :: (w ++ spaces ++ ':' :: (text ++ ';' :: after)) =
        (v ++ [':', ' ']) ++ (value ++ [';']) := by
      simpa using (List.cons.inj h).2
    rcases append_eq_append_cases htail with ⟨front, hfront⟩ | ⟨front, hfront, hkey, hrest⟩
    · have hcut : value ++ [';'] = (front ++ '@' :: w ++ spaces ++ [':']) ++ (text ++ ';' :: after) := by
        rw [hfront]
        simp
      exact hvalue (standsBeforeColon_of_semicolon hspaces hcut)
    · obtain ⟨x, front, rfl⟩ := List.exists_cons_of_ne_nil hfront
      obtain ⟨rfl, -⟩ := List.cons.inj hrest
      have hat : '@' ∉ v ++ [':', ' '] := by
        simp [notMem_of_isNameChar hv (show isNameChar '@' = false by decide)]
      exact hat (hkey ▸ by simp)

/-- **Definitions that may stand at the top:** of different variables, each on a line of its own, with values
that name none of the variables in front of a colon. -/
structure IsHeader (entries : List (Text × Text)) : Prop where
  nodup : (entries.map Prod.fst).Nodup
  name : ∀ e ∈ entries, IsAtWord e.1
  line : ∀ e ∈ entries, '\n' ∉ e.2
  value : ∀ e ∈ entries, ∀ name ∈ entries.map Prod.fst, ¬ StandsBeforeColon name e.2

/-- Without the first of them, definitions may stand at the top all the same. -/
theorem IsHeader.tail {e : Text × Text} {entries : List (Text × Text)} (h : IsHeader (e :: entries)) :
    IsHeader entries where
  nodup := (List.nodup_cons.1 h.nodup).2
  name := fun e he => h.name e (List.mem_cons_of_mem _ he)
  line := fun e he => h.line e (List.mem_cons_of_mem _ he)
  value := fun e he name hname => h.value e (List.mem_cons_of_mem _ he) name (List.mem_cons_of_mem _ hname)

/-- **The pass for another variable leaves the definitions at the top alone.** -/
theorem pass_definitionLines (hname : IsAtWord name) {entries : List (Text × Text)}
    (h : ∀ e ∈ entries, IsAtWord e.1 ∧ '\n' ∉ e.2 ∧ name ≠ e.1 ∧ ¬ StandsBeforeColon name e.2) (t : Text) :
    replaceMatches (definitionOf name) (Marker.definitionLines entries ++ t) =
      Marker.definitionLines entries ++ replaceMatches (definitionOf name) t := by
  have hkeeps := keepsToLine_definitionOf hname.notMem_feed hname.ne_nil
  induction entries with
  | nil => rfl
  | cons e entries ih =>
    obtain ⟨he, -, hne, hvalue⟩ := h e (List.mem_cons_self ..)
    have hline (u : Text) : Marker.definitionLines (e :: entries) ++ u =
        (e.1 ++ ": ".toList ++ e.2 ++ [';']) ++ '\n' :: (Marker.definitionLines entries ++ u) := by
      simp [Marker.definitionLines]
    rw [hline, hline, hkeeps.replaceMatches_feed,
      replaceMatches_definitionOf_of_not_defines (not_defines_definition he hname hne hvalue),
      ih fun e he => h e (List.mem_cons_of_mem _ he)]

/-- The definition of the first name is prepended last. -/
theorem prependDefinitions_cons (known : Variable.Collection) (css name : Text) (names : List Text) :
    prependDefinitions known css (name :: names) =
      prependDefinitions known css names >>= fun t => prependOne known t name := by
  rw [prependDefinitions, List.reverse_cons, List.foldlM_append]
  congr 1
  funext t
  rw [List.foldlM_cons]
  cases prependOne known t name <;> rfl

/-- **What is written:** the definitions in order, the text without definitions of the variables, and as many
line feeds as there are variables. -/
theorem prependDefinitions_eq {known : Variable.Collection} {entries : List (Text × Text)} (h : IsHeader entries)
    (hvalue : ∀ e ∈ entries, known.value e.1 = .ok e.2) (css : Text) :
    prependDefinitions known css (entries.map Prod.fst) =
      .ok (Marker.definitionLines entries ++ withoutDefinitions (entries.map Prod.fst) css ++
        List.replicate entries.length '\n') := by
  induction entries with
  | nil => simp [prependDefinitions, Marker.definitionLines, withoutDefinitions, pure, Except.pure]
  | cons e entries ih =>
    have he := h.name e (List.mem_cons_self ..)
    have hkeeps := keepsToLine_definitionOf he.notMem_feed he.ne_nil
    have hothers : ∀ e' ∈ entries, IsAtWord e'.1 ∧ '\n' ∉ e'.2 ∧ e.1 ≠ e'.1 ∧ ¬ StandsBeforeColon e.1 e'.2 := by
      intro e' he'
      have hmem := List.mem_cons_of_mem e he'
      refine ⟨h.name e' hmem, h.line e' hmem, fun heq => ?_, h.value e' hmem e.1 (List.mem_cons_self ..)⟩
      exact (List.nodup_cons.1 h.nodup).1 (heq ▸ List.mem_map_of_mem he')
    rw [List.map_cons, prependDefinitions_cons, ih h.tail fun e he => hvalue e (List.mem_cons_of_mem _ he)]
    refine Fallible.bind_eq_ok.2 ⟨_, rfl, ?_⟩
    rw [prependOne, List.append_assoc, pass_definitionLines he hothers, hkeeps.replaceMatches_feeds]
    refine Fallible.bind_eq_ok.2 ⟨e.2, hvalue e (List.mem_cons_self ..), congrArg Except.ok ?_⟩
    simp [Marker.definitionLines, withoutDefinitions, List.replicate_succ']

/-- A variable that was chosen has a value. -/
theorem exists_value_of_chosen {known : Variable.Collection} {requested : List Text}
    (h : name ∈ known.themeVariables requested) : ∃ value, known.value name = .ok value := by
  have hknows : known.knows name = true := by
    have := List.of_mem_filter h
    rw [Bool.and_eq_true] at this
    exact this.1
  rw [Variable.Collection.knows, Bool.or_eq_true, Table.contains, Table.contains, Option.isSome_iff_exists,
    Option.isSome_iff_exists] at hknows
  have hsome : ∃ value, known.values.get? name = some value := by
    rw [get?_values]
    rcases hknows with ⟨v, hv⟩ | ⟨v, hv⟩
    · cases hraw : known.raw.get? name with
      | none => exact ⟨v, hv⟩
      | some w => exact ⟨w, rfl⟩
    · exact ⟨v, by rw [hv, Option.some_or]⟩
  obtain ⟨value, hv⟩ := hsome
  exact ⟨value, by rw [Variable.Collection.value, hv]⟩

/-- Where every name has a value, the definitions are put in front without a fault. -/
theorem exists_prependDefinitions {known : Variable.Collection}
    (h : ∀ name ∈ names, ∃ value, known.value name = .ok value) (css : Text) :
    ∃ out, prependDefinitions known css names = .ok out := by
  induction names with
  | nil => exact ⟨css, rfl⟩
  | cons name names ih =>
    obtain ⟨t, ht⟩ := ih fun other ho => h other (List.mem_cons_of_mem _ ho)
    obtain ⟨value, hvalue⟩ := h name (List.mem_cons_self ..)
    rw [prependDefinitions_cons, ht]
    exact ⟨_, Fallible.bind_eq_ok.2 ⟨t, rfl, Fallible.bind_eq_ok.2 ⟨value, hvalue, rfl⟩⟩⟩

/-- **Chosen variables have values, and they are defined at the top and nowhere else.**  Of different chosen
variables whose values hold no line feed and name none of them in front of a colon, every one is defined on a
line of its own, in order; the text follows, and nothing but definitions of these variables is taken out of
it, and all of them are; a line feed for each variable ends it. -/
theorem prependDefinitions_themeVariables (known : Variable.Collection) (requested : List Text) :
    (∀ name ∈ known.themeVariables requested, ∃ value, known.value name = .ok value) ∧
      ∀ (names : List Text) (css : Text), (∀ name ∈ names, name ∈ known.themeVariables requested) →
        (∃ out, prependDefinitions known css names = .ok out) ∧
        (names.Nodup → (∀ name ∈ names, IsAtWord name) →
          (∀ name ∈ names, ∀ value, known.value name = .ok value →
            '\n' ∉ value ∧ ∀ other ∈ names, ¬ StandsBeforeColon other value) →
          ∃ entries : List (Text × Text), entries.map Prod.fst = names ∧
            (∀ e ∈ entries, known.value e.1 = .ok e.2) ∧
            prependDefinitions known css names =
              .ok (Marker.definitionLines entries ++ withoutDefinitions names css ++
                List.replicate names.length '\n') ∧
            TakenOut names css (withoutDefinitions names css) ∧
            ∀ name ∈ names, ¬ Defines name (withoutDefinitions names css)) := by
  refine ⟨fun name hname => exists_value_of_chosen hname, fun names css hchosen => ?_⟩
  have hvalues : ∀ name ∈ names, ∃ value, known.value name = .ok value :=
    fun name hname => exists_value_of_chosen (hchosen name hname)
  refine ⟨exists_prependDefinitions hvalues css, fun hnodup hnames hinert => ?_⟩
  let entries := names.map fun name => (name, (known.values.get? name).getD [])
  have hkeys : entries.map Prod.fst = names := by
    rw [List.map_map]
    exact List.map_id names
  have hentries : ∀ e ∈ entries, e.1 ∈ names ∧ known.value e.1 = .ok e.2 := by
    intro e he
    obtain ⟨name, hname, rfl⟩ := List.mem_map.1 he
    obtain ⟨value, hvalue⟩ := hvalues name hname
    refine ⟨hname, ?_⟩
    rw [Variable.Collection.value] at hvalue ⊢
    cases hget : known.values.get? name with
    | none => rw [hget] at hvalue; exact absurd hvalue (by simp)
    | some v => rfl
  have hheader : IsHeader entries := by
    refine ⟨hkeys ▸ hnodup, fun e he => hnames _ (hentries e he).1, fun e he => ?_, fun e he => ?_⟩
    · exact (hinert _ (hentries e he).1 _ (hentries e he).2).1
    · rw [hkeys]
      exact (hinert _ (hentries e he).1 _ (hentries e he).2).2
  refine ⟨entries, hkeys, fun e he => (hentries e he).2, ?_, takenOut_withoutDefinitions (fun _ h => h) css,
    not_defines_withoutDefinitions hnames css⟩
  have heq := prependDefinitions_eq hheader (fun e he => (hentries e he).2) css
  rwa [hkeys, show entries.length = names.length from List.length_map ..] at heq

/-- The main theme color, and a variable whose value is its name. -/
def aliased : Variable.Collection :=
  ⟨.ofList [(primary, "#123456".toList)], .ofList [("@link".toList, primary)]⟩

/-- Where a definition goes, the halves of another name come together. -/
theorem prependDefinitions_themeVariables_glued :
    let names := [primary, "@link".toList]
    let css := "a@link : red;b@primary-color:blue;c\n@li@primary-color:red;nk:blue".toList
    ∃ entries : List (Text × Text), entries.map Prod.fst = names ∧
      (∀ e ∈ entries, aliased.value e.1 = .ok e.2) ∧
      prependDefinitions aliased css names =
        .ok (Marker.definitionLines entries ++ withoutDefinitions names css ++ List.replicate names.length '\n') ∧
      TakenOut names css (withoutDefinitions names css) ∧
      ∀ name ∈ names, ¬ Defines name (withoutDefinitions names css) := by
  intro names css
  have hvalues : ∀ name ∈ names, ∀ value, aliased.value name = .ok value → '\n' ∉ value ∧ ':' ∉ value := by
    intro name hname value hvalue
    rcases List.mem_cons.1 hname with rfl | hname
    · obtain rfl : "#123456".toList = value := Except.ok.inj hvalue
      decide
    · obtain rfl := List.mem_singleton.1 hname
      obtain rfl : primary = value := Except.ok.inj hvalue
      decide
  refine ((prependDefinitions_themeVariables aliased names).2 names css (by decide +kernel)).2 (by decide)
    (fun name hname => ?_) fun name hname value hvalue => ?_
  · rcases List.mem_cons.1 hname with rfl | hname
    · exact ⟨"primary-color".toList, rfl, by decide⟩
    · exact ⟨"link".toList, List.mem_singleton.1 hname, by decide⟩
  · obtain ⟨hfeed, hcolon⟩ := hvalues name hname value hvalue
    exact ⟨hfeed, fun other _ hstands => hcolon hstands.mem_colon⟩

end Theme
end ThemeSheet
