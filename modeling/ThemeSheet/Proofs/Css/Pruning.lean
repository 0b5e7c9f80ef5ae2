/-
# What pruning a style sheet gives

However a style sheet is printed, pruning it gives the same text: its color rules, one
declaration to a line.  What stays is said here without the program, and the text is
put together rule by rule.
-/

import ThemeSheet.Proofs.Css.Printing
import ThemeSheet.Proofs.Css.Sheet
import ThemeSheet.Proofs.Text.Split

namespace ThemeSheet
namespace Css

/-! ### What is looked for in texts -/

/-- A character stands on the first line exactly if it stands behind no line feed. -/
theorem contains_line_iff {c : Char} (hc : c ≠ '\n') {t : Text} :
    (t.takeWhile (· != '\n')).contains c = true ↔ ∃ a b, t = a ++ c :: b ∧ '\n' ∉ a := by
  rw [List.contains_iff_mem]
  constructor
  · intro h
    obtain ⟨a, b, hab⟩ := List.append_of_mem h
    refine ⟨a, b ++ t.dropWhile (· != '\n'), ?_, fun hn => ?_⟩
    · rw [← List.cons_append, ← List.append_assoc, ← hab, List.takeWhile_append_dropWhile]
    · have := List.mem_takeWhile_imp (p := (· != '\n')) (hab ▸ List.mem_append_left _ hn)
      simp at this
  · rintro ⟨a, b, rfl, ha⟩
    rw [List.takeWhile_append_of_pos fun d hd => by simpa using ne_of_mem_of_not_mem hd ha,
      List.takeWhile_cons_of_pos (by simpa using hc)]
    simp

/-- **An address is found exactly where one stands on a single line.** -/
theorem hasUrl_iff {t : Text} : hasUrl t = true ↔
    ∃ a b c, t = a ++ "url(".toList ++ b ++ ')' :: c ∧ '\n' ∉ b := by
  induction t with
  | nil => simp [hasUrl]
  | cons c t ih =>
    rw [hasUrl, Bool.or_eq_true]
    refine (or_congr (c := ∃ b d, c :: t = "url(".toList ++ (b ++ ')' :: d) ∧ '\n' ∉ b) ?_ ih).trans ?_
    · cases h : Text.dropPrefix? "url(".toList (c :: t) with
      | some rest =>
        refine (contains_line_iff (by decide)).trans ?_
        rw [Text.dropPrefix?_eq_some.1 h]
        simp only [List.append_right_inj]
      | none =>
        refine ⟨fun h' => absurd h' (by simp), ?_⟩
        rintro ⟨b, d, hbd, -⟩
        rw [Text.dropPrefix?_eq_some.2 hbd] at h
        simp at h
    constructor
    · rintro (⟨b, d, h, hb⟩ | ⟨a, b, d, rfl, hb⟩)
      · exact ⟨[], b, d, by rw [h]; simp, hb⟩
      · exact ⟨c :: a, b, d, rfl, hb⟩
    · rintro ⟨a, b, d, h, hb⟩
      cases a with
      | nil => exact .inl ⟨b, d, by rw [h]; simp, hb⟩
      | cons x a => exact .inr ⟨a, b, d, (List.cons.inj h).2, hb⟩

/-! ### What stays -/

/-- **A declaration that stays:** no address stands in its value on a single line, and the property
speaks of a color or the value is a bare number. -/
structure Declaration.IsWanted (d : Declaration) : Prop where
  address : ¬ ∃ a b c, written d.value = a ++ "url(".toList ++ b ++ ')' :: c ∧ '\n' ∉ b
  color : (∃ part ∈ ["color", "background", "border", "box-shadow"],
      ∃ a b, Text.asciiLower d.name = a ++ part.toList ++ b) ∨
    ∃ a ds b, AllSpace a ∧ AllSpace b ∧ d.value = a ++ .token (.number ds) :: b

/-- A value is a bare number exactly if it is a number with separators around it. -/
theorem Declaration.isNumeric_iff {d : Declaration} : d.isNumeric = true ↔
    ∃ a ds b, AllSpace a ∧ AllSpace b ∧ d.value = a ++ .token (.number ds) :: b := by
  have hnil : ∀ {ns : List Node}, ns.filter (fun n => !n.isSpace) = [] ↔ AllSpace ns := by
    intro ns
    simp [AllSpace, List.filter_eq_nil_iff]
  unfold Declaration.isNumeric
  split
  · next ds h =>
    obtain ⟨a, b, hab, ha, -, hb⟩ := List.filter_eq_cons_iff.1 h
    exact ⟨fun _ => ⟨a, ds, b, by simpa [AllSpace] using ha, hnil.1 hb, hab⟩, fun _ => rfl⟩
  · next hne =>
    refine ⟨fun h => absurd h (by simp), ?_⟩
    rintro ⟨a, ds, b, ha, hb, h⟩
    refine absurd ?_ (hne ds)
    rw [h, List.filter_append, hnil.2 ha, List.filter_cons_of_pos (by rfl), hnil.2 hb, List.nil_append]

/-- A property speaks of a color exactly if its name, in small letters, holds one of four words. -/
theorem Declaration.isColorProperty_iff {d : Declaration} : d.isColorProperty = true ↔
    ∃ part ∈ ["color", "background", "border", "box-shadow"],
      ∃ a b, Text.asciiLower d.name = a ++ part.toList ++ b := by
  rw [Declaration.isColorProperty, List.any_eq_true,
    show colorProperties = ["color", "background", "border", "box-shadow"].map String.toList from rfl]
  simp only [List.mem_map, exists_exists_and_eq_and, Text.occursIn_iff]

/-- What is kept is what the rule about declarations says. -/
theorem Declaration.isKept_iff {d : Declaration} : d.isKept = true ↔ d.IsWanted := by
  have haddress : (!hasUrl (written d.value)) = true ↔
      ¬ ∃ a b c, written d.value = a ++ "url(".toList ++ b ++ ')' :: c ∧ '\n' ∉ b := by
    rw [← hasUrl_iff, Bool.not_eq_true', Bool.not_eq_true]
  rw [Declaration.isKept, Bool.and_eq_true, Bool.or_eq_true, haddress, Declaration.isColorProperty_iff,
    Declaration.isNumeric_iff]
  exact ⟨fun ⟨h1, h2⟩ => ⟨h1, h2⟩, fun ⟨h1, h2⟩ => ⟨h1, h2⟩⟩

/-- Whether a declaration stays can be checked. -/
instance : DecidablePred Declaration.IsWanted := fun _ => decidable_of_iff _ Declaration.isKept_iff

/-! ### The text -/

/-- A declaration on a line of its own.  Its value is put down as `text` says, without blanks at both
ends. -/
def Declaration.printWith (text : List Node → Text) (d : Declaration) : Text :=
  "  ".toList ++ d.name ++ ": ".toList ++ Text.strip (text d.value) ++
    (if d.important then " !important".toList else []) ++ ";\n".toList

/-- A style rule with the declarations that stay; nothing if none stays or if it only probes the
palette. -/
def Item.printWith (text : List Node → Text) : Item → Text
  | .style selector ds =>
    let kept := ds.filter fun d => d.IsWanted
    if ".main-color .palatte-".toList <+: Text.strip (text selector) ∨ kept = [] then []
    else Text.strip (text selector) ++ " \x7b\n".toList ++ kept.flatMap (Declaration.printWith text) ++
      "\x7d\n".toList
  | _ => []

/-- What an item is in the pruned style sheet. -/
def Item.print : Item → Text := Item.printWith written

/-- The whole numbers with too many digits that stand in the items. -/
def Item.overlongs (items : List Item) : List Text :=
  Css.overlongs (Node.allLexemes (items.flatMap Item.nodes))

/-- A declaration is printed as its line and a line feed. -/
theorem Declaration.print_eq : Declaration.printWith written = fun d => d.line ++ ['\n'] := by
  funext d
  unfold Declaration.printWith Declaration.line
  rw [show "  ".toList = [' ', ' '] from rfl, show ": ".toList = [':', ' '] from rfl,
    show ";\n".toList = [';', '\n'] from rfl]
  simp only [List.append_assoc, List.cons_append, List.nil_append]

/-- An item is printed as what is kept of it and a line feed. -/
theorem Item.print_eq (item : Item) :
    item.print = (item.kept?.map fun r => r.written ++ ['\n']).getD [] := by
  cases item with
  | comment _ => rfl
  | atRule _ _ _ => rfl
  | style selector ds =>
    have hfilter : ds.filter Declaration.isKept = ds.filter fun d => d.IsWanted :=
      List.filter_congr fun d _ => by simp [← Declaration.isKept_iff]
    have hprobe : Text.beginsWith probeSelector (Text.strip (written selector)) = true ↔
        ".main-color .palatte-".toList <+: Text.strip (written selector) := by
      rw [Text.beginsWith_iff]
      exact ⟨fun ⟨r, hr⟩ => ⟨r, hr.symm⟩, fun ⟨r, hr⟩ => ⟨r, hr.symm⟩⟩
    simp only [Item.print, Item.printWith, Item.kept?, keptRule?, hfilter, Bool.or_eq_true, hprobe, List.isEmpty_iff]
    split
    · rfl
    · next hkept =>
      have hne := fun h => hkept (.inr h)
      have hlines : Text.join ['\n'] ((ds.filter fun d => d.IsWanted).map Declaration.line) ++ ['\n'] =
          (ds.filter fun d => d.IsWanted).flatMap (Declaration.printWith written) := by
        rw [Text.join_end _ (by simpa using hne), List.flatMap_map, Declaration.print_eq]
      rw [← hlines, Option.map_some, Option.getD_some, KeptRule.written,
        show "\x7d\n".toList = ['\x7d', '\n'] from rfl, show "\n\x7d".toList = ['\n', '\x7d'] from rfl]
      simp only [List.append_assoc, List.cons_append, List.nil_append]

/-- Items are printed as what is kept of them, each closed by a line feed. -/
theorem Item.flatMap_print (items : List Item) :
    items.flatMap Item.print = (items.filterMap Item.kept?).flatMap fun r => r.written ++ ['\n'] := by
  induction items with
  | nil => rfl
  | cons item items ih =>
    rw [List.flatMap_cons, Item.print_eq, ih, List.filterMap_cons]
    cases item.kept? with
    | none => rfl
    | some r => rfl

/-- The pruned text is the kept rules, each with a line end behind it. -/
theorem pruned_eq (text : Text) :
    pruned text = ((rules (Node.ofText text)).filterMap Rule.kept?).flatMap fun r => r.written ++ ['\n'] := by
  rw [pruned]
  cases (rules (Node.ofText text)).filterMap Rule.kept? with
  | nil => rfl
  | cons r rs =>
    simp only
    rw [Text.join_end _ (by simp), List.flatMap_map]

/-- **The pruned text of a laid out style sheet is what its items print.** -/
theorem LaidOut.prune_eq {items : List Item} {ns : List Node} {text : Text} (h : LaidOut items ns)
    (hns : lexemes (normalise text) = Node.allLexemes ns) :
    prune text =
      match Item.overlongs items with
      | numeral :: _ => .error (.badNumeral numeral)
      | [] => .ok (items.flatMap Item.print) := by
  have hpruned : pruned text = items.flatMap Item.print := by
    rw [pruned_eq, Node.ofText, hns, Node.ofLexemes_allLexemes, h.kept_eq, Item.flatMap_print]
  have hnumerals : (Node.allLexemes ns).filterMap Lexeme.overlong? = Item.overlongs items :=
    h.overlongs_eq
  rw [prune, ← List.head?_filterMap, hns, hpruned, hnumerals]
  cases Item.overlongs items <;> rfl

/-- **Pruning the text of a style sheet prints what stays of its items, in their order;** a whole
number with too many digits is refused. -/
theorem prune_eq_of_printed {items : List Item} {text : Text} (h : Printed items (normalise text)) :
    prune text =
      match Item.overlongs items with
      | numeral :: _ => .error (.badNumeral numeral)
      | [] => .ok (items.flatMap Item.print) := by
  obtain ⟨ns, hns, hlaid⟩ := h.laidOut
  exact hlaid.prune_eq hns

/-- An at-rule, a comment and a rule of which one declaration stays. -/
theorem prune_eq_of_printed_small :
    (prune "@m;/*c*/a\x7btop:3;x:y\x7d".toList).toOption = some "a \x7b\n  top: 3;\n\x7d\n".toList := by
  have hthree : IsNumeral ['3'] := .plain .none (.whole ⟨by decide, by decide⟩)
  have hcontent : Content
      [⟨"top".toList, [.token (.number ['3'])], false⟩, ⟨['x'], [.token (.ident ['y'])], false⟩]
      [.token (.ident "top".toList), .mark ':', .token (.number ['3']), .mark ';', .token (.ident ['x']),
        .mark ':', .token (.ident ['y'])] :=
    .cons (Declaration.laidOut_of_plain (by decide)) (.last (Declaration.laidOut_of_plain (by decide)))
  have hselector : Spelled "\x7btop:3;x:y\x7d".toList [.token (.ident ['a'])] "a\x7btop:3;x:y\x7d".toList :=
    .piece (s := ['a']) (.ident ⟨by decide, by decide⟩ (by decide) (by decide) (by decide) (by decide)) .nil
  have hbody : Spelled ['\x7d'] [.token (.ident "top".toList), .token (.literal [':']), .token (.number ['3']),
      .token (.literal [';']), .token (.ident ['x']), .token (.literal [':']), .token (.ident ['y'])]
      "top:3;x:y\x7d".toList :=
    .piece (s := "top".toList) (IsIdent.spells ⟨by decide, by decide⟩ (.inl rfl) _)
      (.piece (s := [':']) (spells_mark (.inl rfl) _)
        (.piece (s := ['3']) (.number hthree ⟨by decide, by decide, by decide⟩ (by decide) (by decide))
          (.piece (s := [';']) (spells_mark (.inr (.inl rfl)) _)
            (.piece (s := ['x']) (IsIdent.spells ⟨by decide, by decide⟩ (.inl rfl) _)
              (.piece (s := [':']) (spells_mark (.inl rfl) _)
                (.piece (s := ['y']) (.ident ⟨by decide, by decide⟩ (by decide) (by decide) (by decide)
                  (by decide)) .nil))))))
  have hrule : Printed [.style [.token (.ident ['a'])] [⟨"top".toList, [.token (.number ['3'])], false⟩,
      ⟨['x'], [.token (.ident ['y'])], false⟩]] "a\x7btop:3;x:y\x7d".toList :=
    .style ⟨by decide, by decide, by decide, by simp⟩ hcontent hselector hbody .nil
  have hprinted : Printed [.atRule ['m'] [] none, .comment ['c'], .style [.token (.ident ['a'])]
      [⟨"top".toList, [.token (.number ['3'])], false⟩, ⟨['x'], [.token (.ident ['y'])], false⟩]]
      "@m;/*c*/a\x7btop:3;x:y\x7d".toList :=
    .atRule (s := "@m".toList) (by simp) (.atKeyword ⟨by decide, by decide⟩ (by decide)) (by decide +kernel)
      (.comment (b := ['c']) rfl hrule)
  rw [prune_eq_of_printed hprinted]
  decide

/-- The lexemes of nodes, nothing between them. -/
def sideBySide (ns : List Node) : Text := (Node.allLexemes ns).flatMap Lexeme.written

/-- **Neighbours that would fuse are kept apart:** the number behind the unit of `2n+1` gets an empty
comment before it. -/
theorem not_forall_prune_eq_sideBySide : ¬ ∀ (items : List Item) (text : Text),
    Printed items (normalise text) → prune text = .ok (items.flatMap (Item.printWith sideBySide)) := by
  intro h
  have htwo : IsNumeral ['2'] := .plain .none (.whole ⟨by decide, by decide⟩)
  have hone : IsNumeral ['+', '1'] := .plain .plus (.whole ⟨by decide, by decide⟩)
  have hcontent : Content [⟨"color".toList, [.token (.ident "red".toList)], false⟩]
      [.token (.ident "color".toList), .mark ':', .token (.ident "red".toList)] :=
    .last (Declaration.laidOut_of_plain (by decide))
  have hselector : Spelled "\x7bcolor:red\x7d".toList [.token (.ident ['a']), .token (.literal [':']),
      .calls "nth-child".toList, .token (.dimension ['2'] ['n']), .token (.number ['+', '1']), .closes .round]
      "a:nth-child(2n+1)\x7bcolor:red\x7d".toList :=
    .piece (s := ['a']) (IsIdent.spells ⟨by decide, by decide⟩ (.inl rfl) _)
      (.piece (s := [':']) (spells_mark (.inl rfl) _)
        (.piece (s := "nth-child(".toList) (.calls ⟨by decide, by decide⟩ (by decide))
          (.piece (s := ['2', 'n']) (.dimension htwo ⟨by decide, by decide⟩ ⟨by decide, by decide, by decide⟩
              (by decide))
            (.piece (s := ['+', '1']) (.number hone ⟨by decide, by decide, by decide⟩ (by decide) (by decide))
              (.piece (s := [')']) (.closes .round) .nil)))))
  have hbody : Spelled ['\x7d'] [.token (.ident "color".toList), .token (.literal [':']),
      .token (.ident "red".toList)] "color:red\x7d".toList :=
    .piece (s := "color".toList) (IsIdent.spells ⟨by decide, by decide⟩ (.inl rfl) _)
      (.piece (s := [':']) (spells_mark (.inl rfl) _)
        (.piece (s := "red".toList) (.ident ⟨by decide, by decide⟩ (by decide) (by decide) (by decide)
          (by decide)) .nil))
  have hprinted : Printed [.style [.token (.ident ['a']), .mark ':', .call "nth-child".toList
      [.token (.dimension ['2'] ['n']), .token (.number ['+', '1'])]]
      [⟨"color".toList, [.token (.ident "red".toList)], false⟩]] "a:nth-child(2n+1)\x7bcolor:red\x7d".toList :=
    .style ⟨by decide, by decide, by decide, by simp⟩ hcontent hselector hbody .nil
  have hplain := h _ "a:nth-child(2n+1)\x7bcolor:red\x7d".toList hprinted
  have hpruned : (prune "a:nth-child(2n+1)\x7bcolor:red\x7d".toList).toOption =
      some "a:nth-child(2n/**/+1) \x7b\n  color: red;\n\x7d\n".toList := by
    decide +kernel
  rw [hplain] at hpruned
  exact absurd hpruned (by decide)

end Css
end ThemeSheet
