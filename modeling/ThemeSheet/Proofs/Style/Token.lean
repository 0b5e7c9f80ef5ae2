/-
# Names that give way to colors

The colors are put in name by name, in as many passes over the lines of a style file.
No pass finds a name in a color that was put in before, and none finds a name where a
longer one stands: a name ends where the color ends that took its place.  So all
passes together are one reading of the text from left to right that remembers only
whether a colon was seen on the line.
-/

import Mathlib.Data.List.Induction
import ThemeSheet.Proofs.Table
import ThemeSheet.Proofs.Text.Split
import ThemeSheet.Proofs.Variable.Name
import ThemeSheet.Style.Source

namespace ThemeSheet
namespace Style

open Text Variable

/-- Was a colon seen on the line, the character included? -/
def sees (seen : Bool) (c : Char) : Bool := c != '\n' && (seen || c == ':')

/-- **One reading of a text:** behind the first colon of a line every whole name gives way to its color, if it
has one; all else stays. -/
def substituteFrom (color? : Text → Option Text) (seen : Bool) : Text → Text
  | [] => []
  | c :: t =>
    if c = '@' then
      let name := '@' :: t.takeWhile isNameChar
      (if seen then (color? name).getD name else name) ++
        substituteFrom color? seen (t.dropWhile isNameChar)
    else c :: substituteFrom color? (sees seen c) t
termination_by t => t.length
decreasing_by
  · have := (List.dropWhile_suffix (l := t) isNameChar).length_le
    simp only [List.length_cons]
    omega
  · simp

/-- A color in digits: a number sign and hexadecimal digits. -/
def IsDigits (color : Text) : Prop := ∃ ds, color = '#' :: ds ∧ ∀ d ∈ ds, isHexDigit d = true

/-- All colors of names are colors in digits. -/
def GivesDigits (color? : Text → Option Text) : Prop := ∀ n color, color? n = some color → IsDigits color

/-- The color of a single name. -/
def only (name color : Text) : Text → Option Text := fun n => if n = name then some color else none

variable {color? color?' : Text → Option Text} {name color w s t : Text} {seen : Bool} {c : Char}

/-! ### Marks -/

/-- The marks around names and values. -/
def marks : Text := "@#:;,\x7b\x7d\n".toList

/-- A mark around names is no name character. -/
theorem isNameChar_of_mark (h : c ∈ marks) : isNameChar c = false := by
  have hmarks : ∀ c ∈ marks, isNameChar c = false := by decide
  exact hmarks c h

/-- **A mark ends a name.** -/
theorem nameEnds_of_mark (h : c ∈ marks) (t : Text) : nameEnds (c :: t) = true := by
  rw [nameEnds, isNameChar_of_mark h]
  rfl

/-! ### Reading character by character and name by name -/

/-- **A text is read** character by character, and a name as a whole. -/
theorem name_induction {p : Text → Prop} (nil : p []) (plain : ∀ c t, c ≠ '@' → p t → p (c :: t))
    (name : ∀ w t, (∀ c ∈ w, isNameChar c = true) → nameEnds t = true → p t → p ('@' :: w ++ t)) (t : Text) :
    p t := by
  induction hlen : t.length using Nat.strongRecOn generalizing t with
  | _ n ih =>
    subst hlen
    cases t with
    | nil => exact nil
    | cons c t =>
      by_cases hc : c = '@'
      · subst hc
        have hends : nameEnds (t.dropWhile isNameChar) = true := by
          cases hd : t.dropWhile isNameChar with
          | nil => rfl
          | cons d rest =>
            have hhead := List.head?_dropWhile_not isNameChar t
            rw [hd] at hhead
            simpa [nameEnds] using hhead
        have hshort := (List.dropWhile_suffix (l := t) isNameChar).length_le
        rw [← List.takeWhile_append_dropWhile (p := isNameChar) (l := t)]
        refine name _ _ (fun _ => List.mem_takeWhile_imp) hends (ih _ ?_ _ rfl)
        simp only [List.length_cons]
        omega
      · exact plain c t hc (ih t.length (by simp) t rfl)

/-- Nothing is read of the empty text. -/
theorem substituteFrom_nil : substituteFrom color? seen [] = [] := by
  rw [substituteFrom]

/-- A character that begins no name stays. -/
theorem substituteFrom_cons (hc : c ≠ '@') :
    substituteFrom color? seen (c :: t) = c :: substituteFrom color? (sees seen c) t := by
  rw [substituteFrom, if_neg hc]

/-- What ends a name ends the run of its characters. -/
theorem not_isNameChar_of_nameEnds (h : nameEnds t = true) :
    ∀ c, t.head? = some c → isNameChar c = false := by
  intro c hc
  cases t with
  | nil => simp at hc
  | cons d t =>
    obtain rfl := Option.some.inj hc
    simpa [nameEnds] using h

/-- **A whole name** gives way to its color or stays. -/
theorem substituteFrom_name (hw : ∀ c ∈ w, isNameChar c = true) (ht : nameEnds t = true) :
    substituteFrom color? seen ('@' :: w ++ t) =
      (if seen then (color? ('@' :: w)).getD ('@' :: w) else '@' :: w) ++ substituteFrom color? seen t := by
  have hends := not_isNameChar_of_nameEnds ht
  rw [List.cons_append, substituteFrom, if_pos rfl, takeWhile_run hw hends, dropWhile_run hw hends]

/-- Neither a colon nor a line feed: what was seen stays. -/
theorem sees_of_ne (hcolon : c ≠ ':') (hfeed : c ≠ '\n') : sees seen c = seen := by
  rw [sees, bne_iff_ne.2 hfeed, beq_eq_false_iff_ne.2 hcolon, Bool.true_and, Bool.or_false]

/-- Text without names, colons and line feeds stays, and nothing is seen in it. -/
theorem substituteFrom_skip (hw : ∀ c ∈ w, c ≠ '@' ∧ c ≠ ':' ∧ c ≠ '\n') :
    substituteFrom color? seen (w ++ t) = w ++ substituteFrom color? seen t := by
  induction w with
  | nil => rfl
  | cons c w ih =>
    obtain ⟨hat, hcolon, hfeed⟩ := hw c (List.mem_cons_self ..)
    rw [List.cons_append, substituteFrom_cons hat, sees_of_ne hcolon hfeed,
      ih fun d hd => hw d (List.mem_cons_of_mem _ hd)]
    rfl

/-- A name character is no at sign, no colon and no line feed. -/
theorem ne_of_isNameChar (hc : isNameChar c = true) : c ≠ '@' ∧ c ≠ ':' ∧ c ≠ '\n' := by
  have hne {d : Char} (hd : d ∈ marks) : c ≠ d := by
    rintro rfl
    exact Bool.noConfusion (hc.symm.trans (isNameChar_of_mark hd))
  exact ⟨hne (by decide), hne (by decide), hne (by decide)⟩

/-- A color in digits holds no at sign, no colon and no line feed. -/
theorem IsDigits.ne (h : IsDigits color) : ∀ c ∈ color, c ≠ '@' ∧ c ≠ ':' ∧ c ≠ '\n' := by
  obtain ⟨ds, rfl, hds⟩ := h
  intro c hc
  rcases List.mem_cons.1 hc with rfl | hc
  · decide
  · have hdigit := hds c hc
    refine ⟨?_, ?_, ?_⟩ <;> rintro rfl <;> revert hdigit <;> decide

/-- Where names end, they end when the names behind have given way to colors. -/
theorem nameEnds_substituteFrom (hcolors : GivesDigits color?)
    (h : nameEnds t = true) : nameEnds (substituteFrom color? seen t) = true := by
  induction t using name_induction with
  | nil => rw [substituteFrom_nil]; rfl
  | plain c t hc => rwa [substituteFrom_cons hc]
  | name w t hw ht =>
    rw [substituteFrom_name hw ht]
    split
    · cases hf : color? ('@' :: w) with
      | none => exact nameEnds_of_mark (by decide) _
      | some color =>
        obtain ⟨ds, rfl, -⟩ := hcolors _ _ hf
        exact nameEnds_of_mark (by decide) _
    · exact nameEnds_of_mark (by decide) _

/-! ### One reading after another -/

/-- **Two readings are one** in which a name takes the color that the first one has for it, or else that of
the second one. -/
theorem substituteFrom_substituteFrom (hcolors : GivesDigits color?)
    (seen : Bool) (t : Text) :
    substituteFrom color?' seen (substituteFrom color? seen t) =
      substituteFrom (fun n => (color? n).or (color?' n)) seen t := by
  induction t using name_induction generalizing seen with
  | nil => simp only [substituteFrom_nil]
  | plain c t hc ih => rw [substituteFrom_cons hc, substituteFrom_cons hc, substituteFrom_cons hc, ih]
  | name w t hw ht ih =>
    have hends : nameEnds (substituteFrom color? seen t) = true := nameEnds_substituteFrom hcolors ht
    rw [substituteFrom_name hw ht, substituteFrom_name hw ht]
    cases seen with
    | false =>
      rw [if_neg Bool.false_ne_true, if_neg Bool.false_ne_true, substituteFrom_name hw hends,
        if_neg Bool.false_ne_true, ih]
    | true =>
      rw [if_pos rfl, if_pos rfl]
      cases hf : color? ('@' :: w) with
      | none =>
        rw [Option.getD_none, substituteFrom_name hw hends, if_pos rfl, ih, Option.none_or]
      | some color =>
        rw [Option.getD_some, substituteFrom_skip (hcolors _ _ hf).ne, ih, Option.some_or, Option.getD_some]

/-- Without colors the text stays as it is. -/
theorem substituteFrom_none (seen : Bool) (t : Text) : substituteFrom (fun _ => none) seen t = t := by
  induction t using name_induction generalizing seen with
  | nil => exact substituteFrom_nil
  | plain c t hc ih => rw [substituteFrom_cons hc, ih]
  | name w t hw ht ih =>
    rw [substituteFrom_name hw ht, ih, Option.getD_none, ite_self]

/-! ### A text in parts -/

/-- Was a colon seen on the last line of the text, or before on its only one? -/
def seesAfter (seen : Bool) (t : Text) : Bool := t.foldl sees seen

/-- A text without colons and line feeds changes nothing about what was seen. -/
theorem seesAfter_of_ne (h : ∀ c ∈ t, c ≠ ':' ∧ c ≠ '\n') : seesAfter seen t = seen := by
  induction t with
  | nil => rfl
  | cons c t ih =>
    obtain ⟨hcolon, hfeed⟩ := h c (List.mem_cons_self ..)
    rw [seesAfter, List.foldl_cons, sees_of_ne hcolon hfeed]
    exact ih fun d hd => h d (List.mem_cons_of_mem _ hd)

/-- **A text is read in parts** where no name reaches over the cut. -/
theorem substituteFrom_append (seen : Bool) (s : Text) (ht : nameEnds t = true) :
    substituteFrom color? seen (s ++ t) =
      substituteFrom color? seen s ++ substituteFrom color? (seesAfter seen s) t := by
  induction s using name_induction generalizing seen with
  | nil => rw [substituteFrom_nil]; rfl
  | plain c s hc ih =>
    rw [List.cons_append, substituteFrom_cons hc, substituteFrom_cons hc, ih, seesAfter, seesAfter,
      List.foldl_cons, List.cons_append]
  | name w s hw hs ih =>
    have hends : nameEnds (s ++ t) = true := by
      cases s with
      | nil => exact ht
      | cons d s => exact hs
    have hafter : seesAfter seen ('@' :: w ++ s) = seesAfter seen s := by
      have hname : seesAfter seen ('@' :: w) = seen := seesAfter_of_ne fun c hc => by
        rcases List.mem_cons.1 hc with rfl | hc
        · decide
        · exact (ne_of_isNameChar (hw c hc)).2
      rw [seesAfter, List.foldl_append]
      exact congrArg (seesAfter · s) hname
    rw [List.append_assoc, substituteFrom_name hw hends, substituteFrom_name hw hs, ih, hafter,
      List.append_assoc]

/-- **The lines of a text are read one by one,** all but the first without a colon before them. -/
theorem substituteFrom_join (seen : Bool) {line : Text} {rest : List Text}
    (h : ∀ l ∈ line :: rest, '\n' ∉ l) :
    substituteFrom color? seen (join ['\n'] (line :: rest)) =
      join ['\n'] (substituteFrom color? seen line :: rest.map (substituteFrom color? false)) := by
  induction rest generalizing seen line with
  | nil => rfl
  | cons next rest ih =>
    have hfeed : nameEnds ('\n' :: join ['\n'] (next :: rest)) = true := nameEnds_of_mark (by decide) _
    rw [join, List.append_assoc, List.singleton_append, substituteFrom_append seen line hfeed,
      substituteFrom_cons (by decide), show ∀ b, sees b '\n' = false from fun b => rfl,
      ih false fun l hl => h l (List.mem_cons_of_mem _ hl), List.map_cons, join, List.append_assoc,
      List.singleton_append]

/-- Without a colon, none has been seen. -/
theorem sees_false_of_ne (h : c ≠ ':') : sees false c = false := by
  rw [sees, beq_eq_false_iff_ne.2 h, Bool.or_false, Bool.and_false]

/-- Where no colon stands, all stays, and none is seen. -/
theorem substituteFrom_of_notMem (h : ':' ∉ t) :
    substituteFrom color? false t = t ∧ seesAfter false t = false := by
  constructor
  · induction t using name_induction with
    | nil => exact substituteFrom_nil
    | plain c t hc ih =>
      rw [List.mem_cons, not_or] at h
      rw [substituteFrom_cons hc, sees_false_of_ne (Ne.symm h.1), ih h.2]
    | name w t hw ht ih =>
      rw [substituteFrom_name hw ht, if_neg Bool.false_ne_true, ih fun hm => h (List.mem_append_right _ hm)]
  · induction t with
    | nil => rfl
    | cons c t ih =>
      rw [List.mem_cons, not_or] at h
      rw [seesAfter, List.foldl_cons, sees_false_of_ne (Ne.symm h.1)]
      exact ih h.2

/-- Behind what holds no colon stands a colon. -/
theorem eq_colon_of_dropWhile {values : Text} (h : t.dropWhile (· != ':') = c :: values) : c = ':' := by
  have hhead := List.head?_dropWhile_not (· != ':') t
  rw [h] at hhead
  simpa using hhead

/-- **What stands before the first colon of a line stays,** and all behind it is read with the colon seen. -/
theorem substituteFrom_line (line : Text) : substituteFrom color? false line =
    line.takeWhile (· != ':') ++ substituteFrom color? true (line.dropWhile (· != ':')) := by
  have hfront : ':' ∉ line.takeWhile (· != ':') := fun hm => by simpa using List.mem_takeWhile_imp hm
  obtain ⟨hstays, hsees⟩ : substituteFrom color? false (line.takeWhile (· != ':')) = _ ∧ _ :=
    substituteFrom_of_notMem hfront
  cases hd : line.dropWhile (· != ':') with
  | nil =>
    rw [List.dropWhile_eq_nil_iff] at hd
    have hall : line.takeWhile (· != ':') = line := List.takeWhile_eq_self_iff.2 hd
    rw [substituteFrom_nil, List.append_nil, hstays.symm.trans (by rw [hall])]
  | cons c values =>
    obtain rfl := eq_colon_of_dropWhile hd
    have hcolon : nameEnds (':' :: values) = true := nameEnds_of_mark (by decide) _
    have hline : line = line.takeWhile (· != ':') ++ ':' :: values := by
      rw [← hd, List.takeWhile_append_dropWhile]
    rw [hline, substituteFrom_append false _ hcolon, hstays, hsees, substituteFrom_cons (by decide),
      substituteFrom_cons (by decide), ← hline]
    rfl

/-! ### A single name -/

/-- Where a name does not begin, the search goes on. -/
theorem substituteToken_cons {k : Text} (hc : c ≠ '@') :
    substituteToken ('@' :: k) color (c :: t) = c :: substituteToken ('@' :: k) color t := by
  rw [substituteToken, dropPrefix?, if_neg (Ne.symm hc)]

/-- A beginning without at signs stays. -/
theorem substituteToken_skip {k : Text} (hw : '@' ∉ w) :
    substituteToken ('@' :: k) color (w ++ t) = w ++ substituteToken ('@' :: k) color t := by
  induction w with
  | nil => rfl
  | cons c w ih =>
    rw [List.mem_cons, not_or] at hw
    rw [List.cons_append, substituteToken_cons (Ne.symm hw.1), ih hw.2]
    rfl

/-- **A whole name gives way if it is the one that is looked for,** also where that one begins it. -/
theorem substituteToken_name {k : Text} (hk : ∀ c ∈ k, isNameChar c = true)
    (hw : ∀ c ∈ w, isNameChar c = true) (ht : nameEnds t = true) :
    substituteToken ('@' :: k) color ('@' :: w ++ t) =
      (if w = k then color else '@' :: w) ++ substituteToken ('@' :: k) color t := by
  have hat : '@' ∉ w := notMem_of_isNameChar hw (isNameChar_of_mark (by decide))
  rw [List.cons_append, substituteToken, dropPrefix?, if_pos rfl]
  cases hd : dropPrefix? k (w ++ t) with
  | none =>
    have hne : w ≠ k := by
      rintro rfl
      rw [dropPrefix?_eq_some.2 rfl] at hd
      exact Option.some_ne_none _ hd
    rw [if_neg hne, substituteToken_skip hat]
    rfl
  | some rest =>
    have hcut := dropPrefix?_eq_some.1 hd
    dsimp only
    by_cases hrest : nameEnds rest = true
    · -- two readings of the same run of characters
      have hrun := congrArg (List.takeWhile isNameChar) hcut
      rw [takeWhile_run hw (not_isNameChar_of_nameEnds ht),
        takeWhile_run hk (not_isNameChar_of_nameEnds hrest)] at hrun
      subst hrun
      obtain rfl := List.append_cancel_left hcut
      rw [hrest, if_neg (by simp), if_pos (by simp), if_pos rfl]
    · have hne : w ≠ k := by
        rintro rfl
        exact hrest (List.append_cancel_left hcut ▸ ht)
      rw [Bool.not_eq_true] at hrest
      rw [hrest, if_pos (by simp), if_neg hne, substituteToken_skip hat]
      rfl

/-- **A pass over what stands behind a colon** reads it once. -/
theorem substituteToken_eq (hname : IsVariable name) (hfeed : '\n' ∉ t) :
    substituteToken name color t = substituteFrom (only name color) true t := by
  obtain ⟨k, rfl, -, hk⟩ := hname
  induction t using name_induction with
  | nil => rw [substituteFrom_nil, substituteToken]; rfl
  | plain c t hc ih =>
    rw [List.mem_cons, not_or] at hfeed
    have hsees : sees true c = true := by rw [sees, bne_iff_ne.2 (Ne.symm hfeed.1)]; rfl
    rw [substituteToken_cons hc, substituteFrom_cons hc, hsees, ih hfeed.2]
  | name w t hw ht ih =>
    rw [substituteToken_name hk hw ht, substituteFrom_name hw ht, if_pos rfl,
      ih fun hm => hfeed (List.mem_append_right _ hm), only]
    by_cases h : w = k
    · simp [h]
    · simp [h]

/-- **A pass over all lines** reads the text once. -/
theorem pass_eq (hname : IsVariable name) (t : Text) :
    join ['\n'] ((lines t).map (substituteInLine name color)) = substituteFrom (only name color) false t := by
  have hlines : ∀ l ∈ lines t, '\n' ∉ l := fun l hl => (mem_splitOn hl).1
  have hline (l : Text) (hl : l ∈ lines t) :
      substituteInLine name color l = substituteFrom (only name color) false l := by
    have hfeed : '\n' ∉ l.dropWhile (· != ':') :=
      fun hm => hlines l hl ((List.dropWhile_suffix _).mem hm)
    rw [substituteFrom_line, substituteInLine, ← substituteToken_eq hname hfeed]
    split
    · next hd =>
      rw [hd, substituteToken_eq hname List.not_mem_nil, substituteFrom_nil]
    · rfl
  rw [List.map_congr_left hline]
  conv_rhs => rw [← join_splitOn '\n' t]
  obtain ⟨first, rest, hsplit⟩ := List.exists_cons_of_ne_nil (splitOn_ne_nil '\n' t)
  rw [lines, hsplit] at hlines ⊢
  rw [substituteFrom_join false hlines, List.map_cons]

/-! ### All passes -/

/-- A list of colors in digits gives colors in digits. -/
theorem givesDigits_lookup {colors : List (Text × Text)} (h : ∀ e ∈ colors, IsDigits e.2) :
    GivesDigits fun n => colors.lookup n := by
  intro n color hn
  obtain ⟨before, after, rfl, -⟩ := List.lookup_eq_some_iff.1 hn
  exact h (n, color) (by simp)

/-- **One pass for each name, line by line, is one reading for all of them.** -/
theorem foldl_pass_eq {colors : List (Text × Text)} (h : ∀ e ∈ colors, IsVariable e.1 ∧ IsDigits e.2)
    (t : Text) :
    colors.foldl (fun t e => join ['\n'] ((lines t).map (substituteInLine e.1 e.2))) t =
      substituteFrom (fun n => colors.lookup n) false t := by
  induction colors using List.reverseRecOn with
  | nil => exact (substituteFrom_none false t).symm
  | append_singleton colors e ih =>
    have hfirst : ∀ e ∈ colors, IsVariable e.1 ∧ IsDigits e.2 := fun e he => h e (List.mem_append_left _ he)
    obtain ⟨hname, -⟩ := h e (by simp)
    rw [List.foldl_append, List.foldl_cons, List.foldl_nil, ih hfirst, pass_eq hname,
      substituteFrom_substituteFrom (givesDigits_lookup fun e he => (hfirst e he).2)]
    congr 1
    funext n
    rw [List.lookup_append, Table.lookup_cons_pair, only, List.lookup_nil]

/-- **The passes read the text once.** On every line all before the first colon stays, and behind it every
whole name that has a color gives way to it, whatever other names have colors; so the order of the colors
does not matter. -/
theorem substituteColors_eq (content : Text) (colors : Table Text)
    (h : ∀ e ∈ colors.entries, IsVariable e.1 ∧ IsDigits e.2) :
    substituteColors content colors = join ['\n'] ((lines content).map fun line =>
        line.takeWhile (· != ':') ++ substituteFrom colors.get? true (line.dropWhile (· != ':'))) ∧
      substituteColors content colors = substituteFrom colors.get? false content ∧
      (∀ before w after, content = before ++ '@' :: w ++ after → (∀ c ∈ w, isNameChar c = true) →
        nameEnds after = true → seesAfter false before = true →
          substituteColors content colors = substituteFrom colors.get? false before ++
            (colors.get? ('@' :: w)).getD ('@' :: w) ++ substituteFrom colors.get? true after) ∧
      ∀ colors' : Table Text, colors'.entries.Perm colors.entries →
        substituteColors content colors' = substituteColors content colors := by
  have honce : substituteColors content colors = substituteFrom colors.get? false content :=
    foldl_pass_eq h content
  refine ⟨?_, honce, ?_, ?_⟩
  · obtain ⟨first, rest, hsplit⟩ := List.exists_cons_of_ne_nil (splitOn_ne_nil '\n' content)
    have hlines : ∀ l ∈ first :: rest, '\n' ∉ l := fun l hl => (mem_splitOn (hsplit ▸ hl)).1
    rw [honce]
    conv_lhs => rw [← join_splitOn '\n' content, hsplit, substituteFrom_join false hlines, ← List.map_cons]
    rw [lines, hsplit, funext substituteFrom_line]
  · rintro before w after rfl hw hafter hseen
    have hat : nameEnds ('@' :: w ++ after) = true := nameEnds_of_mark (by decide) _
    rw [honce, List.append_assoc, substituteFrom_append false before hat, hseen,
      substituteFrom_name hw hafter, if_pos rfl, List.append_assoc]
  · intro colors' hperm
    have hget : colors'.get? = colors.get? := by
      funext n
      refine Option.ext fun color => ?_
      rw [← Table.mem_entries_iff, ← Table.mem_entries_iff, hperm.mem_iff]
    rw [honce, ← hget]
    exact foldl_pass_eq (fun e he => h e (hperm.mem_iff.1 he)) content

/-- Three names that begin alike. -/
def shades : Table Text :=
  .ofList [("@primary-1".toList, "#e6f7ff".toList), ("@primary-10".toList, "#003a8c".toList),
    ("@primary-color-hover".toList, "#40a9ff".toList)]

/-- The table with names that begin alike gives variables colors in digits. -/
theorem isDigits_shades : ∀ e ∈ shades.entries, IsVariable e.1 ∧ IsDigits e.2 := by
  have hentries : shades.entries = [("@primary-1".toList, "#e6f7ff".toList),
      ("@primary-10".toList, "#003a8c".toList), ("@primary-color-hover".toList, "#40a9ff".toList)] := by
    decide
  rw [hentries]
  intro e he
  simp only [List.mem_cons, List.not_mem_nil, or_false] at he
  rcases he with rfl | rfl | rfl
  · exact ⟨⟨"primary-1".toList, rfl, by decide, by decide⟩, "e6f7ff".toList, rfl, by decide⟩
  · exact ⟨⟨"primary-10".toList, rfl, by decide, by decide⟩, "003a8c".toList, rfl, by decide⟩
  · exact ⟨⟨"primary-color-hover".toList, rfl, by decide, by decide⟩, "40a9ff".toList, rfl, by decide⟩

/-- Names that begin alike are told apart, in any order of the table, and only in values. -/
theorem substituteColors_eq_shades :
    substituteColors ".@primary-1 \x7b color: @primary-10@primary-1; \x7d\n@a: @primary-color-hover".toList shades =
      ".@primary-1 \x7b color: #003a8c#e6f7ff; \x7d\n@a: #40a9ff".toList ∧
    ∀ colors' : Table Text, colors'.entries.Perm shades.entries →
      substituteColors "color: @primary-10".toList colors' =
        substituteColors "color: @primary-10".toList shades := by
  refine ⟨?_, (substituteColors_eq _ shades isDigits_shades).2.2.2⟩
  rw [(substituteColors_eq _ shades isDigits_shades).2.1]
  decide +kernel

end Style
end ThemeSheet
