/-
# The call that a computed color stands for

A computed color tells the channels and the opacity that it was written from.  Where
no two names have colors with the same channels, all calls that compile to it fade
the same variable to an opacity that is written alike, and the first of them that was
seen takes its place.

No computed color begins inside another one or inside a call that fades a variable,
and none arises where a call is put in.  So it does not matter in what order the
computed colors are looked for.
-/

import ThemeSheet.Proofs.Color.Faded
import ThemeSheet.Proofs.Fade.Computed

namespace ThemeSheet

open Text

/-- **Every name has a color in digits, and no two names have colors with the same channels.** -/
structure Discovered.Distinguished (d : Discovered) : Prop where
  color : ∀ name found, d.get? name = some found → ∃ color, found = some color ∧ Color.isSixDigit color = true
  channels : ∀ name name' color color', d.get? name = some (some color) → d.get? name' = some (some color') →
    Color.hexToRgb? color = Color.hexToRgb? color' → name = name'

namespace Fade

variable {d : Discovered} {call name name' numeral text : Text} {percent percent' : Binary64}

/-! ### What the text tells -/

/-- **Fades that compile to the same text are of the same variable,** to an opacity that is written alike. -/
theorem Prints.inj (hd : d.Distinguished) {call' : Text} (h : Prints d call name percent text)
    (h' : Prints d call' name' percent' text) (hb : beginsWith "rgba".toList text = true) :
    name = name' ∧ Color.fadedAlpha percent = Color.fadedAlpha percent' := by
  obtain ⟨-, color, -, -, hcolor, htext⟩ := h
  obtain ⟨-, color', -, -, hcolor', htext'⟩ := h'
  obtain ⟨hchannels, halpha⟩ := Color.faded_inj htext htext' hb
  exact ⟨hd.channels _ _ _ _ hcolor hcolor' hchannels, halpha⟩

/-! ### Where a computed color begins -/

/-- **No computed color begins in a fade of a variable.** -/
theorem dropPrefix?_of_themeFade? {q front back : Text} (hq : Color.IsComputed q)
    (hfade : themeFade? call = some (name, numeral)) (hc : call = front ++ back) (hb : back ≠ []) (t : Text) :
    dropPrefix? q (back ++ t) = none := by
  refine Option.eq_none_iff_forall_ne_some.2 fun r hr => ?_
  obtain ⟨b, rfl⟩ := (isCall_of_themeFade? hfade).end_eq_append hc hb
  obtain ⟨v, hv⟩ := Color.IsColor.prefix_of_bracket (.inr hq) (dropPrefix?_eq_some.1 hr)
  -- the color would have the only opening bracket of the call
  obtain ⟨inner, hinner, arguments, rfl, hround⟩ := endsCall_of_themeFade? hfade
  obtain ⟨numbers, rfl, -⟩ := hq
  have hcut : "fade".toList ++ '(' :: (arguments ++ [')']) =
      (front ++ "rgba".toList) ++ '(' :: (numbers ++ [')'] ++ v) := by
    rw [hc, hv] at hinner
    simpa [opening] using hinner.symm
  obtain ⟨hword, -⟩ := (List.append_cons_inj_of_notMem (by decide)
    (List.not_mem_append hround (by decide))).1 hcut
  have hname : "fade".toList = "rgba".toList := (List.append_inj' (show [] ++ _ = _ from hword) rfl).2
  exact absurd hname (by decide)

/-- **No computed color begins in another one.** -/
theorem dropPrefix?_of_isComputed {p q front back : Text} (hp : Color.IsComputed p)
    (hq : Color.IsComputed q) (hne : p ≠ q) (hc : q = front ++ back) (hb : back ≠ []) (t : Text) :
    dropPrefix? p (back ++ t) = none := by
  refine Option.eq_none_iff_forall_ne_some.2 fun r hr => hne ?_
  have hr := dropPrefix?_eq_some.1 hr
  cases front with
  | nil =>
    rw [List.nil_append] at hc
    subst hc
    exact (Color.IsColor.append_inj (.inr hp) (.inr hq) hr.symm).1
  | cons c front =>
    -- only the first character of a color begins one
    obtain ⟨tail, rfl, htail⟩ := hq.eq_cons
    obtain ⟨tail', rfl, -⟩ := hp.eq_cons
    obtain ⟨x, back, rfl⟩ := List.exists_cons_of_ne_nil hb
    have hx : x ∈ tail := by rw [(List.cons.inj hc).2]; simp
    obtain rfl := (List.cons.inj hr).1
    exact absurd (htail _ hx).1 (by decide)

/-- No `f` stands in a computed color. -/
theorem notMem_of_isComputed {q : Text} (h : Color.IsComputed q) : 'f' ∉ q := by
  obtain ⟨tail, rfl, htail⟩ := h.eq_cons
  rw [List.mem_cons, not_or]
  exact ⟨by decide, fun hf => (htail _ hf).2 rfl⟩

/-- **The passes for two computed colors may change places.** -/
theorem replaceAll_comm_of_isComputed {p q call' name' numeral' : Text} (hp : Color.IsComputed p)
    (hq : Color.IsComputed q) (hne : p ≠ q) (hfade : themeFade? call = some (name, numeral))
    (hfade' : themeFade? call' = some (name', numeral')) (t : Text) :
    replaceAll p call (replaceAll q call' t) = replaceAll q call' (replaceAll p call t) := by
  have hf {call : Text} (h : IsCall call) : ∃ a, call = 'f' :: a := by
    obtain ⟨inner, rfl⟩ := h
    exact ⟨_, rfl⟩
  obtain ⟨a, rfl⟩ := hf (isCall_of_themeFade? hfade)
  obtain ⟨b, rfl⟩ := hf (isCall_of_themeFade? hfade')
  have hnil {q : Text} (hq : Color.IsComputed q) : q ≠ [] := by
    obtain ⟨tail, rfl, -⟩ := hq.eq_cons
    simp
  exact replaceAll_comm (hnil hp) (hnil hq) (notMem_of_isComputed hp) (notMem_of_isComputed hq)
    (fun t => replaceAll_skip fun _ _ hw hb => dropPrefix?_of_isComputed hp hq hne hw hb t)
    (fun t => replaceAll_skip fun _ _ hw hb => dropPrefix?_of_isComputed hq hp hne.symm hw hb t)
    (fun t => replaceAll_skip fun _ _ hw hb => dropPrefix?_of_themeFade? hp hfade' hw hb t)
    (fun t => replaceAll_skip fun _ _ hw hb => dropPrefix?_of_themeFade? hq hfade hw hb t) t

end Fade

namespace FadeMap

variable {f : FadeMap} {d : Discovered}

/-! ### Which call is remembered -/

/-- The text that a call compiles to, if there is one and nothing is at fault. -/
def text? (d : Discovered) (call : Text) : Option Text := (literal? d call).toOption.join

/-- **A call compiles to what its fade makes of a color,** unless that is a full color. -/
theorem text?_eq_some (hd : d.Distinguished) {call text : Text} :
    text? d call = some text ↔
      beginsWith "rgba".toList text = true ∧ ∃ name percent, Fade.Prints d call name percent text := by
  constructor
  · intro h
    refine prints_of_literal? (d := d) ?_
    unfold text? at h
    cases hl : literal? d call with
    | error e => rw [hl] at h; simp [Except.toOption] at h
    | ok found =>
      rw [hl] at h
      exact congrArg Except.ok h
  · rintro ⟨hrgba, name, percent, numeral, color', hfade, hnumeral, hcolor, htext⟩
    obtain ⟨color, hsome, hsix⟩ := hd.color _ _ hcolor
    obtain rfl := Option.some.inj hsome
    obtain ⟨ds, rfl, -⟩ := Color.isSixDigit_iff.1 hsix
    have hhash : beginsWith ['#'] ('#' :: ds) = true := rfl
    have hfound : literal? d call = .ok (some text) := by
      simp only [literal?, hfade, hcolor, hnumeral, hhash, htext]
      change Except.ok (if beginsWith "rgba".toList text = true then some text else none) = _
      rw [if_pos hrgba]
    rw [text?, hfound]
    rfl

/-- **A call whose percentage can be read is not at fault.** -/
theorem literal?_eq_ok (hd : d.Distinguished) {call : Text}
    (hread : ∀ name numeral, Fade.themeFade? call = some (name, numeral) →
      ∃ p, Decimal.numeral? numeral = some p) :
    literal? d call = .ok (text? d call) := by
  suffices h : ∃ found, literal? d call = .ok found by
    obtain ⟨found, hfound⟩ := h
    rw [text?, hfound]
    rfl
  unfold literal?
  cases hfade : Fade.themeFade? call with
  | none => exact ⟨none, rfl⟩
  | some fade =>
    obtain ⟨name, numeral⟩ := fade
    dsimp only
    cases hfound : d.get? name with
    | none => exact ⟨none, rfl⟩
    | some found =>
      obtain ⟨color, rfl, hsix⟩ := hd.color name found hfound
      obtain ⟨p, hp⟩ := hread name numeral hfade
      obtain ⟨c, hc⟩ := Color.exists_hexToRgb?_eq hsix
      dsimp only
      split
      · exact ⟨none, rfl⟩
      · rw [hp]
        simp only [Color.faded, hc]
        exact ⟨_, rfl⟩

/-- **Each text is beside the first call that compiles to it.** -/
theorem exists_derived_eq (h : ∀ call ∈ f.calls, literal? d call = .ok (text? d call)) :
    ∃ computed, f.derived d = .ok computed ∧
      ∀ text, computed.get? text = f.calls.find? fun call => text? d call == some text := by
  have hrun : f.derived d = .ok (f.calls.foldl (Table.insertNamed (text? d)) .empty) := by
    unfold derived
    refine Fallible.foldlM_of_forall (fun call hcall t => ?_) _
    rw [h call hcall, Table.insertNamed]
    cases text? d call <;> rfl
  exact ⟨_, hrun, fun text => Table.get?_foldl_insertNamed (text? d) f.calls .empty text⟩

/-- **A text is beside a call** exactly if the call is the first one that compiles to it. -/
theorem mem_entries_iff_first (hd : d.Distinguished) {computed : Table Text}
    (hget : ∀ text, computed.get? text = f.calls.find? fun call => text? d call == some text)
    (text call : Text) :
    (text, call) ∈ computed.entries ↔ beginsWith "rgba".toList text = true ∧
      ∃ before after, f.calls = before ++ call :: after ∧
        (∃ name percent, Fade.Prints d call name percent text) ∧
        ∀ earlier ∈ before, ¬ ∃ name percent, Fade.Prints d earlier name percent text := by
  rw [computed.mem_entries_iff, hget, List.find?_eq_some_iff_append]
  simp only [beq_iff_eq, Bool.not_eq_true', beq_eq_false_iff_ne, ne_eq, text?_eq_some hd]
  constructor
  · rintro ⟨⟨hrgba, hprints⟩, before, after, hcalls, hfirst⟩
    exact ⟨hrgba, before, after, hcalls, hprints, fun c hc hp => hfirst c hc ⟨hrgba, hp⟩⟩
  · rintro ⟨hrgba, before, after, hcalls, hprints, hfirst⟩
    exact ⟨⟨hrgba, hprints⟩, before, after, hcalls, fun c hc hp => hfirst c hc hp.2⟩

/-- **Computed colors give way to their calls in any order.** -/
theorem passes_perm {computed : Table Text} {order : List (Text × Text)}
    (hcomputed : ∀ e ∈ computed.entries,
      Color.IsComputed e.1 ∧ ∃ name numeral, Fade.themeFade? e.2 = some (name, numeral))
    (hperm : order.Perm computed.entries) (css : Text) : passes order css = passes computed.entries css := by
  refine hperm.foldl_eq' (fun e he e' he' t => ?_) css
  rw [hperm.mem_iff] at he he'
  obtain ⟨hcolor, name, numeral, hfade⟩ := hcomputed e he
  obtain ⟨hcolor', name', numeral', hfade'⟩ := hcomputed e' he'
  by_cases hsame : e.1 = e'.1
  · -- a text is beside one call only
    have hcalls : some e.2 = some e'.2 := by
      rw [← computed.mem_entries_iff.1 he, hsame, computed.mem_entries_iff.1 he']
    rw [hsame, Option.some.inj hcalls]
  · exact (Fade.replaceAll_comm_of_isComputed hcolor hcolor' hsame hfade hfade' t).symm

/-- **A computed color stands for the first call that compiles to it.** Where no two names have colors
with the same channels, all other calls that compile to it fade the same variable to an opacity that is
written alike, and in whatever order the computed colors give way to their calls, the text is the same. -/
theorem derived_attributes (f : FadeMap) (d : Discovered) (hd : d.Distinguished)
    (hread : ∀ call ∈ f.calls, ∀ name numeral, Fade.themeFade? call = some (name, numeral) →
      ∃ p, Decimal.numeral? numeral = some p) :
    ∃ computed, f.derived d = .ok computed ∧
      (∀ text call, (text, call) ∈ computed.entries ↔ beginsWith "rgba".toList text = true ∧
        ∃ before after, f.calls = before ++ call :: after ∧
          (∃ name percent, Fade.Prints d call name percent text) ∧
          ∀ earlier ∈ before, ¬ ∃ name percent, Fade.Prints d earlier name percent text) ∧
      (∀ e ∈ computed.entries, ∃ name percent, Fade.Prints d e.2 name percent e.1 ∧
        ∀ call ∈ f.calls, ∀ name' percent', Fade.Prints d call name' percent' e.1 →
          name' = name ∧ Color.fadedAlpha percent' = Color.fadedAlpha percent) ∧
      ∀ order, order.Perm computed.entries → ∀ css, passes order css = passes computed.entries css ∧
        f.restore css d = .ok (passes order
          (f.sentinels.entries.foldl (fun t e => replaceAnyCase e.2 e.1 t) css)) := by
  obtain ⟨computed, hrun, hget⟩ := exists_derived_eq fun call hcall => literal?_eq_ok hd (hread call hcall)
  have hentry := mem_entries_iff_first hd hget
  have hcomputed (e : Text × Text) (he : e ∈ computed.entries) :
      Color.IsComputed e.1 ∧ ∃ name numeral, Fade.themeFade? e.2 = some (name, numeral) := by
    obtain ⟨-, before, after, -, ⟨name, percent, numeral, color, hfade, -⟩, -⟩ := (hentry e.1 e.2).1 he
    exact ⟨(isComputed_of_derived hrun e he).1, name, numeral, hfade⟩
  refine ⟨computed, hrun, hentry, fun e he => ?_,
    fun order hperm css => ⟨passes_perm hcomputed hperm css, ?_⟩⟩
  · obtain ⟨hrgba, -, -, -, ⟨name, percent, hprints⟩, -⟩ := (hentry e.1 e.2).1 he
    exact ⟨name, percent, hprints, fun call _ name' percent' h => h.inj hd hprints hrgba⟩
  · rw [passes_perm hcomputed hperm, restore, hrun]
    rfl

/-- Two colors. -/
def twoColors : Discovered :=
  .ofList [("@primary-color".toList, some "#1890ff".toList), ("@info-color".toList, some "#13c2c2".toList)]

/-- The two colors are told apart. -/
theorem distinguished_twoColors : twoColors.Distinguished := by
  have hentries : twoColors.entries = [("@primary-color".toList, some "#1890ff".toList),
      ("@info-color".toList, some "#13c2c2".toList)] := by decide
  have hget (name : Text) (found : Option Text) (h : twoColors.get? name = some found) :
      (name = "@primary-color".toList ∧ found = some "#1890ff".toList) ∨
        (name = "@info-color".toList ∧ found = some "#13c2c2".toList) := by
    have hmem := twoColors.mem_entries_iff.2 h
    rw [hentries, List.mem_cons, List.mem_singleton, Prod.mk.injEq, Prod.mk.injEq] at hmem
    exact hmem
  constructor
  · intro name found h
    rcases hget name found h with ⟨-, rfl⟩ | ⟨-, rfl⟩ <;> exact ⟨_, rfl, by decide⟩
  · intro name name' color color' h h' hchannels
    rcases hget name _ h with ⟨rfl, hc⟩ | ⟨rfl, hc⟩ <;> rcases hget name' _ h' with ⟨rfl, hc'⟩ | ⟨rfl, hc'⟩
    · rfl
    · rw [Option.some.inj hc, Option.some.inj hc'] at hchannels
      exact absurd hchannels (by decide)
    · rw [Option.some.inj hc, Option.some.inj hc'] at hchannels
      exact absurd hchannels (by decide)
    · rfl

/-- Three calls, two of which compile to the same text. -/
def threeCalls : FadeMap :=
  (start (.ofScript []) []).observe
    "fade(@primary-color, 5%) fade(@info-color, 20%) fade(@primary-color, 5.0%)".toList

/-- Two of three calls compile to one text, and the first of them is what comes back for it. -/
theorem derived_attributes_threeCalls : ∃ computed, threeCalls.derived twoColors = .ok computed ∧
    ("rgba(24, 144, 255, 0.05)".toList, "fade(@primary-color, 5%)".toList) ∈ computed.entries ∧
    ("rgba(19, 194, 194, 0.2)".toList, "fade(@info-color, 20%)".toList) ∈ computed.entries ∧
    ∀ css, passes computed.entries.reverse css = passes computed.entries css := by
  have hcalls : threeCalls.calls = ["fade(@primary-color, 5%)".toList, "fade(@info-color, 20%)".toList,
      "fade(@primary-color, 5.0%)".toList] := by decide +kernel
  have hread : ∀ call ∈ threeCalls.calls, ∀ name numeral, Fade.themeFade? call = some (name, numeral) →
      ∃ p, Decimal.numeral? numeral = some p := by
    have hall : ∀ call ∈ threeCalls.calls,
        (Fade.themeFade? call).all (fun fade => (Decimal.numeral? fade.2).isSome) = true := by decide +kernel
    intro call hcall name numeral hfade
    have hsome := hall call hcall
    rw [hfade] at hsome
    exact Option.isSome_iff_exists.1 hsome
  obtain ⟨computed, hrun, hentry, -, horder⟩ :=
    derived_attributes threeCalls twoColors distinguished_twoColors hread
  have hprints (call text : Text) (h : text? twoColors call = some text) :=
    (text?_eq_some distinguished_twoColors).1 h
  have hfirst := hprints "fade(@primary-color, 5%)".toList "rgba(24, 144, 255, 0.05)".toList
    (by decide)
  have hsecond := hprints "fade(@info-color, 20%)".toList "rgba(19, 194, 194, 0.2)".toList
    (by decide)
  refine ⟨computed, hrun, (hentry _ _).2 ⟨hfirst.1, [], _, hcalls, hfirst.2, by simp⟩,
    (hentry _ _).2 ⟨hsecond.1, [_], _, hcalls, hsecond.2, ?_⟩,
    fun css => (horder _ (List.reverse_perm _) css).1⟩
  -- the first call does not compile to the second text
  intro earlier hearlier hprint
  rw [List.mem_singleton.1 hearlier] at hprint
  have hother := (text?_eq_some distinguished_twoColors).2 ⟨hsecond.1, hprint⟩
  exact absurd hother (by decide)

end FadeMap
end ThemeSheet
