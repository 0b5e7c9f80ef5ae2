/-
# What stands in a source

A source is a text without backslashes and comments whose blanks are separators.  If all
its tokens are whole, its nodes stand in it, and so do the selectors of its rules and the
values of their declarations.
-/

import ThemeSheet.Proofs.Css.Pruning
import ThemeSheet.Proofs.Css.Source
import ThemeSheet.Proofs.Css.Trimming

namespace ThemeSheet
namespace Css

/-! ### Normalised texts -/

/-- Without carriage returns and form feeds, only null characters are replaced. -/
theorem normalise_eq_map {t : Text} (h : ∀ c ∈ t, c ≠ '\r' ∧ c ≠ '\x0c') :
    normalise t = t.map fun c => if c = '\x00' then replacementChar else c := by
  induction t with
  | nil => rfl
  | cons c t ih =>
    obtain ⟨⟨hr, hf⟩, ht⟩ := List.forall_mem_cons.1 h
    have hstep : normalise (c :: t) =
        (if c = '\r' ∨ c = '\x0c' then '\n' else if c = '\x00' then replacementChar else c) :: normalise t := by
      rw [normalise]
      rintro u rfl
      exact absurd rfl hr
    rw [hstep, if_neg (by simp [hr, hf]), ih ht, List.map_cons]

/-- A text that normalising leaves as it is. -/
def IsClean (t : Text) : Prop := ∀ c ∈ t, (c ≠ '\r' ∧ c ≠ '\x0c') ∧ c ≠ '\x00'

/-- A clean text is normalised already. -/
theorem IsClean.normalise_eq {t : Text} (h : IsClean t) : normalise t = t := by
  rw [normalise_eq_map fun c hc => (h c hc).1]
  conv_rhs => rw [← List.map_id t]
  exact List.map_congr_left fun c hc => if_neg (h c hc).2

/-- A source is clean. -/
theorem IsSource.isClean {t : Text} (h : IsSource t) : IsClean t := fun c hc =>
  ⟨h.lineEnds c hc, (h c hc).2.1⟩

/-- **A normalised text is a source** if it has neither backslashes nor odd blanks. -/
theorem isSource_normalise {t : Text} (hescape : '\\' ∉ t)
    (hblank : ∀ c ∈ t, isBlank c = true → isSpace c = true) : IsSource (normalise t) := by
  rw [normalise_eq_map fun c hc => by
    constructor <;> rintro rfl <;> exact absurd (hblank _ hc (by decide)) (by decide)]
  intro c hc
  obtain ⟨d, hd, rfl⟩ := List.mem_map.1 hc
  split
  · exact ⟨by decide, by decide, by decide⟩
  · next hnull => exact ⟨fun h => hescape (h ▸ hd), hnull, hblank d hd⟩

/-- Normalising a text makes no comment. -/
theorem noComment_normalise {t : Text} (hblank : ∀ c ∈ t, isBlank c = true → isSpace c = true)
    (h : ¬ ∃ a b, t = a ++ "/*".toList ++ b) : ¬ ∃ a b, normalise t = a ++ "/*".toList ++ b := by
  rw [normalise_eq_map fun c hc => by
    constructor <;> rintro rfl <;> exact absurd (hblank _ hc (by decide)) (by decide)]
  rintro ⟨a, b, hab⟩
  obtain ⟨u, b', rfl, hu, -⟩ := List.map_eq_append_iff.1 hab
  obtain ⟨a', m, rfl, -, hm⟩ := List.map_eq_append_iff.1 hu
  have hback : ∀ {c d : Char}, d ≠ replacementChar →
      (if c = '\x00' then replacementChar else c) = d → c = d := by
    intro c d hd hc
    split at hc
    · exact absurd hc.symm hd
    · exact hc
  obtain ⟨c, m', rfl, hc, hm'⟩ := List.map_eq_cons_iff.1 hm
  obtain ⟨d, m'', rfl, hd, hm''⟩ := List.map_eq_cons_iff.1 hm'
  obtain rfl := List.map_eq_nil_iff.1 hm''
  exact h ⟨a', b', by rw [hback (by decide) hc, hback (by decide) hd]; rfl⟩

/-! ### The pieces of a source -/

/-- **The lexemes of a source stand in it** if they are whole. -/
theorem sourced_lexemes {t : Text} (hescape : '\\' ∉ t) (hcomment : ¬ ∃ a b, t = a ++ "/*".toList ++ b)
    (hwhole : ∀ l ∈ lexemes t, l.isWhole = true) : Sourced [] (lexemes t) t := by
  fun_induction lexemes t with
  | case1 => exact .nil
  | case2 c t ih =>
    obtain ⟨hfirst, hrest⟩ := List.forall_mem_append.1 hwhole
    have hopen : Text.beginsWith "/*".toList (c :: t) = false := by
      rw [Bool.eq_false_iff, ne_eq, Text.beginsWith_iff]
      rintro ⟨r, hr⟩
      exact hcomment ⟨[], r, hr⟩
    obtain ⟨l, s, hl, hs, hspells⟩ := readsPiece_nextLexemes hescape hopen hfirst
    have hsourced := ih (fun h => hescape (by rw [hs]; exact List.mem_append_right _ h))
      (fun ⟨a, b, hab⟩ => hcomment ⟨s ++ a, b, by rw [hs, hab]; simp⟩) hrest
    rw [hl, List.singleton_append, hs]
    exact .piece hspells hsourced

/-- What the end of a source closes stands behind its lexemes. -/
theorem Sourced.append_closes {ls : List Lexeme} {r : Text} (h : Sourced [] ls r) (bs : List Bracket) :
    Sourced [] (ls ++ bs.map .closes) r := by
  induction h with
  | nil =>
    induction bs with
    | nil => exact .nil
    | cons b bs ih => exact .closing ih
  | piece hs _ ih => exact .piece hs ih
  | closing _ ih => exact .closing ih

/-- Closing brackets hold no numerals. -/
theorem overlongs_closes (bs : List Bracket) : overlongs (bs.map .closes) = [] := by
  simp [overlongs, Lexeme.overlong?]

/-- **The nodes of a source stand in it** if its tokens are whole and no numeral is too long. -/
theorem stands_ofText {css : Text} (hescape : '\\' ∉ css) (hcomment : ¬ ∃ a b, css = a ++ "/*".toList ++ b)
    (hblank : ∀ c ∈ css, isBlank c = true → isSpace c = true)
    (hwhole : ∀ t, .token t ∈ Node.allLexemes (Node.ofText css) → t.isWhole = true)
    (hnumerals : overlongs (lexemes (normalise css)) = []) : Stands (Node.ofText css) := by
  have hsource := isSource_normalise hescape hblank
  obtain ⟨ms, bs, hall, hkept⟩ := Node.allLexemes_ofLexemes (lexemes (normalise css))
  change Node.allLexemes (Node.ofText css) = _ at hall
  obtain rfl : ms = lexemes (normalise css) := Lexeme.eq_of_kept hkept fun b hb => by
    have := hwhole (.stray b) (by rw [hall]; exact List.mem_append_left _ hb)
    simp [Token.isWhole] at this
  have hlexemes : ∀ l ∈ lexemes (normalise css), l.isWhole = true := by
    intro l hl
    cases l with
    | token t => exact hwhole t (by rw [hall]; exact List.mem_append_left _ hl)
    | _ => rfl
  constructor
  · rw [hall]
    exact ⟨[], _, (sourced_lexemes hsource.noEscape (noComment_normalise hblank hcomment)
      hlexemes).append_closes bs, hsource⟩
  · rw [hall, overlongs_append, hnumerals, overlongs_closes, List.append_nil]

/-! ### Parts of nodes that stand in a source -/

/-- Nodes that stand in a source stand there up to the first without a property, and from it on. -/
theorem Stands.takeWhile_dropWhile {ns : List Node} (h : Stands ns) (p : Node → Bool) :
    Stands (ns.takeWhile p) ∧ Stands (ns.dropWhile p) :=
  Stands.append_inv (by rwa [List.takeWhile_append_dropWhile])

/-- Nodes that stand in a source stand there without the first ones. -/
theorem Stands.drop {ns : List Node} (h : Stands ns) (k : Nat) : Stands (ns.drop k) :=
  (Stands.append_inv (show Stands (ns.take k ++ ns.drop k) by rwa [List.take_append_drop])).2

/-- A name in a source is an identifier. -/
theorem Stands.isIdent {name : Text} {ns : List Node} (h : Stands (.token (.ident name) :: ns)) :
    IsIdent name ∧ IsSource name := by
  obtain ⟨⟨q, r, hs, hr⟩, -⟩ := h
  rw [Node.allLexemes_cons, Node.lexemes] at hs
  obtain ⟨s, t, hl, hsource⟩ := hs.mem (l := .token (.ident name)) hr (by simp)
  cases hl with
  | ident hn => exact ⟨hn, hsource⟩
  | unicodeRange _ hread =>
    obtain ⟨_, _, htok⟩ := Spells.isRange hread
    exact absurd htok (by simp)

/-- The content of the block that a run begins with. -/
theorem Stands.curly {n : Node} {ns content : List Node} (h : Stands (n :: ns))
    (hn : n.curly? = some content) : Stands content := by
  unfold Node.curly? at hn
  split at hn
  · obtain rfl := Option.some.inj hn
    exact h.cons_inv.1.sublist_block
  · simp at hn

/-- A block in curly brackets is one. -/
theorem Node.isCurly_iff {n : Node} : n.isCurly = true ↔ ∃ content, n = .block .curly content := by
  unfold Node.isCurly Node.curly?
  split <;> simp_all

/-- No nodes are a selector. -/
theorem isSelector_nil : IsSelector [] := ⟨by simp, by simp, by simp, by simp⟩

/-- **A rule that stands in a source.** -/
def Rule.Stands : Rule → Prop
  | .style selector content => IsSelector selector ∧ Css.Stands selector ∧ Css.Stands content
  | .atRule _ _ _ => True

/-- Up to the first node with a property, none has it. -/
theorem mem_takeWhile_not {p : Node → Bool} {ns : List Node} : ∀ n ∈ ns.takeWhile (fun m => !p m), p n = false :=
  fun n hn => by simpa using List.mem_takeWhile_imp hn

/-- **The rules of a source stand in it.** -/
theorem Stands.rules {ns : List Node} (h : Stands ns) : ∀ rule ∈ Css.rules ns, rule.Stands := by
  fun_induction Css.rules ns with
  | case1 => simp
  | case2 n ns _ ih => exact ih h.cons_inv.2
  | case3 ns name rest _ ih =>
    exact List.forall_mem_cons.2 ⟨trivial, ih ((h.cons_inv.2.takeWhile_dropWhile _).2.drop 1)⟩
  | case4 ns content _ ih =>
    obtain ⟨h1, h2⟩ := h.cons_inv
    exact List.forall_mem_cons.2 ⟨⟨isSelector_nil, (show Stands ([] ++ _) from h).append_inv.1, h1.sublist_block⟩, ih h2⟩
  | case5 n ns hn rest content hcontent hname hblock ih =>
    have hsplit : n :: ns = (n :: ns.takeWhile fun m => !m.isCurly) ++ rest := by
      rw [List.cons_append, List.takeWhile_append_dropWhile]
    obtain ⟨hselector, hrest⟩ := Stands.append_inv (hsplit ▸ h)
    obtain ⟨m, hm, hcurly⟩ := Option.bind_eq_some_iff.1 hcontent
    obtain ⟨rest', hrest'⟩ := List.head?_eq_some_iff.1 hm
    refine List.forall_mem_cons.2 ⟨⟨?_, hselector, (hrest' ▸ hrest).curly hcurly⟩, ih (hrest.drop 1)⟩
    rw [Bool.or_eq_true, not_or, Bool.not_eq_true, Bool.not_eq_true] at hn
    refine ⟨List.forall_mem_cons.2 ⟨?_, mem_takeWhile_not⟩, ?_, ?_, ?_⟩
    · rw [Bool.eq_false_iff, ne_eq, Node.isCurly_iff]
      rintro ⟨content, rfl⟩
      exact hblock content rfl
    · rintro m ⟨⟩; exact hn.1
    · rintro m ⟨⟩; exact hn.2
    · rintro name h
      exact hname name (Option.some.inj h)
  | case6 => simp

/-! ### Values -/

namespace ValueReader

/-- **What a node may do to the mark:** begin it behind all that has been read, or leave the value
before it as it is. -/
theorem push_importance {r : ValueReader} {n : Node} {v : List Node}
    (h : (r.push n).importance = .announced v ∨ (r.push n).importance = .given v) :
    (r.push n).hasLateBlock = r.hasLateBlock ∧
      ((r.importance = .announced v ∨ r.importance = .given v) ∨ r.phase = .absent ∧ v = r.read) := by
  unfold push at h ⊢
  split
  · next hspace => exact ⟨rfl, .inl (by simpa [hspace] using h)⟩
  · next hspace =>
    rw [if_neg hspace] at h
    split
    · next habsent =>
      simp only [habsent] at h
      split
      · next hbang =>
        refine ⟨rfl, .inr ⟨by rw [phase, habsent], ?_⟩⟩
        simpa [hbang, eq_comm] using h
      · next hbang => simp [hbang, pushContent] at h
    · next w hannounced =>
      simp only [hannounced] at h
      split
      · next hword => exact ⟨rfl, .inl (.inl (by simpa [hword, hannounced] using h))⟩
      · next hword => simp [hword, pushContent] at h
    · next w hgiven =>
      simp [hgiven, pushContent] at h

/-- **What stands before the mark** has been read without it. -/
theorem before_mark (ns : List Node) {v : List Node}
    (h : (ns.foldl push start).importance = .announced v ∨ (ns.foldl push start).importance = .given v) :
    ∃ m, ns = v.reverse ++ m ∧ (v.reverse.foldl push start).phase = .absent ∧
      (v.reverse.foldl push start).hasLateBlock = (ns.foldl push start).hasLateBlock := by
  induction ns using List.reverseRecOn generalizing v with
  | nil => simp [start] at h
  | append_singleton ns n ih =>
    rw [List.foldl_append, List.foldl_cons, List.foldl_nil] at h ⊢
    obtain ⟨hlate, hbefore | ⟨hphase, rfl⟩⟩ := push_importance h
    · obtain ⟨m, hm, hphase, hblock⟩ := ih hbefore
      exact ⟨m ++ [n], by rw [← List.append_assoc, ← hm], hphase, by rw [hblock, hlate]⟩
    · have hread : (ns.foldl push start).read.reverse = ns := by
        rw [read_foldl_push, start, List.append_nil, List.reverse_reverse]
      rw [hread, hlate]
      exact ⟨[n], rfl, hphase, rfl⟩

end ValueReader

/-- **A declaration that stands in a source.** -/
structure Declaration.Stands (d : Declaration) : Prop where
  delimited : d.IsDelimited
  ident : IsIdent d.name
  source : IsSource d.name
  value : Css.Stands d.value

/-- What is read as a value has no block behind other content and no mark at its end. -/
theorem ValueReader.finish_spec {ns value : List Node} {important : Bool}
    (h : (ns.foldl push start).finish = some (value, important)) :
    ∃ m, ns = value ++ m ∧ (value.foldl push start).hasLateBlock = false ∧
      (value.foldl push start).phase ≠ .given ∧
      (important = true → (value.foldl push start).phase = .absent) := by
  unfold finish at h
  split at h
  · simp at h
  · next hlate =>
    rw [Bool.not_eq_true] at hlate
    split at h
    · next v hgiven =>
      obtain ⟨rfl, rfl⟩ := Prod.mk.inj (Option.some.inj h)
      obtain ⟨m, hm, hphase, hblock⟩ := before_mark ns (.inr hgiven)
      exact ⟨m, hm, by rw [hblock, hlate], by rw [hphase]; simp, fun _ => hphase⟩
    · next hgiven =>
      obtain ⟨hvalue, rfl⟩ := Prod.mk.inj (Option.some.inj h)
      obtain rfl : ns = value := by
        rw [← hvalue, read_foldl_push, start, List.append_nil, List.reverse_reverse]
      refine ⟨[], by rw [List.append_nil], hlate, ?_, by simp⟩
      unfold phase
      split
      · simp
      · simp
      · next v hv => exact absurd hv (hgiven v)

/-- A declaration that is read from nodes of a source stands in a source. -/
theorem Stands.ofNodes? {n : Node} {ns : List Node} {d : Declaration} (h : Stands (n :: ns))
    (hsemicolon : ∀ m ∈ ns, m.isLiteral ";" = false) (hd : Declaration.ofNodes? n ns = some d) :
    d.Stands := by
  unfold Declaration.ofNodes? at hd
  split at hd
  · next name colon nodes hdrop =>
    split at hd
    · obtain ⟨⟨value, important⟩, hfinish, rfl⟩ := Option.map_eq_some_iff.1 hd
      obtain ⟨m, rfl, hblock, hmark, hunmarked⟩ := ValueReader.finish_spec hfinish
      have hstands : Stands (colon :: (value ++ m)) := hdrop ▸ (h.cons_inv.2.takeWhile_dropWhile _).2
      have hmem : ∀ x ∈ value, x ∈ ns := fun x hx =>
        (List.dropWhile_sublist Node.isSpace).subset (by rw [hdrop]; simp [hx])
      exact ⟨⟨fun x hx => hsemicolon x (hmem x hx), hblock, hmark, hunmarked⟩, h.isIdent.1, h.isIdent.2,
        hstands.cons_inv.2.append_inv.1⟩
    · simp at hd
  · simp at hd

/-- **The declarations of a source stand in it.** -/
theorem Stands.declarations {ns : List Node} (h : Stands ns) : ∀ d ∈ Css.declarations ns, d.Stands := by
  fun_induction Css.declarations ns with
  | case1 => simp
  | case2 n ns _ ih => exact ih h.cons_inv.2
  | case3 ns name _ ih => exact ih ((h.cons_inv.2.takeWhile_dropWhile _).2.drop 1)
  | case4 n ns _ _ ih =>
    intro d hd
    rcases List.mem_append.1 hd with hd | hd
    · have hsplit : n :: ns = (n :: ns.takeWhile fun m => !m.isLiteral ";") ++
          ns.dropWhile fun m => !m.isLiteral ";" := by
        rw [List.cons_append, List.takeWhile_append_dropWhile]
      exact (Stands.append_inv (hsplit ▸ h)).1.ofNodes? mem_takeWhile_not (Option.mem_toList.1 hd)
    · exact ih ((h.cons_inv.2.takeWhile_dropWhile _).2.drop 1) d hd

end Css
end ThemeSheet
