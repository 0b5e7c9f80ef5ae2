/-
# Import statements with a prefixed path

A text in which chunks and import statements take turns is rewritten statement by
statement: a path behind the prefix is taken from the package directory, and all other
characters stay.  The paths that come in begin at the root and hold neither a quote nor
the word that begins a statement, so a second pass finds nothing to do.
-/

import ThemeSheet.Less.Command
import ThemeSheet.Proofs.File.Place
import ThemeSheet.Proofs.Text.Boundary
import ThemeSheet.Proofs.Text.Split

namespace ThemeSheet
namespace Less

open Text

/-! ### Statements -/

/-- A path that can stand between quotes: it holds no quotes, and not the word that begins a statement. -/
structure IsPlainPath (path : Text) : Prop where
  quotes : ∀ c ∈ path, isQuote c = false
  word : ¬ importWord <:+: path

/-- The options of an import statement, and the blanks behind their bracket. -/
structure ImportOptions where
  inside : Text
  gap : Text
  bracket : ')' ∉ inside
  blank_gap : ∀ c ∈ gap, isBlank c = true

/-- The options of an import as they stand in the text. -/
def ImportOptions.written (o : ImportOptions) : Text := '(' :: (o.inside ++ ')' :: o.gap)

/-- **An import statement,** with a quote of either kind on both sides of its path. -/
structure ImportStatement where
  blanks : Text
  options : Option ImportOptions
  opening : Char
  path : Text
  closing : Char
  blanks_ne : blanks ≠ []
  blank_blanks : ∀ c ∈ blanks, isBlank c = true
  quote_opening : isQuote opening = true
  plain_path : IsPlainPath path
  quote_closing : isQuote closing = true

namespace ImportStatement

variable (s : ImportStatement)

/-- The options as they are written; nothing if there are none. -/
def writtenOptions : Text := (s.options.map ImportOptions.written).getD []

/-- What stands before the path. -/
def front : Text := importWord ++ s.blanks ++ s.writtenOptions ++ [s.opening]

/-- The statement with another path. -/
def writtenWith (path : Text) : Text := s.front ++ (path ++ [s.closing])

/-- No statement begins inside the options. -/
def OptionsApart : Prop := ∀ o ∈ s.options, ¬ importWord <:+: o.inside

end ImportStatement

/-- **A text in which chunks and import statements take turns,** with a chunk at the end. -/
structure ImportText where
  parts : List (Text × ImportStatement)
  last : Text
  word_chunk : ∀ e ∈ parts, ¬ importWord <:+: e.1
  word_last : ¬ importWord <:+: last

/-- The characters of the text, with the paths of its statements changed. -/
def ImportText.writtenWith (f : Text → Text) (t : ImportText) : Text :=
  (t.parts.flatMap fun e => e.1 ++ e.2.writtenWith (f e.2.path)) ++ t.last

/-- The characters of the text. -/
def ImportText.written (t : ImportText) : Text := t.writtenWith id

/-- **The path that takes the place of a path:** one that goes on behind the tilde is taken from the package
directory. -/
def resolvedPath (packages : Path) (path : Text) : Text :=
  match path with
  | '~' :: c :: own => (packages.child (c :: own)).written
  | _ => path

/-! ### Reading one statement -/

section Statement
variable {packages : Path} {s : ImportStatement} {path z : Text}

/-- Options and the blanks behind them are read back up to the quote. -/
theorem importOptions_written (t : Text) (q : Char) (hq : isQuote q = true) :
    importOptions (s.writtenOptions ++ q :: t) = (s.writtenOptions, q :: t) := by
  have hopen : q ≠ '(' := by rintro rfl; exact absurd hq (by decide)
  have hblank : isBlank q = false := by rcases isQuote_iff.1 hq with rfl | rfl <;> decide
  cases ho : s.options with
  | none =>
    have hnil : s.writtenOptions = [] := by rw [ImportStatement.writtenOptions, ho]; rfl
    rw [hnil, List.nil_append]
    unfold importOptions
    split
    · next inner he => exact absurd (List.cons.inj he).1 hopen
    · rfl
  | some o =>
    have hsome : s.writtenOptions = o.written := by rw [ImportStatement.writtenOptions, ho]; rfl
    have hstop : ∀ c, (q :: t).head? = some c → isBlank c = false := fun c hc => Option.some.inj hc ▸ hblank
    have hinside : o.written ++ q :: t = '(' :: (o.inside ++ ')' :: (o.gap ++ q :: t)) := by
      simp [ImportOptions.written]
    rw [hsome, hinside, importOptions]
    simp only [takeWhile_mark o.bracket, dropWhile_mark o.bracket, takeWhile_run o.blank_gap hstop,
      dropWhile_run o.blank_gap hstop, ImportOptions.written]
    simp

/-- **What is made of a statement** depends on what stands behind its opening quote. -/
theorem prefixedImport_front (s : ImportStatement) (inner : Text) :
    prefixedImport packages tilde (s.front ++ inner) =
      (dropPrefix? tilde inner).bind fun path =>
        match path.dropWhile (!isQuote ·) with
        | closing :: after =>
          if (path.takeWhile (!isQuote ·)).isEmpty then none
          else some (s.front ++ ((packages.child (path.takeWhile (!isQuote ·))).written ++ [closing]), after)
        | [] => none := by
  have hword : dropPrefix? importWord (s.front ++ inner) =
      some (s.blanks ++ (s.writtenOptions ++ s.opening :: inner)) :=
    dropPrefix?_eq_some.2 (by simp [ImportStatement.front])
  -- Neither the options nor the opening quote begin with a blank.
  have hstop : ∀ c, (s.writtenOptions ++ s.opening :: inner).head? = some c → isBlank c = false := by
    intro c hc
    cases ho : s.options with
    | none =>
      rw [ImportStatement.writtenOptions, ho] at hc
      obtain rfl : s.opening = c := Option.some.inj hc
      rcases isQuote_iff.1 s.quote_opening with h | h <;> rw [h] <;> decide
    | some o =>
      rw [ImportStatement.writtenOptions, ho] at hc
      obtain rfl : '(' = c := Option.some.inj hc
      decide
  have hne : s.blanks.isEmpty = false := List.isEmpty_eq_false_iff.2 s.blanks_ne
  unfold prefixedImport
  rw [hword]
  simp only [Option.bind_eq_bind, Option.bind_some, takeWhile_run s.blank_blanks hstop,
    dropWhile_run s.blank_blanks hstop, importOptions_written inner s.opening s.quote_opening, hne,
    s.quote_opening, Bool.not_true, Bool.or_self, Bool.false_eq_true, if_false]
  congr 1
  funext path
  cases path.dropWhile (!isQuote ·) with
  | nil => rfl
  | cons closing after =>
    simp only [ImportStatement.front, List.append_assoc, List.cons_append, List.nil_append]

/-- The path of a statement ends at the closing quote. -/
theorem path_run (hpath : ∀ c ∈ path, isQuote c = false) (s : ImportStatement) (z : Text) :
    (path ++ s.closing :: z).takeWhile (!isQuote ·) = path ∧
      (path ++ s.closing :: z).dropWhile (!isQuote ·) = s.closing :: z := by
  have hrun : ∀ c ∈ path, (!isQuote c) = true := fun c hc => by rw [hpath c hc]; rfl
  have hstop : ∀ c, (s.closing :: z).head? = some c → (!isQuote c) = false := fun c hc => by
    rw [← Option.some.inj hc, s.quote_closing]
    rfl
  exact ⟨takeWhile_run hrun hstop, dropWhile_run hrun hstop⟩

/-- **A prefixed path gives way,** and the statement ends with its closing quote. -/
theorem prefixedImport_tilde {own : Text} (hne : own ≠ []) (hown : ∀ c ∈ own, isQuote c = false)
    (s : ImportStatement) (z : Text) :
    prefixedImport packages tilde (s.writtenWith ('~' :: own) ++ z) =
      some (s.writtenWith (packages.child own).written, z) := by
  obtain ⟨htake, hdrop⟩ := path_run hown s z
  have hwritten : s.writtenWith ('~' :: own) ++ z = s.front ++ '~' :: (own ++ s.closing :: z) := by
    simp [ImportStatement.writtenWith]
  have htilde : dropPrefix? tilde ('~' :: (own ++ s.closing :: z)) = some (own ++ s.closing :: z) := rfl
  rw [hwritten, prefixedImport_front, htilde, Option.bind_some, hdrop, htake]
  dsimp only
  rw [if_neg (by simpa using hne)]
  rfl

/-- **A statement with another path is no match.** -/
theorem prefixedImport_other (hpath : ∀ c ∈ path, isQuote c = false) (hother : ∀ own, own ≠ [] → path ≠ '~' :: own)
    (s : ImportStatement) (z : Text) : prefixedImport packages tilde (s.writtenWith path ++ z) = none := by
  have hwritten : s.writtenWith path ++ z = s.front ++ (path ++ s.closing :: z) := by
    simp [ImportStatement.writtenWith]
  rw [hwritten, prefixedImport_front]
  cases path with
  | nil =>
    have hquote : s.closing ≠ '~' := by
      intro h
      have := s.quote_closing
      rw [h] at this
      exact absurd this (by decide)
    have htilde : dropPrefix? tilde (s.closing :: z) = none := if_neg hquote.symm
    rw [List.nil_append, htilde]
    rfl
  | cons c own =>
    by_cases hc : c = '~'
    · subst hc
      -- Nothing stands between the tilde and the closing quote.
      obtain rfl : own = [] := by
        by_contra hne
        exact hother own hne rfl
      have hempty : ∀ c ∈ ([] : Text), isQuote c = false := List.forall_mem_nil _
      obtain ⟨htake, hdrop⟩ := path_run hempty s z
      rw [List.nil_append] at htake hdrop
      have htilde : dropPrefix? tilde (['~'] ++ s.closing :: z) = some (s.closing :: z) := rfl
      rw [htilde, Option.bind_some, hdrop, htake]
      rfl
    · have htilde : dropPrefix? tilde (c :: own ++ s.closing :: z) = none := if_neg (Ne.symm hc)
      rw [htilde]
      rfl

end Statement

/-! ### Where no statement begins -/

section Chunks
variable {packages : Path} {w z : Text}

/-- Where the word does not begin, no import does. -/
theorem prefixedImport_of_no_word {t : Text} (h : dropPrefix? importWord t = none) :
    prefixedImport packages tilde t = none := by
  rw [prefixedImport, h]
  rfl

/-- **A text without the word stays,** in front of a character with which the word does not go on. -/
theorem resolvePrefixed_chunk (hw : ¬ importWord <:+: w) (hz : ∀ c, z.head? = some c → c ∉ importWord.tail) :
    resolvePrefixed packages tilde (w ++ z) = w ++ resolvePrefixed packages tilde z := by
  refine replaceMatches_skip_of_none fun front back hsplit hne => prefixedImport_of_no_word ?_
  refine Option.eq_none_iff_forall_ne_some.2 fun rest hrest => ?_
  rcases append_eq_append_cases (dropPrefix?_eq_some.1 hrest) with ⟨v, rfl⟩ | ⟨v, hv, hword, hback⟩
  · -- the word stands in the text
    have hback : back = importWord ++ v :=
      List.append_cancel_right ((dropPrefix?_eq_some.1 hrest).trans (List.append_assoc ..).symm)
    exact hw ⟨front, v, by rw [hsplit, hback, List.append_assoc]⟩
  · -- it goes on behind the text
    obtain ⟨b, back, rfl⟩ := List.exists_cons_of_ne_nil hne
    obtain ⟨c, v, rfl⟩ := List.exists_cons_of_ne_nil hv
    exact hz c (by rw [hback]; rfl) (by rw [hword]; simp)

/-- A text without the sign of the word does not hold the word. -/
theorem no_word_of_notMem (h : '@' ∉ w) : ¬ importWord <:+: w := fun hi => h (hi.subset (List.mem_cons_self ..))

/-- The word does not reach over a character that it does not hold. -/
theorem no_word_mark {x : Char} (hx : x ∉ importWord) (hw : ¬ importWord <:+: w) (hz : ¬ importWord <:+: z) :
    ¬ importWord <:+: w ++ x :: z := fun hi => (infix_of_infix_mark hx hi).elim hw hz

/-- No quote stands in the word. -/
theorem isQuote_notMem_word {q : Char} (hq : isQuote q = true) : q ∉ importWord := by
  rcases isQuote_iff.1 hq with rfl | rfl <;> decide

/-- **Behind its first character no statement begins in a statement.** -/
theorem no_word_statement {s : ImportStatement} (hs : s.OptionsApart) {path : Text} (hpath : ¬ importWord <:+: path) :
    ¬ importWord <:+: importWord.tail ++ s.blanks ++ s.writtenOptions ++ s.opening :: path := by
  have hblank : ∀ {t : Text}, (∀ c ∈ t, isBlank c = true) → '@' ∉ t := fun ht hm => absurd (ht '@' hm) (by decide)
  have hbegin : '@' ∉ importWord.tail ++ s.blanks := by
    rw [List.mem_append, not_or]
    exact ⟨by decide, hblank s.blank_blanks⟩
  refine no_word_mark (isQuote_notMem_word s.quote_opening) ?_ hpath
  cases ho : s.options with
  | none =>
    rw [ImportStatement.writtenOptions, ho]
    exact no_word_of_notMem (by simpa using hbegin)
  | some o =>
    rw [ImportStatement.writtenOptions, ho]
    exact no_word_mark (by decide) (no_word_of_notMem hbegin)
      (no_word_mark (by decide) (hs o ho) (no_word_of_notMem (hblank o.blank_gap)))

/-- The first character of a statement and what stands behind it, up to the closing quote. -/
theorem writtenWith_append (s : ImportStatement) (path z : Text) : s.writtenWith path ++ z =
    '@' :: ((importWord.tail ++ s.blanks ++ s.writtenOptions ++ s.opening :: path) ++ s.closing :: z) := by
  have hfront : s.front = '@' :: (importWord.tail ++ s.blanks ++ s.writtenOptions ++ [s.opening]) := rfl
  rw [ImportStatement.writtenWith, hfront]
  simp

/-- **One statement is rewritten,** and the pass goes on behind it. -/
theorem resolvePrefixed_statement {s : ImportStatement} (hs : s.OptionsApart) {path : Text} (hpath : IsPlainPath path)
    (z : Text) : resolvePrefixed packages tilde (s.writtenWith path ++ z) =
      s.writtenWith (resolvedPath packages path) ++ resolvePrefixed packages tilde z := by
  by_cases htilde : ∃ own, own ≠ [] ∧ path = '~' :: own
  · obtain ⟨own, hne, rfl⟩ := htilde
    have hown : ∀ c ∈ own, isQuote c = false := fun c hc => hpath.quotes c (List.mem_cons_of_mem _ hc)
    have hresolved : resolvedPath packages ('~' :: own) = (packages.child own).written := by
      cases own with
      | nil => exact absurd rfl hne
      | cons c own => rfl
    rw [hresolved]
    exact replaceMatches_of_some (by simp [ImportStatement.writtenWith]) (prefixedImport_tilde hne hown s z)
  · have hother : ∀ own, own ≠ [] → path ≠ '~' :: own := fun own hne he => htilde ⟨own, hne, he⟩
    have hresolved : resolvedPath packages path = path := by
      unfold resolvedPath
      split
      · next c own => exact absurd rfl (hother (c :: own) (by simp))
      · rfl
    have hnone : prefixedImport packages tilde (s.writtenWith path ++ z) = none :=
      prefixedImport_other hpath.quotes hother s z
    have hclosing : prefixedImport packages tilde (s.closing :: z) = none := by
      refine prefixedImport_of_no_word (if_neg ?_)
      intro h
      exact isQuote_notMem_word s.quote_closing (h ▸ List.mem_cons_self ..)
    have hafter : ∀ c, (s.closing :: z).head? = some c → c ∉ importWord.tail := fun c hc hm =>
      isQuote_notMem_word s.quote_closing (Option.some.inj hc ▸ List.mem_of_mem_tail hm)
    rw [hresolved]
    rw [writtenWith_append] at hnone ⊢
    have hstep : resolvePrefixed packages tilde (s.closing :: z) = s.closing :: resolvePrefixed packages tilde z :=
      replaceMatches_of_none hclosing
    rw [resolvePrefixed, replaceMatches_of_none hnone, ← resolvePrefixed,
      resolvePrefixed_chunk (no_word_statement hs hpath.word) hafter, hstep, writtenWith_append]

end Chunks

/-! ### The paths that come in -/

section Paths
variable {packages q : Path} {path t : Text}

/-- A part of a plain path is plain. -/
theorem IsPlainPath.of_infix (h : IsPlainPath t) (hp : path <:+: t) : IsPlainPath path where
  quotes c hc := h.quotes c (hp.subset hc)
  word hw := h.word (hw.trans hp)

/-- A path from the root begins with a slash; nothing but slashes stand before its names. -/
theorem exists_written (hq : q.isAbsolute = true) : ∃ slashes, q.written = slashes ++ join ['/'] q.parts ∧
    slashes.head? = some '/' ∧ ∀ c ∈ slashes, c = '/' := by
  have hanchor : q.anchor ≠ .workingDir := by simpa [Path.isAbsolute] using hq
  refine ⟨q.anchor.written, if_neg fun h => hanchor h.1, ?_⟩
  cases ha : q.anchor with
  | workingDir => exact absurd ha hanchor
  | root => exact ⟨rfl, by decide⟩
  | doubleRoot => exact ⟨rfl, by decide⟩

/-- **A path from the root is plain** exactly if its names are. -/
theorem isPlainPath_written_iff (hq : q.isAbsolute = true) :
    IsPlainPath q.written ↔ ∀ part ∈ q.parts, IsPlainPath part := by
  obtain ⟨slashes, hwritten, -, hslashes⟩ := exists_written hq
  constructor
  · intro h part hpart
    have hjoin : part <:+: join ['/'] q.parts := infix_join hpart
    rw [hwritten] at h
    exact h.of_infix (hjoin.trans (List.suffix_append slashes _).isInfix)
  · intro h
    refine ⟨fun c hc => ?_, fun hword => ?_⟩
    · have hslash : isQuote '/' = false := by decide
      rw [hwritten, List.mem_append] at hc
      rcases hc with hc | hc
      · rwa [hslashes c hc]
      · rcases mem_join hc with hc | ⟨part, hpart, hc⟩
        · rwa [List.mem_singleton.1 hc]
        · exact (h part hpart).quotes c hc
    · rw [hwritten] at hword
      -- the slashes are marks that the word does not hold
      have hjoin : importWord <:+: join ['/'] q.parts := by
        clear hwritten
        induction slashes with
        | nil => exact hword
        | cons c slashes ih =>
          obtain ⟨rfl, hrest⟩ := List.forall_mem_cons.1 hslashes
          rcases infix_of_infix_mark (a := []) (by decide) hword with hnil | hword
          · exact absurd (List.infix_nil.1 hnil) (by decide)
          · exact ih hrest hword
      obtain ⟨part, hpart, hin⟩ := exists_infix_of_infix_join (by decide) (by decide) hjoin
      exact (h part hpart).word hin

/-- The names of a plain path are plain. -/
theorem isPlainPath_of_mem_parts (h : IsPlainPath t) : ∀ part ∈ (Path.ofText t).parts, IsPlainPath part := by
  intro part hpart
  have hmem : part ∈ splitOn '/' t := (List.mem_filter.1 hpart).1
  refine h.of_infix ?_
  conv_rhs => rw [← join_splitOn '/' t]
  exact infix_join hmem

/-- **What is taken from a plain package directory** begins at the root and is plain. -/
theorem child_spec (hpackages : packages.isAbsolute = true) (hplain : IsPlainPath packages.written)
    (ht : IsPlainPath t) :
    (packages.child t).isAbsolute = true ∧ ∀ part ∈ (packages.child t).parts, IsPlainPath part := by
  have hnames := isPlainPath_of_mem_parts ht
  rw [Path.child]
  cases hrel : (Path.ofText t).isAbsolute with
  | true =>
    rw [Path.join_of_absolute _ hrel]
    exact ⟨hrel, hnames⟩
  | false =>
    rw [Path.join_of_relative _ hrel]
    exact ⟨hpackages, List.forall_mem_append.2 ⟨(isPlainPath_written_iff hpackages).1 hplain, hnames⟩⟩

/-- **The new path of a statement is plain.** -/
theorem IsPlainPath.resolvedPath (hpackages : packages.isAbsolute = true) (hplain : IsPlainPath packages.written)
    (h : IsPlainPath path) : IsPlainPath (resolvedPath packages path) := by
  unfold Less.resolvedPath
  split
  · next c own =>
    obtain ⟨habsolute, hparts⟩ := child_spec hpackages hplain (h.of_infix (List.suffix_cons '~' (c :: own)).isInfix)
    exact (isPlainPath_written_iff habsolute).2 hparts
  · exact h

/-- **A new path is not prefixed again.** -/
theorem resolvedPath_resolvedPath (hpackages : packages.isAbsolute = true) (hplain : IsPlainPath packages.written)
    (h : IsPlainPath path) : resolvedPath packages (resolvedPath packages path) = resolvedPath packages path := by
  have hroot : ∀ {p : Text}, p.head? = some '/' → resolvedPath packages p = p := by
    intro p hp
    obtain ⟨rest, rfl⟩ := List.head?_eq_some_iff.1 hp
    rfl
  by_cases hpath : resolvedPath packages path = path
  · rw [hpath, hpath]
  · unfold resolvedPath at hpath
    split at hpath
    · next c own =>
      obtain ⟨habsolute, -⟩ := child_spec hpackages hplain (h.of_infix (List.suffix_cons '~' (c :: own)).isInfix)
      obtain ⟨slashes, hwritten, hhead, -⟩ := exists_written habsolute
      refine hroot ?_
      show (packages.child (c :: own)).written.head? = some '/'
      rw [hwritten, List.head?_append, hhead]
      rfl
    · exact absurd rfl hpath

end Paths

/-! ### All statements -/

/-- **A pass over chunks and statements** changes the paths of the statements. -/
theorem resolvePrefixed_writtenWith {packages : Path} {t : ImportText} (hoptions : ∀ e ∈ t.parts, e.2.OptionsApart)
    {f : Text → Text} (hf : ∀ e ∈ t.parts, IsPlainPath (f e.2.path)) :
    resolvePrefixed packages tilde (t.writtenWith f) = t.writtenWith (resolvedPath packages ∘ f) := by
  obtain ⟨parts, last, hchunks, hlast⟩ := t
  simp only [ImportText.writtenWith]
  induction parts with
  | nil =>
    have hend : resolvePrefixed packages tilde (last ++ []) = last ++ resolvePrefixed packages tilde [] :=
      resolvePrefixed_chunk hlast (by simp)
    rw [List.append_nil] at hend
    have hnil : resolvePrefixed packages tilde [] = [] := by rw [resolvePrefixed, replaceMatches]
    rwa [hnil, List.append_nil] at hend
  | cons e parts ih =>
    obtain ⟨hchunk, hchunks⟩ := List.forall_mem_cons.1 hchunks
    obtain ⟨hopt, hoptions⟩ := List.forall_mem_cons.1 hoptions
    obtain ⟨hpath, hf⟩ := List.forall_mem_cons.1 hf
    have hword : ∀ z c, (e.2.writtenWith (f e.2.path) ++ z).head? = some c → c ∉ importWord.tail := by
      intro z c hc
      obtain rfl : '@' = c := Option.some.inj hc
      decide
    simp only [List.flatMap_cons, List.append_assoc]
    rw [resolvePrefixed_chunk hchunk (hword _), resolvePrefixed_statement hopt hpath]
    rw [ih hchunks hoptions hf]
    rfl

/-- **The prefixed imports of a text** of chunks and import statements are taken from the package directory, and
nothing else changes; a second pass changes nothing. No statement may begin inside the options of another one. -/
theorem resolvePrefixed_spec {packages : Path} (hpackages : packages.isAbsolute = true)
    (hplain : IsPlainPath packages.written) (t : ImportText) (hoptions : ∀ e ∈ t.parts, e.2.OptionsApart) :
    resolvePrefixed packages tilde t.written = t.writtenWith (resolvedPath packages) ∧
      resolvePrefixed packages tilde (t.writtenWith (resolvedPath packages)) =
        t.writtenWith (resolvedPath packages) := by
  refine ⟨resolvePrefixed_writtenWith hoptions fun e _ => e.2.plain_path, ?_⟩
  rw [resolvePrefixed_writtenWith hoptions fun e _ =>
    IsPlainPath.resolvedPath hpackages hplain e.2.plain_path]
  simp only [ImportText.writtenWith]
  congr 1
  refine List.flatMap_congr fun e _ => ?_
  rw [Function.comp_apply, resolvedPath_resolvedPath hpackages hplain e.2.plain_path]

/-- A statement with options and a path behind the tilde, and one without, in a text with other characters. -/
theorem resolvePrefixed_spec_options :
    let path : Path := .ofText "/p/node_modules".toList
    let options : ImportOptions := ⟨"less, (once".toList, ['\n'], by decide, by decide⟩
    let first : ImportStatement := ⟨[' '], some options, '\'', "~antd//lib/./a".toList, '"', by decide, by decide,
      by decide, ⟨by decide, by decide +kernel⟩, by decide⟩
    let second : ImportStatement := ⟨['\t'], none, '"', "~".toList, '"', by decide, by decide, by decide,
      ⟨by decide, by decide +kernel⟩, by decide⟩
    let t : ImportText := ⟨[("// @im".toList, first), (";\n@@".toList, second)], "; @impor".toList, by decide +kernel,
      by decide +kernel⟩
    path.isAbsolute = true ∧ IsPlainPath path.written ∧ (∀ e ∈ t.parts, e.2.OptionsApart) ∧
      resolvePrefixed path tilde t.written = t.writtenWith (resolvedPath path) ∧
      resolvePrefixed path tilde (t.writtenWith (resolvedPath path)) = t.writtenWith (resolvedPath path) := by
  intro path options first second t
  have hplain : IsPlainPath path.written := ⟨by decide +kernel, by decide +kernel⟩
  have hoptions : ∀ e ∈ t.parts, e.2.OptionsApart := by
    refine List.forall_mem_cons.2 ⟨fun o ho => ?_, List.forall_mem_singleton.2 fun o ho => ?_⟩
    · obtain rfl : options = o := Option.some.inj ho
      decide +kernel
    · exact absurd (show some o = none from ho.symm) (Option.some_ne_none o)
  exact ⟨by decide +kernel, hplain, hoptions, resolvePrefixed_spec (by decide +kernel) hplain t hoptions⟩

/-- **A statement inside the options of another one** is rewritten, though the path of that one is not prefixed. -/
theorem not_forall_resolvePrefixed : ¬ ∀ (packages : Path) (t : ImportText), packages.isAbsolute = true →
    IsPlainPath packages.written →
    resolvePrefixed packages tilde t.written = t.writtenWith (resolvedPath packages) := by
  intro hall
  let path : Path := .ofText "/nm".toList
  let options : ImportOptions := ⟨"@import \"~a\"".toList, [' '], by decide, by decide⟩
  let statement : ImportStatement := ⟨[' '], some options, '"', "b".toList, '"', by decide, by decide, by decide,
    ⟨by decide, by decide +kernel⟩, by decide⟩
  have hkept := hall path ⟨[([], statement)], [], by decide +kernel, by decide +kernel⟩ (by decide +kernel)
    ⟨by decide +kernel, by decide +kernel⟩
  exact absurd hkept (by decide +kernel)

example : resolvePrefixed (.ofText "/nm".toList) tilde "@import (@import \"~a\") \"b\"; @import '~c';".toList =
    "@import (@import \"/nm/a\") \"b\"; @import '/nm/c';".toList := by decide +kernel

end Less
end ThemeSheet
