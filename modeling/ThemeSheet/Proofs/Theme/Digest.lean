/-
# What the cache can tell apart

The cache knows the style files by the digest of their texts, one behind the other.
As long as the digests of these texts do not collide, a call takes the theme of an
earlier one exactly if its style files read the same from end to end.  Where one
file ends and the next begins does not count, so text may move from file to file
unnoticed.
-/

import ThemeSheet.Proofs.Text.Utf8
import ThemeSheet.Proofs.Theme.Sharing

namespace ThemeSheet
namespace Theme

open Recorded

/-- The digests of the two texts are equal only if their bytes are. -/
def NoCollision (a b : Text) : Prop :=
  Sha1.hexDigest (Utf8.encode a) = Sha1.hexDigest (Utf8.encode b) → Utf8.encode a = Utf8.encode b

/-- **The digest of style files is that of their texts one behind the other.** -/
theorem sourcesDigest_eq_iff {a b : List Text} (h : NoCollision a.flatten b.flatten) :
    sourcesDigest a = sourcesDigest b ↔ a.flatten = b.flatten :=
  ⟨fun hd => Utf8.encode_injective (h hd), congrArg Style.digest⟩

variable {ι : Type} [DecidableEq ι] {calls : ι → Call} {i j : ι} {before after : List ι}
    {out out' : Outcome} {s s' : Sources}

/-- **What a call keeps** stands under the digest of its sources. -/
theorem cache_of_kept (hi : (run calls before).phase i = .finished out) (hnew : out.reused = false)
    (hcss : out.css ≠ []) (hs : (calls i).sources = .ok s) :
    out.cache = ⟨some s.digest, some out.css⟩ := by
  have hmem : i ∈ before := by
    by_contra hn
    rw [phase_of_notMem hn] at hi
    simp at hi
  obtain ⟨first, last, rfl, hfirst⟩ := List.eq_append_cons_of_mem hmem
  have hfollows := follows_run calls hfirst last
  rw [hi] at hfollows
  rcases hfollows.finished_cases with ⟨fault, rfl, -⟩ | ⟨css, rfl, -⟩ |
    ⟨compiler, s₀, cache, rfl, -, hs₀, -⟩
  · exact absurd rfl hcss
  · simp at hnew
  · obtain rfl := Except.ok.inj (hs₀.symm.trans hs)
    rcases (calls i).finish_cache cache compiler s₀ with ⟨hnil, -⟩ | ⟨-, -, hc⟩
    · exact absurd hnil hcss
    · exact hc

/-- A call takes its theme from the cache exactly if it finds one there. -/
theorem Call.Follows.reused_iff {call : Call} {seen : Cache}
    (h : call.Follows seen (.finished out)) :
    out.reused = true ↔ ∃ css, call.Finds seen css := by
  rcases h.finished_cases with ⟨fault, rfl, -, -, hno⟩ | ⟨css, rfl, -, hfound⟩ |
    ⟨compiler, s, cache, rfl, -, -, -, hno⟩
  · exact ⟨fun hr => absurd hr Bool.false_ne_true, fun ⟨css, hf⟩ => absurd hf (hno css)⟩
  · exact ⟨fun _ => ⟨css, hfound⟩, fun _ => rfl⟩
  · refine ⟨fun hr => ?_, fun ⟨css, hf⟩ => absurd hf (hno css)⟩
    rcases hp : perform (build call.options call.tree compiler call.draws s) .empty
      with ⟨fault | css, journal⟩
    · rw [call.finish_of_error hp] at hr
      exact absurd hr Bool.false_ne_true
    · rw [call.finish_of_ok hp] at hr
      exact absurd hr Bool.false_ne_true

/-- **A call takes the theme that another one has kept exactly if the style files of both read the
same from end to end.** Between the two calls others may take steps, as long as the cache still holds
what the first call has kept. -/
theorem reused_iff_flatten_eq (calls : ι → Call) (hi : (run calls before).phase i = .finished out)
    (hnew : out.reused = false) (hcss : out.css ≠ []) (hkept : (run calls before).cache = out.cache)
    (hj : j ∉ before) (hout : (run calls (before ++ j :: after)).phase j = .finished out')
    {compiler : Compiler} (hc : (calls j).compiler = .ok compiler)
    (hs : (calls i).sources = .ok s) (hs' : (calls j).sources = .ok s')
    (hfree : NoCollision s.contents.flatten s'.contents.flatten) :
    (sourcesDigest s.contents = sourcesDigest s'.contents ↔
        s.contents.flatten = s'.contents.flatten) ∧
      (out'.reused = true ↔ s.contents.flatten = s'.contents.flatten) ∧
      (out'.reused = true → out'.css = out.css) := by
  have hfollows := follows_run calls hj after
  rw [hout] at hfollows
  have hseen : (run calls before).cache = ⟨some s.digest, some out.css⟩ :=
    hkept.trans (cache_of_kept hi hnew hcss hs)
  have hfinds : ∀ css, (calls j).Finds (run calls before).cache css ↔
      s.digest = s'.digest ∧ out.css = css := by
    intro css
    rw [hseen]
    constructor
    · rintro ⟨-, s₁, -, hs₁, he⟩
      obtain rfl := Except.ok.inj (hs₁.symm.trans hs')
      simpa using he
    · rintro ⟨hd, rfl⟩
      exact ⟨compiler, s', hc, hs', by rw [hd]⟩
  have hreused : out'.reused = true ↔ s.digest = s'.digest := by
    rw [hfollows.reused_iff]
    exact ⟨fun ⟨css, hf⟩ => ((hfinds css).1 hf).1, fun hd => ⟨out.css, (hfinds _).2 ⟨hd, rfl⟩⟩⟩
  refine ⟨sourcesDigest_eq_iff hfree, hreused.trans (sourcesDigest_eq_iff hfree), fun hr => ?_⟩
  exact hfollows.css_of_finds ((hfinds _).2 ⟨hreused.1 hr, rfl⟩)

/-- What a call has returned. -/
def Phase.outcome? : Phase → Option Outcome
  | .finished out => some out
  | _ => none

/-- A call has come to an end exactly if it has finished with that outcome. -/
theorem Phase.outcome?_eq_some {p : Phase} : p.outcome? = some out ↔ p = .finished out := by
  cases p <;> simp [outcome?]

/-- A call for the small library and an application with two style files. -/
def twoFileCall (first second : String) : Call :=
  { smallCall (.ok fun _ => .ok []) with
    options := ⟨.given "/a".toList, .many ["/s".toList, "/t".toList], .absent, .absent, .absent, .absent, []⟩
    tree := (smallTree.addFile (.ofText "/s/a.less".toList) first.toUTF8.toList).addFile
      (.ofText "/t/b.less".toList) second.toUTF8.toList }

/-- Two calls; between them a word moves from one style file to the other. -/
def movedCalls (i : Fin 2) : Call := if i = 0 then twoFileCall "x" "" else twoFileCall "" "x"

/-- One call has the text in its first file, the other in its second. -/
theorem sources_movedCalls (i : Fin 2) : ∃ s, (movedCalls i).sources = .ok s ∧
    s.contents = if i = 0 then ["x".toList, []] else [[], "x".toList] := by
  have h : ∀ i, (movedCalls i).sources.toOption.map Sources.contents =
      some (if i = 0 then ["x".toList, []] else [[], "x".toList]) := by
    decide +kernel
  cases hs : (movedCalls i).sources with
  | error fault => have := h i; rw [hs] at this; simp [Except.toOption] at this
  | ok s => have := h i; rw [hs] at this; exact ⟨s, rfl, Option.some.inj this⟩

/-- The first call builds a theme with text, and the second finishes behind it. -/
theorem run_movedCalls : ∃ out out', (run movedCalls [0, 0]).phase 0 = .finished out ∧
    out.reused = false ∧ out.css ≠ [] ∧ (run movedCalls [0, 0]).cache = out.cache ∧
    (run movedCalls ([0, 0] ++ 1 :: [1])).phase 1 = .finished out' := by
  obtain ⟨out, hout⟩ : ∃ out, (run movedCalls ([] ++ 0 :: [0])).phase 0 = .finished out :=
    finished_of_mem (by simp) (by simp)
  obtain ⟨out', hout'⟩ : ∃ out', (run movedCalls ([0, 0] ++ 1 :: [1])).phase 1 = .finished out' :=
    finished_of_mem (by simp) (by simp)
  have h : ((run movedCalls [0, 0]).phase 0).outcome?.map (fun out => (out.reused, out.css, out.cache)) =
      some (false, "@primary-color: #f00;\n".toList, (run movedCalls [0, 0]).cache) := by
    decide +kernel
  rw [List.nil_append] at hout
  rw [Phase.outcome?_eq_some.2 hout] at h
  obtain ⟨hr, hcss, hcache⟩ : out.reused = false ∧ out.css = _ ∧ out.cache = _ := by simpa using h
  exact ⟨out, out', hout, hr, by rw [hcss]; decide, hcache.symm, hout'⟩

/-- The second call is given the theme of the first, though no file has the text it had. -/
theorem reused_iff_flatten_eq_moved : ∃ out out',
    (run movedCalls [0, 0]).phase 0 = .finished out ∧
    (run movedCalls ([0, 0] ++ 1 :: [1])).phase 1 = .finished out' ∧
    out'.reused = true ∧ out'.css = out.css := by
  obtain ⟨s, hs, hcontents⟩ := sources_movedCalls 0
  obtain ⟨s', hs', hcontents'⟩ := sources_movedCalls 1
  obtain ⟨out, out', hout, hnew, hcss, hkept, hout'⟩ := run_movedCalls
  have hflat : s.contents.flatten = s'.contents.flatten := by
    rw [hcontents, hcontents']
    rfl
  obtain ⟨-, hreused, hsame⟩ := reused_iff_flatten_eq movedCalls hout hnew hcss hkept (by simp) hout'
    (show (movedCalls 1).compiler = .ok fun _ => .ok [] from rfl) hs hs' (fun _ => by rw [hflat])
  exact ⟨out, out', hout, hout', hreused.2 hflat, hsame (hreused.2 hflat)⟩

/-- **Text that moves from one style file to another is not noticed.** -/
theorem not_forall_contents_eq_of_reused :
    ¬ ∀ (calls : Fin 2 → Call) (s s' : Sources) (out' : Outcome),
      (calls 0).options = (calls 1).options → (calls 0).compiler = (calls 1).compiler →
      (calls 0).sources = .ok s → (calls 1).sources = .ok s' →
      NoCollision s.contents.flatten s'.contents.flatten →
      (run calls ([0, 0] ++ 1 :: [1])).phase 1 = .finished out' → out'.reused = true →
      s.contents = s'.contents := by
  intro h
  obtain ⟨s, hs, hcontents⟩ := sources_movedCalls 0
  obtain ⟨s', hs', hcontents'⟩ := sources_movedCalls 1
  obtain ⟨-, out', -, -, -, -, hout'⟩ := run_movedCalls
  have hreused : ((run movedCalls ([0, 0] ++ 1 :: [1])).phase 1).outcome?.map Outcome.reused =
      some true := by
    decide +kernel
  rw [Phase.outcome?_eq_some.2 hout'] at hreused
  have hflat : s.contents.flatten = s'.contents.flatten := by
    rw [hcontents, hcontents']
    rfl
  have heq := h movedCalls s s' out' rfl rfl hs hs' (fun _ => by rw [hflat]) hout'
    (Option.some.inj hreused)
  rw [hcontents, hcontents'] at heq
  simp at heq

end Theme
end ThemeSheet
