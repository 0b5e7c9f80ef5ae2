/-
# One call of the generator, step by step

A call comes to the cache twice: it looks for its theme, and it keeps the theme that
it has built.  What it gives depends on the cache only through the first of these
steps, and the cache changes only in the second.
-/

import ThemeSheet.Proofs.Theme.Asking

namespace ThemeSheet
namespace Theme

open Recorded

/-- A call of the generator. -/
structure Call where
  options : Options
  tree : FileTree
  compiler : Except Fault Compiler
  draws : Color.Draws

/-- How far a call has come. -/
inductive Phase where
  | waiting
  /-- It has not found its theme in the cache. -/
  | building (compiler : Compiler) (sources : Sources)
  | finished (outcome : Outcome)

namespace Call

/-- The style files of the call. -/
def sources (call : Call) : Except Fault Sources := call.options.sources call.tree

/-- The step of the call in which it looks into the cache. -/
def lookup (call : Call) (cache : Cache) : Phase :=
  match call.compiler, call.sources with
  | .error fault, _ => .finished (.failed cache .empty fault)
  | .ok _, .error fault => .finished (.failed cache .empty fault)
  | .ok compiler, .ok s =>
    match cache.lookup (some s.digest) with
    | some css => .finished ⟨css, cache, true, .empty⟩
    | none => .building compiler s

/-- The step of the call in which it keeps its theme. -/
def finish (call : Call) (cache : Cache) (compiler : Compiler) (s : Sources) : Outcome :=
  match perform (build call.options call.tree compiler call.draws s) .empty with
  | (.error fault, journal) => .failed cache journal fault
  | (.ok css, journal) => ⟨css, cache.keep s.digest css, false, journal⟩

/-- The next step of the call: what is in the cache then, and how far it has come. -/
def advance (call : Call) (cache : Cache) : Phase → Cache × Phase
  | .waiting => (cache, call.lookup cache)
  | .building compiler s =>
    ((call.finish cache compiler s).cache, .finished (call.finish cache compiler s))
  | .finished out => (cache, .finished out)

/-- **A call that is not interrupted generates the theme in its two steps.** -/
theorem advance_twice (call : Call) (cache : Cache) :
    call.advance (call.advance cache .waiting).1 (call.advance cache .waiting).2 =
      ((generate call.options call.tree call.compiler call.draws cache).cache,
        .finished (generate call.options call.tree call.compiler call.draws cache)) := by
  cases hc : call.compiler with
  | error fault => simp [advance, lookup, generate, hc, Outcome.failed]
  | ok compiler =>
    cases hs : call.options.sources call.tree with
    | error fault => simp [advance, lookup, generate, sources, hc, hs, Outcome.failed]
    | ok s =>
      cases hl : cache.lookup (some s.digest) with
      | some css => simp [advance, lookup, generate, generateFrom, sources, hc, hs, hl]
      | none =>
        simp only [advance, lookup, generate, generateFrom, sources, hc, hs, hl]
        rfl

/-! ### What a call gives -/

/-- What the call gives if this is what it sees in the cache; a fault that no stage handles ends it. -/
def result (call : Call) (seen : Cache) : Except Fault Text := do
  let compiler ← call.compiler
  let s ← call.sources
  match seen.lookup (some s.digest) with
  | some css => pure css
  | none => (perform (build call.options call.tree compiler call.draws s) .empty).1

/-- The request that the call asks first, if it asks. -/
def firstRequest (call : Call) : Except Fault CompileRequest := do
  let _ ← call.compiler
  let s ← call.sources
  Theme.firstRequest call.options call.tree call.draws s

/-- **The call fails before its first request.** -/
def FailsEarly (call : Call) (seen : Cache) : Prop :=
  ∃ fault, call.result seen = .error fault ∧ call.firstRequest = .error fault

/-- **The call comes to the cache and finds a theme under the digest of its sources.** -/
def Finds (call : Call) (seen : Cache) (css : Text) : Prop :=
  ∃ compiler s, call.compiler = .ok compiler ∧ call.sources = .ok s ∧
    seen = ⟨some s.digest, some css⟩

end Call

/-- Styles are found under a digest exactly if the cache holds that digest with them. -/
theorem Cache.lookup_eq_some {cache : Cache} {digest css : Text} :
    cache.lookup (some digest) = some css ↔ cache = ⟨some digest, some css⟩ := by
  obtain ⟨d, c⟩ := cache
  rw [Cache.lookup, Cache.mk.injEq, Option.ite_none_right_eq_some, eq_comm (a := d)]

/-- A theme without text is not kept. -/
theorem Cache.keep_nil (cache : Cache) (digest : Text) : cache.keep digest [] = cache := rfl

/-- A theme with text is kept under its digest. -/
theorem Cache.keep_of_ne {cache : Cache} {digest css : Text} (h : css ≠ []) :
    cache.keep digest css = ⟨some digest, some css⟩ :=
  if_neg (by simpa using h)

namespace Call

variable {call : Call} {seen cache : Cache} {compiler : Compiler} {s : Sources} {out : Outcome}

/-- **The three ways in which a call leaves its first step.** -/
theorem lookup_cases (call : Call) (seen : Cache) :
    (∃ fault, call.lookup seen = .finished (.failed seen .empty fault) ∧
      call.result seen = .error fault ∧ call.firstRequest = .error fault ∧
      ∀ css, ¬ call.Finds seen css) ∨
    (∃ css, call.lookup seen = .finished ⟨css, seen, true, .empty⟩ ∧ call.result seen = .ok css ∧
      call.Finds seen css) ∨
    ∃ compiler s, call.lookup seen = .building compiler s ∧ call.compiler = .ok compiler ∧
      call.sources = .ok s ∧
      call.result seen = (perform (build call.options call.tree compiler call.draws s) .empty).1 ∧
      ∀ css, ¬ call.Finds seen css := by
  cases hc : call.compiler with
  | error fault =>
    have hresult : call.result seen = .error fault := by rw [result, hc]; rfl
    have hfirst : call.firstRequest = .error fault := by rw [firstRequest, hc]; rfl
    refine .inl ⟨fault, by rw [lookup, hc], hresult, hfirst, ?_⟩
    rintro css ⟨compiler, s, hc', -⟩
    simp [hc] at hc'
  | ok compiler =>
    cases hs : call.sources with
    | error fault =>
      have hresult : call.result seen = .error fault := by rw [result, hc, hs]; rfl
      have hfirst : call.firstRequest = .error fault := by rw [firstRequest, hc, hs]; rfl
      refine .inl ⟨fault, by rw [lookup, hc, hs], hresult, hfirst, ?_⟩
      rintro css ⟨compiler, s, -, hs', -⟩
      simp [hs] at hs'
    | ok s =>
      cases hl : seen.lookup (some s.digest) with
      | some css =>
        have hlookup : call.lookup seen = .finished ⟨css, seen, true, .empty⟩ := by
          rw [lookup, hc, hs]
          dsimp only
          rw [hl]
        have hresult : call.result seen = .ok css :=
          Fallible.bind_eq_ok.2 ⟨compiler, hc, Fallible.bind_eq_ok.2 ⟨s, hs, by rw [hl]; rfl⟩⟩
        exact .inr (.inl ⟨css, hlookup, hresult, compiler, s, hc, hs, Cache.lookup_eq_some.1 hl⟩)
      | none =>
        have hlookup : call.lookup seen = .building compiler s := by
          rw [lookup, hc, hs]
          dsimp only
          rw [hl]
        refine .inr (.inr ⟨compiler, s, hlookup, rfl, rfl, ?_, ?_⟩)
        · rw [result, hc, hs]
          show (match seen.lookup (some s.digest) with | some css => pure css | none => _) = _
          rw [hl]
        · rintro css ⟨compiler', s', -, hs', rfl⟩
          obtain rfl := Except.ok.inj (hs.symm.trans hs')
          rw [Cache.lookup_eq_some.2 rfl] at hl
          simp at hl

/-- A call whose theme cannot be built fails, and the cache stays. -/
theorem finish_of_error {fault : Fault} {journal : Journal}
    (h : perform (build call.options call.tree compiler call.draws s) .empty =
      (.error fault, journal)) :
    call.finish cache compiler s = .failed cache journal fault := by
  rw [finish, h]

/-- A call whose theme is built returns it, and keeps it in the cache. -/
theorem finish_of_ok {css : Text} {journal : Journal}
    (h : perform (build call.options call.tree compiler call.draws s) .empty = (.ok css, journal)) :
    call.finish cache compiler s = ⟨css, cache.keep s.digest css, false, journal⟩ := by
  rw [finish, h]

/-- What the second step gives and has asked does not depend on the cache. -/
theorem finish_spec (call : Call) (cache : Cache) (compiler : Compiler) (s : Sources) :
    (call.finish cache compiler s).css =
      (perform (build call.options call.tree compiler call.draws s) .empty).1.toOption.getD [] ∧
    (call.finish cache compiler s).journal.exchanges =
      (perform (build call.options call.tree compiler call.draws s) .empty).2.exchanges := by
  rcases hp : perform (build call.options call.tree compiler call.draws s) .empty
    with ⟨fault | css, journal⟩
  · rw [finish_of_error hp]
    exact ⟨rfl, rfl⟩
  · rw [finish_of_ok hp]
    exact ⟨rfl, rfl⟩

/-- **The second step keeps the theme it gives,** and an empty one changes nothing. -/
theorem finish_cache (call : Call) (cache : Cache) (compiler : Compiler) (s : Sources) :
    ((call.finish cache compiler s).css = [] ∧ (call.finish cache compiler s).cache = cache) ∨
    ((call.finish cache compiler s).css ≠ [] ∧ (call.finish cache compiler s).reused = false ∧
      (call.finish cache compiler s).cache =
        ⟨some s.digest, some (call.finish cache compiler s).css⟩) := by
  rcases hp : perform (build call.options call.tree compiler call.draws s) .empty
    with ⟨fault | css, journal⟩
  · rw [finish_of_error hp]
    exact .inl ⟨rfl, rfl⟩
  · rw [finish_of_ok hp]
    by_cases hcss : css = []
    · exact .inl ⟨hcss, by rw [hcss, Cache.keep_nil]⟩
    · exact .inr ⟨hcss, rfl, Cache.keep_of_ne hcss⟩

end Call

end Theme
end ThemeSheet
