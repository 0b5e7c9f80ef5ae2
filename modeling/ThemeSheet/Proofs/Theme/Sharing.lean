/-
# Calls that share a cache

Calls of the generator share one cache and take their steps in any order.  At every
moment the cache holds nothing or what one call has kept; a call that fails leaves
it alone, and a call asks the compiler nothing only if it fails early or finds its
theme in the cache.
-/

import Mathlib.Data.List.Induction
import Mathlib.Logic.Function.Basic
import ThemeSheet.Proofs.Theme.Call

namespace ThemeSheet
namespace Theme

open Recorded

/-! ### Calls in any order -/

variable {ι : Type}

/-- The cache that calls share, and how far each of them has come. -/
structure Shared (ι : Type) where
  cache : Cache
  phase : ι → Phase

/-- The cache is empty and all calls wait. -/
def Shared.start : Shared ι := ⟨.empty, fun _ => .waiting⟩

variable [DecidableEq ι] (calls : ι → Call)

/-- One call takes its next step. -/
def Shared.step (st : Shared ι) (i : ι) : Shared ι :=
  ⟨((calls i).advance st.cache (st.phase i)).1,
    Function.update st.phase i ((calls i).advance st.cache (st.phase i)).2⟩

/-- The calls take their steps in the order of a schedule. -/
def run (schedule : List ι) : Shared ι := schedule.foldl (Shared.step calls) .start

/-- A longer schedule goes on where the shorter one ended. -/
theorem run_append (before after : List ι) :
    run calls (before ++ after) = after.foldl (Shared.step calls) (run calls before) :=
  List.foldl_append

/-- The last step of a schedule is taken where the others ended. -/
theorem run_concat (before : List ι) (i : ι) :
    run calls (before ++ [i]) = (run calls before).step calls i :=
  run_append calls before [i]

variable {calls} {st : Shared ι} {i j : ι} {before after : List ι} {seen cache : Cache} {out : Outcome}

/-- A step takes its call further. -/
theorem Shared.step_phase_self :
    (st.step calls i).phase i = ((calls i).advance st.cache (st.phase i)).2 :=
  Function.update_self ..

/-- A step leaves the other calls where they are. -/
theorem Shared.step_phase_of_ne (h : j ≠ i) : (st.step calls i).phase j = st.phase j :=
  Function.update_of_ne h ..

/-- A call that is not in the schedule waits. -/
theorem phase_of_notMem (h : i ∉ before) : (run calls before).phase i = .waiting := by
  induction before using List.reverseRecOn with
  | nil => rfl
  | append_singleton before j ih =>
    rw [List.mem_append, List.mem_singleton, not_or] at h
    rw [run_concat, Shared.step_phase_of_ne h.2, ih h.1]

/-- **A call that has returned has returned for good.** -/
theorem Shared.finished_step (h : st.phase i = .finished out) (j : ι) :
    (st.step calls j).phase i = .finished out := by
  by_cases hj : i = j
  · subst hj
    rw [step_phase_self, h]
    rfl
  · rw [step_phase_of_ne hj, h]

/-- A call that has finished stays finished, whatever is scheduled behind. -/
theorem finished_append (h : (run calls before).phase i = .finished out) (after : List ι) :
    (run calls (before ++ after)).phase i = .finished out := by
  induction after using List.reverseRecOn with
  | nil => rwa [List.append_nil]
  | append_singleton after j ih =>
    rw [← List.append_assoc, run_concat]
    exact Shared.finished_step ih j

/-- How far a call may have come that has seen the cache in its first step. -/
def Call.Follows (call : Call) (seen : Cache) : Phase → Prop
  | .waiting => False
  | .building compiler s => call.lookup seen = .building compiler s
  | .finished out => call.lookup seen = .finished out ∨
      ∃ compiler s cache, call.lookup seen = .building compiler s ∧ out = call.finish cache compiler s

/-- After its first step, a call has come as far as it may. -/
theorem Call.follows_lookup (call : Call) (seen : Cache) : call.Follows seen (call.lookup seen) := by
  rcases call.lookup_cases seen with ⟨fault, h, -⟩ | ⟨css, h, -⟩ | ⟨compiler, s, h, -⟩ <;> rw [h]
  · exact .inl h
  · exact .inl h
  · exact h

/-- A further step takes a call no further than it may come. -/
theorem Call.Follows.advance {call : Call} {p : Phase} (h : call.Follows seen p) (cache : Cache) :
    call.Follows seen (call.advance cache p).2 := by
  cases p with
  | waiting => exact h.elim
  | building compiler s => exact .inr ⟨compiler, s, cache, h, rfl⟩
  | finished out => exact h

/-- **Behind its first step a call depends on the cache as it was in that step.** -/
theorem follows_run (calls : ι → Call) (h : i ∉ before) (after : List ι) :
    (calls i).Follows (run calls before).cache ((run calls (before ++ i :: after)).phase i) := by
  induction after using List.reverseRecOn with
  | nil =>
    rw [run_concat, Shared.step_phase_self, phase_of_notMem h]
    exact (calls i).follows_lookup _
  | append_singleton after j ih =>
    rw [← List.cons_append, ← List.append_assoc, run_concat]
    by_cases hj : i = j
    · subst hj
      rw [Shared.step_phase_self]
      exact ih.advance _
    · rwa [Shared.step_phase_of_ne hj]

/-- **A call that takes its second step returns.** -/
theorem finished_of_mem (h : i ∉ before) (hi : i ∈ after) :
    ∃ out, (run calls (before ++ i :: after)).phase i = .finished out := by
  obtain ⟨first, last, rfl⟩ := List.append_of_mem hi
  have hsecond : ∃ out, (run calls (before ++ i :: first ++ [i])).phase i = .finished out := by
    have hfollows := follows_run calls h first
    rw [run_concat, Shared.step_phase_self]
    cases hp : (run calls (before ++ i :: first)).phase i with
    | waiting => rw [hp] at hfollows; exact hfollows.elim
    | building compiler s => exact ⟨_, rfl⟩
    | finished out => exact ⟨out, rfl⟩
  obtain ⟨out, hout⟩ := hsecond
  refine ⟨out, ?_⟩
  rw [show before ++ i :: (first ++ i :: last) = before ++ i :: first ++ [i] ++ last by simp]
  exact finished_append hout last

/-! ### What a finished call has given -/

namespace Call

variable {call : Call}

/-- **The three ways in which a call returns.** -/
theorem Follows.finished_cases (h : call.Follows seen (.finished out)) :
    (∃ fault, out = .failed seen .empty fault ∧ call.result seen = .error fault ∧
      call.firstRequest = .error fault ∧ ∀ css, ¬ call.Finds seen css) ∨
    (∃ css, out = ⟨css, seen, true, .empty⟩ ∧ call.result seen = .ok css ∧ call.Finds seen css) ∨
    ∃ compiler s cache, out = call.finish cache compiler s ∧ call.compiler = .ok compiler ∧
      call.sources = .ok s ∧
      call.result seen = (perform (build call.options call.tree compiler call.draws s) .empty).1 ∧
      ∀ css, ¬ call.Finds seen css := by
  rcases call.lookup_cases seen with ⟨fault, hl, hrest⟩ | ⟨css, hl, hrest⟩ | ⟨compiler, s, hl, hrest⟩
  · rcases h with h | ⟨compiler, s, cache, h, -⟩ <;> rw [hl] at h
    · exact .inl ⟨fault, (Phase.finished.inj h).symm, hrest⟩
    · simp at h
  · rcases h with h | ⟨compiler, s, cache, h, -⟩ <;> rw [hl] at h
    · exact .inr (.inl ⟨css, (Phase.finished.inj h).symm, hrest⟩)
    · simp at h
  · rcases h with h | ⟨compiler', s', cache, h, rfl⟩ <;> rw [hl] at h
    · simp at h
    · obtain ⟨rfl, rfl⟩ := Phase.building.inj h
      exact .inr (.inr ⟨compiler, s, cache, rfl, hrest⟩)

/-- **A call returns what it gives, and the empty text where a fault ends it.** -/
theorem Follows.css_eq (h : call.Follows seen (.finished out)) :
    out.css = (call.result seen).toOption.getD [] := by
  rcases h.finished_cases with ⟨fault, rfl, hr, -⟩ | ⟨css, rfl, hr, -⟩ |
    ⟨compiler, s, cache, rfl, -, -, hr, -⟩ <;> rw [hr]
  · rfl
  · rfl
  · exact (call.finish_spec cache compiler s).1

/-- **A call that asks nothing has failed early or found its theme.** -/
theorem Follows.exchanges_eq_nil_iff (h : call.Follows seen (.finished out)) :
    out.journal.exchanges = [] ↔ call.FailsEarly seen ∨ ∃ css, call.Finds seen css := by
  rcases h.finished_cases with ⟨fault, rfl, hr, hf, -⟩ | ⟨css, rfl, -, hfound⟩ |
    ⟨compiler, s, cache, rfl, hc, hs, hr, hno⟩
  · exact ⟨fun _ => .inl ⟨fault, hr, hf⟩, fun _ => rfl⟩
  · exact ⟨fun _ => .inr ⟨css, hfound⟩, fun _ => rfl⟩
  · have hfirst : call.firstRequest = Theme.firstRequest call.options call.tree call.draws s := by
      rw [firstRequest, hc, hs]
      rfl
    rw [(call.finish_spec cache compiler s).2]
    cases hq : Theme.firstRequest call.options call.tree call.draws s with
    | error fault =>
      obtain ⟨hfault, hnone⟩ := stops_build compiler hq .empty
      exact ⟨fun _ => .inl ⟨fault, hr.trans hfault, hfirst.trans hq⟩, fun _ => hnone⟩
    | ok r =>
      obtain ⟨more, hmore⟩ := asksFirst_build compiler hq .empty
      rw [hmore]
      refine ⟨fun hnil => absurd hnil (by simp), ?_⟩
      rintro (⟨fault, -, hf⟩ | ⟨css, hfound⟩)
      · rw [hfirst, hq] at hf
        simp at hf
      · exact absurd hfound (hno css)

/-- A call that finds a theme gives this theme. -/
theorem Follows.css_of_finds (h : call.Follows seen (.finished out)) {css : Text}
    (hfound : call.Finds seen css) : out.css = css := by
  rcases h.finished_cases with ⟨-, -, -, -, hno⟩ | ⟨css', rfl, -, hfound'⟩ |
    ⟨-, -, -, -, -, -, -, hno⟩
  · exact absurd hfound (hno css)
  · obtain ⟨-, s, -, hs, rfl⟩ := hfound
    obtain ⟨-, s', -, hs', he⟩ := hfound'
    exact (Option.some.inj (Cache.mk.inj he).2).symm
  · exact absurd hfound (hno css)

end Call

/-! ### What is in the cache -/

/-- **The cache is empty, or holds what one call has kept:** the digest of its sources and the theme
it returned. -/
def Kept (calls : ι → Call) (st : Shared ι) : Prop :=
  st.cache = .empty ∨
    ∃ i out s, st.phase i = .finished out ∧ out.reused = false ∧ out.cache = st.cache ∧
      (calls i).sources = .ok s ∧ out.css ≠ [] ∧ st.cache = ⟨some s.digest, some out.css⟩

/-- What holds at every moment. -/
structure IsSound (calls : ι → Call) (st : Shared ι) : Prop where
  kept : Kept calls st
  building : ∀ i compiler s, st.phase i = .building compiler s → (calls i).sources = .ok s

/-- Where a step leaves the cache, it still holds what was kept. -/
theorem Kept.step (h : Kept calls st) (hc : (st.step calls i).cache = st.cache) :
    Kept calls (st.step calls i) := by
  rcases h with h | ⟨j, out, s, hp, hr, ho, hs, hne, hcache⟩
  · exact .inl (hc.trans h)
  · exact .inr ⟨j, out, s, Shared.finished_step hp i, hr, ho.trans hc.symm, hs, hne, hc.trans hcache⟩

/-- A step keeps what holds at every moment. -/
theorem IsSound.step (h : IsSound calls st) (i : ι) : IsSound calls (st.step calls i) where
  kept := by
    cases hp : st.phase i with
    | waiting => exact h.kept.step (by rw [Shared.step, hp]; rfl)
    | finished out => exact h.kept.step (by rw [Shared.step, hp]; rfl)
    | building compiler s =>
      have hcache : (st.step calls i).cache = ((calls i).finish st.cache compiler s).cache := by
        rw [Shared.step, hp]
        rfl
      rcases (calls i).finish_cache st.cache compiler s with ⟨-, hc⟩ | ⟨hne, hr, hc⟩
      · exact h.kept.step (hcache.trans hc)
      · refine .inr ⟨i, (calls i).finish st.cache compiler s, s, ?_, hr, hcache.symm,
          h.building i _ _ hp, hne, hcache.trans hc⟩
        rw [Shared.step_phase_self, hp]
        rfl
  building := by
    intro j compiler s hj
    by_cases hji : j = i
    · subst hji
      rw [Shared.step_phase_self] at hj
      cases hp : st.phase j with
      | waiting =>
        rw [hp, Call.advance] at hj
        rcases (calls j).lookup_cases st.cache with ⟨fault, hl, -⟩ | ⟨css, hl, -⟩ |
          ⟨compiler', s', hl, -, hs, -⟩ <;> rw [hl] at hj
        · simp at hj
        · simp at hj
        · obtain ⟨rfl, rfl⟩ := Phase.building.inj hj
          exact hs
      | building compiler' s' => rw [hp] at hj; simp [Call.advance] at hj
      | finished out => rw [hp] at hj; simp [Call.advance] at hj
    · rw [Shared.step_phase_of_ne hji] at hj
      exact h.building j compiler s hj

/-- **It holds after every schedule.** -/
theorem isSound_run (schedule : List ι) : IsSound calls (run calls schedule) := by
  induction schedule using List.reverseRecOn with
  | nil => exact ⟨.inl rfl, by simp [run, Shared.start]⟩
  | append_singleton before i ih =>
    rw [run_concat]
    exact ih.step i

/-- **No step of the call changes the cache.** -/
def LeavesCache (calls : ι → Call) (schedule : List ι) (i : ι) : Prop :=
  ∀ before after, schedule = before ++ i :: after →
    (run calls (before ++ [i])).cache = (run calls before).cache

/-- A call that ends with an empty theme never changes the cache. -/
theorem leavesCache_of_nil {schedule : List ι} (h : (run calls schedule).phase i = .finished out)
    (hcss : out.css = []) : LeavesCache calls schedule i := by
  rintro before after rfl
  rw [run_concat]
  cases hp : (run calls before).phase i with
  | waiting => rw [Shared.step, hp]; rfl
  | finished out => rw [Shared.step, hp]; rfl
  | building compiler s =>
    have hcache : ((run calls before).step calls i).cache =
        ((calls i).finish (run calls before).cache compiler s).cache := by
      rw [Shared.step, hp]
      rfl
    rcases (calls i).finish_cache (run calls before).cache compiler s with ⟨-, hc⟩ | ⟨hne, -⟩
    · exact hcache.trans hc
    · -- a theme that is kept is the one that was returned
      have hreturned : (run calls (before ++ [i])).phase i =
          .finished ((calls i).finish (run calls before).cache compiler s) := by
        rw [run_concat, Shared.step_phase_self, hp]
        rfl
      have hfinal := finished_append hreturned after
      rw [List.append_assoc, List.singleton_append, h] at hfinal
      exact absurd (Phase.finished.inj hfinal ▸ hcss) hne

/-- **Calls that share a cache.** At every moment the cache is empty or holds what one call has
kept. A call that has taken its second step has returned. If a fault ends it or its theme is empty,
it returns the empty text and leaves the cache alone. It asks the compiler nothing exactly if it
fails before its first request or finds its theme in the cache as it was in its first step, and then
it returns the theme it finds. -/
theorem run_shared (calls : ι → Call) (schedule : List ι) :
    Kept calls (run calls schedule) ∧
    ∀ i before after, schedule = before ++ i :: after → i ∉ before →
      (i ∈ after → ∃ out, (run calls schedule).phase i = .finished out) ∧
      ∀ out, (run calls schedule).phase i = .finished out →
        ((∃ fault, (calls i).result (run calls before).cache = .error fault) ∨
            (calls i).result (run calls before).cache = .ok [] →
          out.css = [] ∧ LeavesCache calls schedule i) ∧
        (out.journal.exchanges = [] ↔
          (calls i).FailsEarly (run calls before).cache ∨
            ∃ css, (calls i).Finds (run calls before).cache css) ∧
        ∀ css, (calls i).Finds (run calls before).cache css → out.css = css := by
  refine ⟨(isSound_run schedule).kept, ?_⟩
  rintro i before after rfl hi
  refine ⟨finished_of_mem hi, fun out hout => ?_⟩
  have hfollows := follows_run calls hi after
  rw [hout] at hfollows
  refine ⟨fun hempty => ?_, hfollows.exchanges_eq_nil_iff, fun css => hfollows.css_of_finds⟩
  have hcss : out.css = [] := by
    rw [hfollows.css_eq]
    rcases hempty with ⟨fault, hr⟩ | hr <;> rw [hr] <;> rfl
  exact ⟨hcss, leavesCache_of_nil hout hcss⟩

/-- A library with one variable and no styles. -/
def smallTree : FileTree :=
  let file (tree : FileTree) (name content : String) : FileTree :=
    tree.addFile (.ofText name.toList) content.toUTF8.toList
  file (file (file (.empty []) "/a/lib/style/themes/default.less" "@primary-color: #f00;\n")
    "/a/lib/style/color/colors.less" "") "/a/dist/antd.less" ""

/-- A call for the small library. -/
def smallCall (compiler : Except Fault Compiler) : Call :=
  ⟨⟨.given "/a".toList, .absent, .absent, .absent, .absent, .absent, []⟩, smallTree,
    compiler, .ofScript []⟩

/-- Two calls for the same library, and one whose compiler is missing. -/
def smallCalls (i : Fin 3) : Call :=
  smallCall (if i = 2 then .error (.noFile []) else .ok fun _ => .ok [])

/-- Two calls of which the second finds the theme of the first, and a call whose compiler is missing. -/
theorem run_shared_small :
    ∃ out out', (run smallCalls [0, 2, 0, 1, 2, 1]).phase 1 = .finished out ∧
      out.journal.exchanges = [] ∧
      out.css = "@primary-color: #f00;\n".toList ∧
      (run smallCalls [0, 2, 0, 1, 2, 1]).phase 2 = .finished out' ∧ out'.css = [] ∧
      LeavesCache smallCalls [0, 2, 0, 1, 2, 1] 2 := by
  have hcache : (run smallCalls [0, 2, 0]).cache =
      ⟨some "da39a3ee5e6b4b0d3255bfef95601890afd80709".toList,
        some "@primary-color: #f00;\n".toList⟩ := by
    decide +kernel
  have hfound : (smallCalls 1).Finds (run smallCalls [0, 2, 0]).cache
      "@primary-color: #f00;\n".toList := by
    have hdigest : ((smallCalls 1).sources.toOption.map Sources.digest) =
        some "da39a3ee5e6b4b0d3255bfef95601890afd80709".toList := by
      decide +kernel
    cases hs : (smallCalls 1).sources with
    | error fault => rw [hs] at hdigest; simp [Except.toOption] at hdigest
    | ok s =>
      rw [hs] at hdigest
      exact ⟨_, s, rfl, hs, hcache.trans (congrArg (Cache.mk · _) hdigest.symm)⟩
  obtain ⟨-, hcalls⟩ := run_shared smallCalls [0, 2, 0, 1, 2, 1]
  obtain ⟨hreturns, hout⟩ := hcalls 1 [0, 2, 0] [2, 1] rfl (by decide)
  obtain ⟨out, ho⟩ := hreturns (by decide)
  obtain ⟨-, hasks, hfinds⟩ := hout out ho
  obtain ⟨hreturns', hout'⟩ := hcalls 2 [0] [0, 1, 2, 1] rfl (by decide)
  obtain ⟨out', ho'⟩ := hreturns' (by decide)
  obtain ⟨hnil, hleaves⟩ := (hout' out' ho').1 (.inl ⟨.noFile [], rfl⟩)
  exact ⟨out, out', ho, hasks.2 (.inr ⟨_, hfound⟩), hfinds _ hfound, ho', hnil, hleaves⟩

end Theme
end ThemeSheet
