/-
# Style files compiled at once

The compiles of a batch take their steps in any order and share one journal.  Their
results are read in the order of the files, up to the first fault.  What a compile gives
does not depend on the journal, so the batch gives the same whatever the order; only the
journal is in the order of the steps, and without a fault it holds the same entries.
-/

import Mathlib.Data.List.FinRange
import Mathlib.Data.List.Flatten
import Mathlib.Logic.Function.Basic
import ThemeSheet.Proofs.Style.Batch

namespace ThemeSheet
namespace Style

open Recorded Theme

/-! ### One compile, step by step -/

/-- How far the compile of a style file has come. -/
inductive Progress where
  | waiting
  | answered (answer : Except Fault Text)
  | finished (result : Except Fault Text)

/-- The next step of a compile: the file is made ready and the compiler is asked; then the answer is
pruned, or its refusal told. -/
def Setting.advance (compiler : Compiler) (s : Setting) (e : Path × Text) (j : Journal) :
    Progress → Journal × Progress
  | .waiting =>
    match s.request e.1 e.2 with
    | .error fault => (j, .finished (.error fault))
    | .ok request =>
      ({ j with exchanges := j.exchanges ++ [⟨request, compiler request⟩] }, .answered (compiler request))
  | .answered (.ok css) => (j, .finished (Css.prune css))
  | .answered (.error (.compile _ detail)) =>
    ({ j with log := j.log ++ [.styleRefused e.1.written detail] }, .finished (.ok []))
  | .answered (.error fault) => (j, .finished (.error fault))
  | .finished result => (j, .finished result)

namespace Progress

variable (compiler : Compiler) (s : Setting) (e : Path × Text)

/-- What has been asked so far for the file. -/
def asked : Progress → List Exchange
  | .waiting => []
  | _ => s.asked compiler e

/-- What has been told so far of the file. -/
def told : Progress → List LogEntry
  | .finished _ => s.told compiler e
  | _ => []

/-- How far a compile may have come. -/
def Follows : Progress → Prop
  | .waiting => True
  | .answered answer => ∃ request, s.request e.1 e.2 = .ok request ∧ compiler request = answer
  | .finished result => result = s.result compiler e

/-- How many steps are left at most. -/
def left : Progress → Nat
  | .waiting => 2
  | .answered _ => 1
  | .finished _ => 0

end Progress

variable {compiler : Compiler} {s : Setting} {e : Path × Text} {p : Progress}

/-- **What a step does:** it adds to the journal what it asks and tells, and leads on to the result. -/
theorem advance_spec (h : p.Follows compiler s e) (j : Journal) : ∃ exchanges log,
    (s.advance compiler e j p).1 = ⟨j.exchanges ++ exchanges, j.log ++ log⟩ ∧
    (s.advance compiler e j p).2.Follows compiler s e ∧
    (s.advance compiler e j p).2.asked compiler s e = p.asked compiler s e ++ exchanges ∧
    (s.advance compiler e j p).2.told compiler s e = p.told compiler s e ++ log := by
  have hstay : j = ⟨j.exchanges ++ [], j.log ++ []⟩ := by rw [List.append_nil, List.append_nil]
  cases p with
  | waiting =>
    cases hrequest : s.request e.1 e.2 with
    | error fault =>
      refine ⟨[], [], ?_, ?_, ?_, ?_⟩ <;>
        simp [Setting.advance, Progress.Follows, Progress.asked, Progress.told, Setting.result, Setting.asked,
          Setting.told, hrequest]
    | ok request =>
      refine ⟨[⟨request, compiler request⟩], [], ?_, ?_, ?_, ?_⟩ <;>
        simp [Setting.advance, Progress.Follows, Progress.asked, Progress.told, Setting.asked, hrequest]
  | answered answer =>
    obtain ⟨request, hrequest, hanswer⟩ := h
    rcases answer with fault | css
    · cases fault with
      | compile source detail =>
        refine ⟨[], [.styleRefused e.1.written detail], ?_, ?_, ?_, ?_⟩ <;>
          simp [Setting.advance, Progress.Follows, Progress.asked, Progress.told, Setting.result, Setting.told,
            hrequest, hanswer]
      | _ =>
        refine ⟨[], [], ?_, ?_, ?_, ?_⟩ <;>
          simp [Setting.advance, Progress.Follows, Progress.asked, Progress.told, Setting.result, Setting.told,
            hrequest, hanswer]
    · refine ⟨[], [], ?_, ?_, ?_, ?_⟩ <;>
        simp [Setting.advance, Progress.Follows, Progress.asked, Progress.told, Setting.result, Setting.told,
          hrequest, hanswer]
  | finished result => exact ⟨[], [], hstay, h, (List.append_nil _).symm, (List.append_nil _).symm⟩

/-- A step leaves one step less, until none is left. -/
theorem left_advance (compiler : Compiler) (s : Setting) (e : Path × Text) (j : Journal) (p : Progress) :
    (s.advance compiler e j p).2.left ≤ p.left - 1 := by
  cases p with
  | waiting =>
    unfold Setting.advance
    cases s.request e.1 e.2 <;> simp [Progress.left]
  | answered answer =>
    rcases answer with fault | css
    · cases fault <;> exact Nat.le_refl 0
    · exact Nat.le_refl 0
  | finished result => exact Nat.le_refl 0

/-! ### All compiles -/

/-- The journal that the compiles share, and how far each of them has come. -/
structure Batch (n : Nat) where
  journal : Journal
  progress : Fin n → Progress

/-- One compile takes its next step. -/
def Batch.step (compiler : Compiler) (s : Setting) (files : List (Path × Text)) (b : Batch files.length)
    (i : Fin files.length) : Batch files.length :=
  ⟨(s.advance compiler (files.get i) b.journal (b.progress i)).1,
    Function.update b.progress i (s.advance compiler (files.get i) b.journal (b.progress i)).2⟩

variable {files : List (Path × Text)} {j : Journal} {schedule : List (Fin files.length)}

/-- A step takes its compile further. -/
theorem Batch.step_progress_self (b : Batch files.length) (i : Fin files.length) :
    (b.step compiler s files i).progress i = (s.advance compiler (files.get i) b.journal (b.progress i)).2 :=
  Function.update_self ..

/-- A step leaves the other compiles where they are. -/
theorem Batch.step_progress_of_ne (b : Batch files.length) {i k : Fin files.length} (h : k ≠ i) :
    (b.step compiler s files i).progress k = b.progress k :=
  Function.update_of_ne h ..

/-- The compiles take their steps in the order of a schedule. -/
def runBatch (compiler : Compiler) (s : Setting) (files : List (Path × Text)) (j : Journal)
    (schedule : List (Fin files.length)) : Batch files.length :=
  schedule.foldl (Batch.step compiler s files) ⟨j, fun _ => .waiting⟩

/-- The last step of a schedule is taken where the others ended. -/
theorem runBatch_concat (i : Fin files.length) :
    runBatch compiler s files j (schedule ++ [i]) =
      (runBatch compiler s files j schedule).step compiler s files i := by
  rw [runBatch, List.foldl_append]
  rfl

/-- Where one part of many grows at its end, the whole grows so up to the order. -/
theorem flatMap_perm_append {ι α : Type} {f g : ι → List α} {l : List ι} {i : ι} {more : List α}
    (hl : l.Nodup) (hi : i ∈ l) (hother : ∀ k, k ≠ i → g k = f k) (hgrows : g i = f i ++ more) :
    (l.flatMap g).Perm (l.flatMap f ++ more) := by
  obtain ⟨front, back, rfl⟩ := List.append_of_mem hi
  obtain ⟨-, hback, hfront⟩ := List.nodup_append.1 hl
  have hsame (part : List ι) (h : i ∉ part) : part.flatMap g = part.flatMap f :=
    List.flatMap_congr fun k hk => hother k fun he => h (he ▸ hk)
  rw [List.flatMap_append, List.flatMap_append, List.flatMap_cons, List.flatMap_cons, hgrows,
    hsame front fun h => hfront i h i (List.mem_cons_self ..) rfl, hsame back (List.nodup_cons.1 hback).1,
    List.append_assoc, List.append_assoc, List.append_assoc]
  exact ((List.perm_append_comm).append_left _).append_left _

/-- **What a step adds for its file** is added, up to the order, for all files together. -/
theorem Batch.perm_step {α : Type} {b : Batch files.length} {i : Fin files.length} {base grown more : List α}
    (part : Fin files.length → Progress → List α)
    (hmore : part i (s.advance compiler (files.get i) b.journal (b.progress i)).2 =
      part i (b.progress i) ++ more)
    (h : grown.Perm (base ++ (List.finRange files.length).flatMap fun k => part k (b.progress k))) :
    (grown ++ more).Perm (base ++ (List.finRange files.length).flatMap fun k =>
      part k ((b.step compiler s files i).progress k)) := by
  have hall := flatMap_perm_append (List.nodup_finRange _) (List.mem_finRange i)
    (f := fun k => part k (b.progress k)) (g := fun k => part k ((b.step compiler s files i).progress k))
    (fun k hk => by rw [b.step_progress_of_ne hk]) (by rw [b.step_progress_self]; exact hmore)
  refine (h.append_right _).trans ?_
  rw [List.append_assoc]
  exact hall.symm.append_left _

/-- **What holds at every moment:** every compile is on its way to its result, and the journal has gained what
has been asked and told so far. -/
structure Batch.IsSound (compiler : Compiler) (s : Setting) (files : List (Path × Text)) (j : Journal)
    (b : Batch files.length) : Prop where
  follows : ∀ i, (b.progress i).Follows compiler s (files.get i)
  exchanges : b.journal.exchanges.Perm (j.exchanges ++
    (List.finRange files.length).flatMap fun i => (b.progress i).asked compiler s (files.get i))
  log : b.journal.log.Perm (j.log ++
    (List.finRange files.length).flatMap fun i => (b.progress i).told compiler s (files.get i))

/-- A step keeps what holds at every moment. -/
theorem Batch.IsSound.step {b : Batch files.length} (h : b.IsSound compiler s files j)
    (i : Fin files.length) : (b.step compiler s files i).IsSound compiler s files j := by
  obtain ⟨exchanges, log, hjournal, hfollows, hasked, htold⟩ := advance_spec (h.follows i) b.journal
  have hgained : (b.step compiler s files i).journal =
      ⟨b.journal.exchanges ++ exchanges, b.journal.log ++ log⟩ := hjournal
  constructor
  · intro k
    by_cases hk : k = i
    · subst hk
      rwa [b.step_progress_self]
    · rw [b.step_progress_of_ne hk]
      exact h.follows k
  · rw [hgained]
    exact Batch.perm_step (fun k p => p.asked compiler s (files.get k)) hasked h.exchanges
  · rw [hgained]
    exact Batch.perm_step (fun k p => p.told compiler s (files.get k)) htold h.log

/-- **It holds after every schedule.** -/
theorem isSound_runBatch (compiler : Compiler) (s : Setting) (files : List (Path × Text)) (j : Journal)
    (schedule : List (Fin files.length)) :
    (runBatch compiler s files j schedule).IsSound compiler s files j := by
  induction schedule using List.reverseRecOn with
  | nil =>
    have hnone {α : Type} (l : List α) : l ++ (List.finRange files.length).flatMap (fun _ => []) = l := by
      rw [List.flatMap_eq_nil_iff.2 fun _ _ => rfl, List.append_nil]
    exact ⟨fun _ => trivial, .of_eq (hnone j.exchanges).symm, .of_eq (hnone j.log).symm⟩
  | append_singleton schedule i ih =>
    rw [runBatch_concat]
    exact ih.step i

/-- With every step of a compile, one less is left of its two. -/
theorem left_runBatch (i : Fin files.length) :
    ((runBatch compiler s files j schedule).progress i).left ≤ 2 - schedule.count i := by
  induction schedule using List.reverseRecOn with
  | nil => exact Nat.le_refl 2
  | append_singleton schedule k ih =>
    rw [runBatch_concat, List.count_append, List.count_singleton]
    by_cases hk : k = i
    · subst hk
      rw [Batch.step_progress_self]
      have hstep := left_advance compiler s (files.get k) (runBatch compiler s files j schedule).journal
        ((runBatch compiler s files j schedule).progress k)
      simp only [beq_self_eq_true, if_true]
      omega
    · rw [Batch.step_progress_of_ne _ (Ne.symm hk)]
      simpa [hk] using ih

/-- **A compile that takes its second step returns.** -/
theorem finished_of_count {i : Fin files.length} (h : 2 ≤ schedule.count i) :
    ∃ result, (runBatch compiler s files j schedule).progress i = .finished result := by
  have hleft : ((runBatch compiler s files j schedule).progress i).left ≤ 2 - schedule.count i :=
    left_runBatch i
  cases hp : (runBatch compiler s files j schedule).progress i with
  | finished result => exact ⟨result, rfl⟩
  | waiting => rw [hp, Progress.left] at hleft; omega
  | answered answer => rw [hp, Progress.left] at hleft; omega

/-! ### What the batch gives -/

/-- What the compiles have returned, read in the order of the files: the first fault ends it, and a compile
that has not returned holds it up. -/
def awaited : List Progress → Option (Except Fault (List Text))
  | [] => some (.ok [])
  | .finished (.ok output) :: rest => (awaited rest).map (Except.map (output :: ·))
  | .finished (.error fault) :: _ => some (.error fault)
  | _ :: _ => none

/-- What the batch gives, as soon as all has returned that it waits for. -/
def Batch.given? {n : Nat} (b : Batch n) : Option (Except Fault Text) :=
  (awaited (List.ofFn b.progress)).map (Except.map fun outputs => Text.join ['\n'] (distinct [] outputs))

/-- **What has been returned** is what the files give, up to the first fault. -/
theorem awaited_eq {ps : List Progress} {r : Except Fault (List Text)}
    (h : List.Forall₂ (fun p e => p.Follows compiler s e) ps files) (hr : awaited ps = some r) :
    r = (files.map (s.result compiler)).mapM id := by
  induction h generalizing r with
  | nil => exact (Option.some.inj hr).symm
  | @cons p e ps files hp _ ih =>
    rw [List.map_cons, List.mapM_cons]
    cases p with
    | waiting => simp [awaited] at hr
    | answered answer => simp [awaited] at hr
    | finished result =>
      rw [← show result = s.result compiler e from hp]
      cases result with
      | error fault => exact (Option.some.inj hr).symm
      | ok output =>
        obtain ⟨rest, hrest, rfl⟩ := Option.map_eq_some_iff.1 hr
        rw [← ih hrest]
        cases rest <;> rfl

/-- Without a fault nothing is read before all compiles have returned. -/
theorem finished_of_awaited {ps : List Progress} {outputs : List Text} (h : awaited ps = some (.ok outputs)) :
    ∀ p ∈ ps, ∃ output, p = .finished (.ok output) := by
  fun_induction awaited ps generalizing outputs with
  | case1 => simp
  | case2 output rest ih =>
    obtain ⟨r, hr, hok⟩ := Option.map_eq_some_iff.1 h
    cases r with
    | error fault => simp [Except.map] at hok
    | ok others => exact List.forall_mem_cons.2 ⟨⟨output, rfl⟩, ih hr⟩
  | case3 fault rest => simp at h
  | case4 => simp at h

/-- When all compiles have returned, nothing holds up the batch. -/
theorem exists_awaited {ps : List Progress} (h : ∀ p ∈ ps, ∃ result, p = .finished result) :
    ∃ r, awaited ps = some r := by
  induction ps with
  | nil => exact ⟨_, rfl⟩
  | cons p ps ih =>
    obtain ⟨⟨result, rfl⟩, hps⟩ := List.forall_mem_cons.1 h
    obtain ⟨r, hr⟩ := ih hps
    cases result with
    | error fault => exact ⟨_, rfl⟩
    | ok output => exact ⟨_, by rw [awaited, hr]; rfl⟩

/-- Going through a list by its indices is going through the list. -/
theorem flatMap_get {α β : Type} (l : List α) (f : α → List β) :
    (List.finRange l.length).flatMap (fun i => f (l.get i)) = l.flatMap f := by
  conv_rhs => rw [← List.map_get_finRange l, List.flatMap_map]

/-- **A compile that takes every step it has returns,** and then so does the batch. -/
theorem exists_given (h : ∀ i, 2 ≤ schedule.count i) :
    ∃ r, (runBatch compiler s files j schedule).given? = some r := by
  have hfinished : ∀ p ∈ List.ofFn (runBatch compiler s files j schedule).progress,
      ∃ result, p = .finished result := by
    intro p hp
    obtain ⟨i, rfl⟩ := (List.mem_ofFn' _ _).1 hp
    exact finished_of_count (h i)
  obtain ⟨r, hr⟩ := exists_awaited hfinished
  exact ⟨_, by rw [Batch.given?, hr]; rfl⟩

/-- **What the batch gives** does not depend on the order of the steps. -/
theorem given?_eq {r : Except Fault Text} (h : (runBatch compiler s files j schedule).given? = some r) :
    r = collect (files.map (s.result compiler)) := by
  obtain ⟨outputs, houtputs, rfl⟩ := Option.map_eq_some_iff.1 h
  have hfollows := (isSound_runBatch compiler s files j schedule).follows
  have hall : List.Forall₂ (fun p e => p.Follows compiler s e)
      (List.ofFn (runBatch compiler s files j schedule).progress) files := by
    rw [List.ofFn_eq_map]
    conv => arg 3; rw [← List.map_get_finRange files]
    rw [List.forall₂_map_left_iff, List.forall₂_map_right_iff]
    exact List.forall₂_same.2 fun i _ => hfollows i
  rw [collect_eq_map, awaited_eq hall houtputs]

/-- **At no time is more told than what is told of the files.** -/
theorem log_subperm (compiler : Compiler) (s : Setting) (files : List (Path × Text)) (j : Journal)
    (schedule : List (Fin files.length)) :
    (runBatch compiler s files j schedule).journal.log.Subperm (j.log ++ files.flatMap (s.told compiler)) := by
  rw [(isSound_runBatch compiler s files j schedule).log.subperm_right, ← flatMap_get files]
  refine ((List.Sublist.refl _).append (List.Sublist.flatMap_right _ fun i _ => ?_)).subperm
  cases (runBatch compiler s files j schedule).progress i with
  | finished result => exact List.Sublist.refl _
  | waiting => exact List.nil_sublist _
  | answered answer => exact List.nil_sublist _

/-- **When the batch gives a style sheet,** the journal has gained what is asked and told for all files. -/
theorem journal_of_given {css : Text} (h : (runBatch compiler s files j schedule).given? = some (.ok css)) :
    (runBatch compiler s files j schedule).journal.exchanges.Perm
        (j.exchanges ++ files.flatMap (s.asked compiler)) ∧
      (runBatch compiler s files j schedule).journal.log.Perm
        (j.log ++ files.flatMap (s.told compiler)) := by
  have hsound := isSound_runBatch compiler s files j schedule
  obtain ⟨r, hr, hok⟩ := Option.map_eq_some_iff.1 h
  cases r with
  | error fault => simp [Except.map] at hok
  | ok outputs =>
    have hfinished (i : Fin files.length) :
        ∃ output, (runBatch compiler s files j schedule).progress i = .finished (.ok output) :=
      finished_of_awaited hr _ ((List.mem_ofFn' _ _).2 ⟨i, rfl⟩)
    choose results hresults using hfinished
    have hexchanges := hsound.exchanges
    have hlog := hsound.log
    simp only [hresults, Progress.asked, Progress.told] at hexchanges hlog
    exact ⟨flatMap_get files (s.asked compiler) ▸ hexchanges, flatMap_get files (s.told compiler) ▸ hlog⟩

/-- **Style files are compiled without one in the way of another.** If every file gives its color rules, the
different ones that are not empty are kept, each at the place of the first file that gives it; else the first
fault counts, which is a path with a null character or a number with too many digits unless the compiler
fails. Every refusal is told once, and the result is the same as if the compiler had given a style sheet
without color rules. The compiles may take their steps in any order: the batch gives the same, at no time is
more told, and when it gives a style sheet, the journal holds the same entries. -/
theorem compileAll_isolates (compiler : Compiler) (s : Setting) (contents : List Text)
    (hfree : ∀ e ∈ s.files contents, ∀ e' ∈ s.files contents, ∀ a b, s.result compiler e = .ok a →
      s.result compiler e' = .ok b → a ≠ [] → b ≠ [] → NoCollision a b) :
    ((∃ outputs kept, (s.files contents).map (s.result compiler) = outputs.map .ok ∧ IsKept outputs kept ∧
        (perform (compileAll compiler s contents) .empty).1 = .ok (Text.join ['\n'] kept)) ∨
      ∃ before e after fault, s.files contents = before ++ e :: after ∧
        (∀ e' ∈ before, ∃ output, s.result compiler e' = .ok output) ∧ s.result compiler e = .error fault ∧
        (perform (compileAll compiler s contents) .empty).1 = .error fault ∧
        (Answers compiler → (∃ path, fault = .badPath path) ∨ ∃ numeral, fault = .badNumeral numeral)) ∧
    (perform (compileAll compiler s contents) .empty).2.log =
      (s.files contents).flatMap (s.told compiler) ∧
    (∀ compiler' : Compiler, (∀ r, compiler' r = compiler r ∨
        (∃ source detail, compiler r = .error (.compile source detail)) ∧
          ∃ css, compiler' r = .ok css ∧ Css.prune css = .ok []) →
      (perform (compileAll compiler' s contents) .empty).1 =
        (perform (compileAll compiler s contents) .empty).1) ∧
    ∀ schedule b, runBatch compiler s (s.files contents) .empty schedule = b →
      ((∀ i, 2 ≤ schedule.count i) → ∃ r, b.given? = some r) ∧
      (∀ r, b.given? = some r → r = (perform (compileAll compiler s contents) .empty).1) ∧
      b.journal.log.Subperm (perform (compileAll compiler s contents) .empty).2.log ∧
      ∀ css, b.given? = some (.ok css) →
        b.journal.exchanges.Perm (perform (compileAll compiler s contents) .empty).2.exchanges ∧
        b.journal.log.Perm (perform (compileAll compiler s contents) .empty).2.log := by
  generalize hfiles : s.files contents = files at hfree ⊢
  have hperform (compiler : Compiler) : perform (compileAll compiler s contents) .empty =
      (collect (files.map (s.result compiler)),
        ⟨files.flatMap (s.asked compiler), files.flatMap (s.told compiler)⟩) := by
    rw [perform_compileAll, hfiles]
    rfl
  rw [hperform]
  refine ⟨?_, rfl, fun compiler' h => ?_, ?_⟩
  · rcases collect_cases compiler s files with
      ⟨outputs, hmap, hrun⟩ | ⟨before, e, after, fault, hsplit, hbefore, herror, hrun⟩
    · have hgiven (a : Text) (ha : a ∈ outputs) : ∃ e ∈ files, s.result compiler e = .ok a :=
        List.mem_map.1 (hmap ▸ List.mem_map_of_mem ha)
      refine .inl ⟨outputs, distinct [] outputs, hmap, isKept_distinct fun a ha b hb => ?_, hrun⟩
      obtain ⟨e, he, hea⟩ := hgiven a ha
      obtain ⟨e', he', heb⟩ := hgiven b hb
      exact hfree e he e' he' a b hea heb
    · exact .inr ⟨before, e, after, fault, hsplit, hbefore, herror, hrun,
        fun hcompiler => fault_of_result hcompiler herror⟩
  · rw [hperform, List.map_congr_left fun e _ => result_eq_of_refused h]
  · rintro schedule b rfl
    exact ⟨exists_given, fun r => given?_eq, log_subperm compiler s files .empty schedule,
      fun css => journal_of_given⟩

/-- Three style files of an application. -/
def threeFiles : Setting where
  workingDir := []
  styles := [.ofText "/s/a.less".toList, .ofText "/s/b.less".toList, .ofText "/s/c.less".toList]
  imported := .ofText "/v.less".toList
  colors := .empty
  paths := []

/-- A compiler that refuses one file and gives the same rule for all others. -/
def refusesOne : Compiler := fun r =>
  if r.fileName = some "/s/b.less".toList then .error (.refused "/s/b.less".toList "no rule".toList)
  else .ok ".a\x7bcolor:red\x7d".toList

/-- The rule as it is kept. -/
def redRule : Text := ".a \x7b\n  color: red;\n\x7d\n".toList

/-- The compiler refuses the second of three files only. -/
theorem results_threeFiles : (threeFiles.files [[], [], []]).map (threeFiles.result refusesOne) =
    [redRule, [], redRule].map .ok := by
  decide +kernel

/-- The files from the last to the first, and then again from the second one on. -/
def lastFirst : List (Fin (threeFiles.files [[], [], []]).length) :=
  (List.finRange 3).reverse ++ (List.finRange 3).rotate 1

/-- The refused file is left out and logged, also where the last file is compiled first. -/
theorem compileAll_isolates_threeFiles :
    (perform (compileAll refusesOne threeFiles [[], [], []]) .empty).1 = .ok redRule ∧
    (perform (compileAll refusesOne threeFiles [[], [], []]) .empty).2.log =
      [.styleRefused "/s/b.less".toList "no rule".toList] ∧
    (runBatch refusesOne threeFiles (threeFiles.files [[], [], []]) .empty lastFirst).given? =
      some (.ok redRule) := by
  have houtput (e : Path × Text) (he : e ∈ threeFiles.files [[], [], []]) (a : Text)
      (ha : threeFiles.result refusesOne e = .ok a) (hne : a ≠ []) : a = redRule := by
    have hmem := List.mem_map_of_mem (f := threeFiles.result refusesOne) he
    rw [results_threeFiles, ha] at hmem
    simpa [hne] using hmem
  obtain ⟨hresult, hlog, -, hschedule⟩ := compileAll_isolates refusesOne threeFiles [[], [], []]
    fun e he e' he' a b ha hb hne hne' _ => by rw [houtput e he a ha hne, houtput e' he' b hb hne']
  have hkept : (perform (compileAll refusesOne threeFiles [[], [], []]) .empty).1 = .ok redRule := by
    rcases hresult with ⟨outputs, kept, hmap, hkept, hrun⟩ | ⟨before, e, after, fault, hsplit, -, herror, -⟩
    · have houtputs : outputs = [redRule, [], redRule] := by
        rw [results_threeFiles] at hmap
        exact (List.map_injective_iff.2 (fun _ _ => Except.ok.inj) hmap).symm
      have hone : kept = [redRule] := by
        refine List.perm_singleton.1
          ((List.perm_ext_iff_of_nodup hkept.nodup (List.nodup_singleton _)).2 fun t => ?_)
        rw [hkept.mem, houtputs]
        constructor
        · rintro ⟨ht, hne⟩
          simpa [hne] using ht
        · intro ht
          rw [List.mem_singleton.1 ht]
          exact ⟨by simp, by decide⟩
      rw [hrun, hone]
      rfl
    · have hmem : Except.error fault ∈ (threeFiles.files [[], [], []]).map (threeFiles.result refusesOne) :=
        herror ▸ List.mem_map_of_mem (hsplit ▸ by simp)
      rw [results_threeFiles] at hmem
      simp at hmem
  obtain ⟨hreturns, hsame, -⟩ := hschedule lastFirst _ rfl
  obtain ⟨r, hr⟩ := hreturns (by decide)
  refine ⟨hkept, hlog.trans (by decide +kernel), ?_⟩
  rw [hr, hsame r hr, hkept]

/-- A style file that imports a path with a null character. -/
def nullImport : Text := "@import \"a\x00\";\n.a\x7bcolor:red\x7d".toList

/-- One style file. -/
def oneFile : Setting := { threeFiles with styles := [.ofText "/s/a.less".toList] }

/-- **A file that cannot be made ready ends the batch,** although the compiler refuses nothing. -/
theorem not_forall_compileAll_ok : ¬ ∀ (compiler : Compiler) (s : Setting) (contents : List Text),
    Answers compiler →
    (∀ e ∈ s.files contents, ∀ e' ∈ s.files contents, ∀ a b, s.result compiler e = .ok a →
      s.result compiler e' = .ok b → a ≠ [] → b ≠ [] → NoCollision a b) →
    ∃ css, (perform (compileAll compiler s contents) .empty).1 = .ok css := by
  intro hall
  have hresults : (oneFile.files [nullImport]).map (oneFile.result fun _ => .ok []) =
      [.error (.badPath "/s/a\x00.less".toList)] := by
    decide +kernel
  have hnone (e : Path × Text) (he : e ∈ oneFile.files [nullImport]) (a : Text) :
      oneFile.result (fun _ => .ok []) e ≠ .ok a := by
    intro ha
    have hmem := List.mem_map_of_mem (f := oneFile.result fun _ => .ok []) he
    rw [hresults, ha] at hmem
    simp at hmem
  obtain ⟨css, hcss⟩ := hall (fun _ => .ok []) oneFile [nullImport] (by simp [Answers])
    fun e he _ _ a _ ha => absurd ha (hnone e he a)
  rw [perform_compileAll, hresults, collect_error rfl] at hcss
  simp at hcss

end Style
end ThemeSheet
