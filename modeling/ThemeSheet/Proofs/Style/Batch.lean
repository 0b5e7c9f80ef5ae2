/-
# Style files compiled together

A style file gives its color rules, nothing if the compiler refuses it, or a fault.
What it gives depends on the file and the compiler alone, and so does what is asked
and told for it.  Of the color rules of all files the different ones that are not
empty are kept, each at the place of the first file that gives it; a refusal is told
once and changes nothing else.
-/

import ThemeSheet.Proofs.Theme.Digest

namespace ThemeSheet
namespace Style

open Recorded Theme

/-! ### One file -/

namespace Setting

variable (compiler : Compiler) (s : Setting) (e : Path × Text)

/-- The style files with their contents. -/
def files (s : Setting) (contents : List Text) : List (Path × Text) := s.styles.zip contents

/-- What a style file gives: its color rules, nothing if it is refused, or a fault. -/
def result : Except Fault Text :=
  match s.request e.1 e.2 with
  | .error fault => .error fault
  | .ok request =>
    match compiler request with
    | .ok css => Css.prune css
    | .error (.compile _ _) => .ok []
    | .error fault => .error fault

/-- What the compiler is asked for a style file. -/
def asked : List Exchange :=
  match s.request e.1 e.2 with
  | .error _ => []
  | .ok request => [⟨request, compiler request⟩]

/-- What is told of a style file: the path and the reason if it is refused. -/
def told : List LogEntry :=
  match s.request e.1 e.2 with
  | .error _ => []
  | .ok request =>
    match compiler request with
    | .error (.compile _ detail) => [.styleRefused e.1.written detail]
    | _ => []

end Setting

variable {compiler : Compiler} {s : Setting} {e : Path × Text}

/-- **The journal gains what is asked and told for the file.** -/
theorem perform_compileOne (j : Journal) : perform (compileOne compiler s e.1 e.2) j =
    (.ok (s.result compiler e), ⟨j.exchanges ++ s.asked compiler e, j.log ++ s.told compiler e⟩) := by
  unfold compileOne Setting.result Setting.asked Setting.told
  cases s.request e.1 e.2 with
  | error fault => simp only [List.append_nil]; rfl
  | ok request =>
    dsimp only
    rw [perform_bind, perform_ask]
    dsimp only
    split
    · next css h => simp only [h, List.append_nil]; rfl
    · next source detail h => simp only [h]; rfl
    · next fault hcompile h =>
      rw [h]
      cases fault <;> first | exact absurd rfl (hcompile _ _) | (simp only [List.append_nil]; rfl)

/-! ### All files -/

/-- What is kept of that which the files give; the first fault among it counts. -/
def collect (results : List (Except Fault Text)) : Except Fault Text := do
  let compiled ← results.mapM id
  pure (Text.join ['\n'] (distinct [] compiled))

/-- A batch fails with its first refusal, and is the different outputs in lines otherwise. -/
theorem collect_eq_map (results : List (Except Fault Text)) :
    collect results = (results.mapM id).map fun compiled => Text.join ['\n'] (distinct [] compiled) := by
  rw [collect]
  cases results.mapM id <;> rfl

/-- **Compiling the files one after another** gives what is kept of their results. -/
theorem perform_compileAll (contents : List Text) (j : Journal) :
    perform (compileAll compiler s contents) j =
      (collect ((s.files contents).map (s.result compiler)),
        ⟨j.exchanges ++ (s.files contents).flatMap (s.asked compiler),
          j.log ++ (s.files contents).flatMap (s.told compiler)⟩) := by
  unfold compileAll
  rw [perform_bind, perform_mapM (fun e j => perform_compileOne j)]
  exact perform_lift_pure ..

/-! ### What is kept -/

/-- **Of the outputs the different ones that are not empty,** in the order in which they come first. -/
structure IsKept (outputs kept : List Text) : Prop where
  mem : ∀ t, t ∈ kept ↔ t ∈ outputs ∧ t ≠ []
  nodup : kept.Nodup
  order : kept.Pairwise fun a b => outputs.idxOf a < outputs.idxOf b

/-- Texts whose digests do not collide are told apart by them. -/
theorem digest_inj {a b : Text} (h : NoCollision a b) (hd : digest a = digest b) : a = b :=
  Utf8.encode_injective (h hd)

/-- One more output in front moves the others up by one place. -/
theorem idxOf_lt_cons {t : Text} {outputs kept : List Text} (ht : t ∉ kept)
    (h : kept.Pairwise fun a b => outputs.idxOf a < outputs.idxOf b) :
    kept.Pairwise fun a b => (t :: outputs).idxOf a < (t :: outputs).idxOf b := by
  have hne {a : Text} (ha : a ∈ kept) : t ≠ a := fun he => ht (he ▸ ha)
  refine h.imp_of_mem fun ha hb hab => ?_
  rw [List.idxOf_cons_ne _ (hne ha), List.idxOf_cons_ne _ (hne hb)]
  exact Nat.succ_lt_succ hab

/-- **Behind texts that came before,** the different ones that are not empty and have not come are kept,
in the order in which they come. -/
theorem distinct_spec {earlier outputs : List Text} (hearlier : ∀ b ∈ earlier, b ≠ [])
    (h : ∀ a ∈ outputs, ∀ b ∈ earlier ++ outputs, a ≠ [] → b ≠ [] → digest a = digest b → a = b) :
    (∀ t, t ∈ distinct (earlier.map digest) outputs ↔ t ∈ outputs ∧ t ≠ [] ∧ t ∉ earlier) ∧
      (distinct (earlier.map digest) outputs).Pairwise fun a b => outputs.idxOf a < outputs.idxOf b := by
  induction outputs generalizing earlier with
  | nil => simp [distinct]
  | cons t outputs ih =>
    have hdrops : (t.isEmpty || (earlier.map digest).contains (digest t)) = true ↔ t = [] ∨ t ∈ earlier := by
      rw [Bool.or_eq_true, List.isEmpty_iff, List.contains_iff_mem, List.mem_map]
      refine or_congr_right' fun ht => ⟨?_, fun hold => ⟨t, hold, rfl⟩⟩
      rintro ⟨u, hu, hd⟩
      rwa [h t (List.mem_cons_self ..) u (List.mem_append_left _ hu) ht (hearlier u hu) hd.symm]
    rw [distinct]
    split
    · next hdrop =>
      rw [hdrops] at hdrop
      obtain ⟨hmem, horder⟩ := ih hearlier fun a ha b hb =>
        h a (List.mem_cons_of_mem _ ha) b (by simp at hb ⊢; tauto)
      refine ⟨fun u => ?_, idxOf_lt_cons (fun ht => ?_) horder⟩
      · rw [hmem, List.mem_cons]
        refine ⟨fun hu => ⟨.inr hu.1, hu.2⟩, fun hu => ⟨hu.1.resolve_left ?_, hu.2⟩⟩
        rintro rfl
        exact hdrop.elim hu.2.1 hu.2.2
      · obtain ⟨-, hne, hnew⟩ := (hmem t).1 ht
        exact hdrop.elim hne hnew
    · next hkeep =>
      rw [hdrops, not_or] at hkeep
      obtain ⟨hmem, horder⟩ := ih (List.forall_mem_cons.2 ⟨hkeep.1, hearlier⟩) fun a ha b hb =>
        h a (List.mem_cons_of_mem _ ha) b (by simp at hb ⊢; tauto)
      rw [List.map_cons] at hmem horder
      have ht : t ∉ distinct (digest t :: earlier.map digest) outputs := fun ht =>
        ((hmem t).1 ht).2.2 (List.mem_cons_self ..)
      refine ⟨fun u => ?_, List.pairwise_cons.2 ⟨fun u hu => ?_, idxOf_lt_cons ht horder⟩⟩
      · rw [List.mem_cons, hmem, List.mem_cons, List.mem_cons, not_or]
        constructor
        · rintro (rfl | ⟨hu, hne, hold⟩)
          · exact ⟨.inl rfl, hkeep⟩
          · exact ⟨.inr hu, hne, hold.2⟩
        · rintro ⟨hu, hne, hold⟩
          by_cases he : u = t
          · exact .inl he
          · exact .inr ⟨hu.resolve_left he, hne, he, hold⟩
      · rw [List.idxOf_cons_self, List.idxOf_cons_ne _ fun he : t = u => ht (he ▸ hu)]
        exact Nat.succ_pos _

/-- **What is kept of the outputs** if no digests collide. -/
theorem isKept_distinct {outputs : List Text}
    (h : ∀ a ∈ outputs, ∀ b ∈ outputs, a ≠ [] → b ≠ [] → NoCollision a b) :
    IsKept outputs (distinct [] outputs) := by
  obtain ⟨hmem, horder⟩ := distinct_spec (List.forall_mem_nil _) fun a ha b hb hne hne' =>
    digest_inj (h a ha b hb hne hne')
  refine ⟨by simpa using hmem, horder.imp ?_, horder⟩
  rintro a _ hab rfl
  exact Nat.lt_irrefl _ hab

/-! ### Refusals and faults -/

/-- Without a refusal a batch is the different outputs in lines. -/
theorem collect_ok (outputs : List Text) :
    collect (outputs.map .ok) = .ok (Text.join ['\n'] (distinct [] outputs)) := by
  have hall : (outputs.map Except.ok : List (Except Fault Text)).mapM id = .ok outputs := by
    rw [Fallible.mapM_eq_ok, List.forall₂_map_left_iff]
    exact List.forall₂_same.2 fun _ _ => rfl
  rw [collect, hall]
  rfl

/-- **The first fault counts.** -/
theorem collect_error {results : List (Except Fault Text)} {fault : Fault}
    (h : results.findSome? Fallible.fault? = some fault) : collect results = .error fault := by
  have hall : results.mapM id = .error fault :=
    Fallible.fault?_eq_some.1 ((Fallible.fault?_mapM id results).trans h)
  rw [collect, hall]
  rfl

/-- **Every file gives its color rules, or one is the first at fault.** -/
theorem collect_cases (compiler : Compiler) (s : Setting) (files : List (Path × Text)) :
    (∃ outputs, files.map (s.result compiler) = outputs.map .ok ∧
      collect (files.map (s.result compiler)) = .ok (Text.join ['\n'] (distinct [] outputs))) ∨
    ∃ before e after fault, files = before ++ e :: after ∧
      (∀ e' ∈ before, ∃ output, s.result compiler e' = .ok output) ∧ s.result compiler e = .error fault ∧
      collect (files.map (s.result compiler)) = .error fault := by
  cases hfault : files.findSome? fun e => Fallible.fault? (s.result compiler e) with
  | none =>
    rw [← Fallible.fault?_mapM, Fallible.fault?_eq_none] at hfault
    obtain ⟨outputs, houtputs⟩ := hfault
    have hmap : files.map (s.result compiler) = outputs.map .ok := by
      rw [← List.forall₂_eq_eq_eq, List.forall₂_map_left_iff, List.forall₂_map_right_iff]
      exact Fallible.mapM_eq_ok.1 houtputs
    exact .inl ⟨outputs, hmap, by rw [hmap, collect_ok]⟩
  | some fault =>
    obtain ⟨before, e, after, hsplit, herror, hbefore⟩ := List.findSome?_eq_some_iff.1 hfault
    refine .inr ⟨before, e, after, fault, hsplit, fun e' he' => Fallible.fault?_eq_none.1 (hbefore e' he'),
      Fallible.fault?_eq_some.1 herror, collect_error ?_⟩
    rw [List.findSome?_map]
    exact hfault

/-- **A refusal is worth as much as a style sheet without color rules.** -/
theorem result_eq_of_refused {compiler' : Compiler}
    (h : ∀ r, compiler' r = compiler r ∨ (∃ source detail, compiler r = .error (.compile source detail)) ∧
      ∃ css, compiler' r = .ok css ∧ Css.prune css = .ok []) :
    s.result compiler' e = s.result compiler e := by
  unfold Setting.result
  cases s.request e.1 e.2 with
  | error fault => rfl
  | ok request =>
    dsimp only
    rcases h request with hsame | ⟨⟨source, detail, hrefused⟩, css, hcss, hnone⟩
    · rw [hsame]
    · rw [hrefused, hcss]
      exact hnone

/-! ### What may be at fault -/

/-- A fault that ends a replacement is that of some match. -/
theorem exists_of_replaceFallibly_eq_error {m : Text → Option (Except Fault Text × Text)} {t : Text}
    {fault : Fault} (h : Text.replaceFallibly m t = .error fault) :
    ∃ u rest, m u = some (.error fault, rest) := by
  fun_induction Text.replaceFallibly m t with
  | case1 => simp at h
  | case2 c t new rest hm hlen ih =>
    rcases Fallible.bind_eq_error.1 h with rfl | ⟨_, _, h⟩
    · exact ⟨_, rest, hm⟩
    · refine ih ((Fallible.bind_eq_error.1 h).resolve_right ?_)
      rintro ⟨_, _, h⟩
      simp [pure, Except.pure] at h
  | case3 c t new rest hm hlen ih => exact ih (Fallible.map_eq_error.1 h)
  | case4 c t hm ih => exact ih (Fallible.map_eq_error.1 h)

/-- A path that cannot be resolved is refused as a bad path. -/
theorem badPath_of_resolve {workingDir : List Text} {path : Path} {fault : Fault}
    (h : path.resolve workingDir = .error fault) : ∃ written, fault = .badPath written := by
  have hchecked := Fallible.map_eq_error.1 h
  unfold Path.checked at hchecked
  split at hchecked
  · exact ⟨_, (Except.error.inj hchecked).symm⟩
  · simp at hchecked

/-- **A file cannot be made ready only if a path holds the null character:** that of a style file, or that
of an import. -/
theorem badPath_of_request {fault : Fault} (h : s.request e.1 e.2 = .error fault) :
    ∃ written, fault = .badPath written := by
  rcases Fallible.bind_eq_error.1 h with h | ⟨_, _, h⟩
  · rcases Fallible.bind_eq_error.1 h with h | ⟨_, _, h⟩
    · rcases Fallible.bind_eq_error.1 h with h | ⟨known, -, h⟩
      · have hfirst := Fallible.fault?_eq_some.2 h
        rw [Fallible.fault?_mapM, List.findSome?_eq_some_iff] at hfirst
        obtain ⟨_, path, _, -, hpath, -⟩ := hfirst
        exact badPath_of_resolve (Fallible.fault?_eq_some.1 hpath)
      · obtain ⟨u, rest, hmatch⟩ := exists_of_replaceFallibly_eq_error h
        obtain ⟨⟨path, after⟩, -, hmatch⟩ := Option.map_eq_some_iff.1 hmatch
        exact badPath_of_resolve (Fallible.map_eq_error.1 (Prod.mk.inj hmatch).1)
    · simp [pure, Except.pure] at h
  · simp [pure, Except.pure] at h

/-- **A style sheet cannot be pruned only if it holds a whole number with too many digits.** -/
theorem badNumeral_of_prune {css : Text} {fault : Fault} (h : Css.prune css = .error fault) :
    ∃ numeral, fault = .badNumeral numeral := by
  unfold Css.prune at h
  split at h
  · exact ⟨_, (Except.error.inj h).symm⟩
  · simp at h

/-- **A compiler that gives a style sheet or refuses the source.** -/
def Answers (compiler : Compiler) : Prop :=
  ∀ r fault, compiler r = .error fault → ∃ source detail, fault = .compile source detail

/-- **What may be at fault with a file.** -/
theorem fault_of_result (hcompiler : Answers compiler) {fault : Fault}
    (h : s.result compiler e = .error fault) :
    (∃ written, fault = .badPath written) ∨ ∃ numeral, fault = .badNumeral numeral := by
  unfold Setting.result at h
  split at h
  · next fault' hrequest => exact .inl (Except.error.inj h ▸ badPath_of_request hrequest)
  · next request hrequest =>
    split at h
    · exact .inr (badNumeral_of_prune h)
    · simp at h
    · next fault' hrefused hanswer =>
      obtain ⟨source, detail, rfl⟩ := hcompiler request fault' hanswer
      exact absurd rfl (hrefused source detail)

end Style
end ThemeSheet
