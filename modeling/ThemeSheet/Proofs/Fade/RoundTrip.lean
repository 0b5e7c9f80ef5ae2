/-
# There and back with the calls of a source

Colors go in for the longest calls first, and calls come back in the order in which
they were found.  The source comes back unless a pass finds a call that begins in the
last letters of a color whose own call was found earlier: the earlier call is then
looked for while its color is still cut off.
-/

import ThemeSheet.Proofs.Fade.Substituting

namespace ThemeSheet
namespace FadeMap

open Text Fade

/-- The place of a call in the order in which colors were given. -/
def place (f : FadeMap) (call : Text) : Nat := f.sentinels.keys.idxOf call

/-- Does the call of a later sentinel begin in the last letters of an earlier one that a pass before
has put in? -/
def Collides (f : FadeMap) (source : Text) : Prop :=
  ∃ before e after, f.longestFirst = before ++ e :: after ∧ ∃ e' ∈ before,
    f.place e'.1 < f.place e.1 ∧
      OccursInside e.1 e'.2 (before.foldl (fun t e => replaceAll e.1 e.2 t) source)

/-! ### The two orders -/

/-- The calls in order of length are the calls in another order. -/
theorem longestFirst_perm (f : FadeMap) : f.longestFirst.Perm f.sentinels.entries :=
  List.mergeSort_perm ..

/-- The places of the calls, in the order in which colors were given, count up from zero. -/
theorem map_place (f : FadeMap) :
    f.sentinels.entries.map (f.place ·.1) = List.range' 0 f.sentinels.entries.length := by
  refine List.ext_getElem (by simp) fun i hi _ => ?_
  have hi : i < f.sentinels.keys.length := by simpa [Table.keys] using hi
  calc (f.sentinels.entries.map (f.place ·.1))[i] = f.place f.sentinels.keys[i] := by simp [Table.keys]
    _ = i := f.sentinels.nodup.idxOf_getElem i hi
    _ = _ := by simp

/-- The place of a call lies below the number of calls. -/
theorem place_lt {f : FadeMap} {e : Text × Text} (he : e ∈ f.sentinels.entries) :
    f.place e.1 < f.sentinels.entries.length := by
  have := List.idxOf_lt_length_of_mem (List.mem_map_of_mem (f := Prod.fst) he)
  simpa [place, Table.keys] using this

/-- Calls at one place are the same call. -/
theorem eq_of_place_eq {f : FadeMap} {e e' : Text × Text} (he : e ∈ f.sentinels.entries)
    (he' : e' ∈ f.sentinels.entries) (h : f.place e'.1 = f.place e.1) : e' = e := by
  have hk := (List.idxOf_inj (List.mem_map_of_mem (f := Prod.fst) he')).1 h
  exact List.inj_on_of_nodup_map f.sentinels.nodup he' he hk

/-! ### There and back -/

/-- The colors of a source in which none of them occurs stand for its calls. -/
theorem Sound.standing {f : FadeMap} {source : Text} (hf : f.Sound source)
    (ho : ∀ color ∈ f.sentinels.values, occursAnyCase color source = false) :
    Standing f.longestFirst where
  call := fun e he => (hf.call e (f.longestFirst_perm.mem_iff.1 he)).1
  color := fun e he => hf.color e (f.longestFirst_perm.mem_iff.1 he)
  distinct := (f.longestFirst_perm.map Prod.snd).nodup_iff.2 hf.distinct
  absent := by
    intro e he e' he'
    obtain ⟨-, before, after, hs⟩ := hf.call e' (f.longestFirst_perm.mem_iff.1 he')
    have hcolor := ho e.2 (List.mem_map_of_mem (f := Prod.snd) (f.longestFirst_perm.mem_iff.1 he))
    by_contra hocc
    obtain ⟨front, rest, hcall, hb⟩ := occursAnyCase_iff.1 ((Bool.not_eq_false _).mp hocc)
    obtain ⟨q, r, hq, rfl⟩ := beginsAnyCase_iff.1 hb
    have : occursAnyCase e.2 source = true := occursAnyCase_iff.2
      ⟨before ++ front, q ++ (r ++ after), by rw [hs, hcall]; simp, beginsAnyCase_iff.2 ⟨q, _, hq, rfl⟩⟩
    rw [hcolor] at this
    exact Bool.noConfusion this

/-- Without discovered colors no call has a computed text, so only the sentinels give way. -/
theorem restore_empty (f : FadeMap) (css : Text) :
    f.restore css .empty =
      .ok (f.sentinels.entries.foldl (fun t e => replaceAnyCase e.2 e.1 t) css) := by
  have hnone (call : Text) : literal? .empty call = .ok none := by
    unfold literal?
    split
    · rfl
    · rfl
  have hderived : f.derived .empty = .ok .empty := by
    unfold derived
    induction f.calls with
    | nil => rfl
    | cons call calls ih =>
      rw [List.foldlM_cons, hnone]
      exact ih
  rw [restore, hderived]
  rfl

/-- **A source comes back exactly when no call collides with an earlier sentinel.** -/
theorem restore_substitute_eq_iff {d : Color.Draws} {reserved : List Text} {source : Text} {f : FadeMap}
    (h : (start d reserved).collect source = .ok f)
    (ho : ∀ color ∈ f.sentinels.values, occursAnyCase color source = false) :
    f.restore (f.substitute source) .empty = .ok source ↔ ¬ f.Collides source := by
  have hp : Standing ([] ++ f.longestFirst) := (sound_collect h).standing ho
  have hmem {e : Text × Text} (he : e ∈ f.longestFirst) : e ∈ f.sentinels.entries :=
    f.longestFirst_perm.mem_iff.1 he
  have habsent : ∀ e ∈ f.longestFirst, occursAnyCase e.2 source = false :=
    fun e he => ho e.2 (List.mem_map_of_mem (f := Prod.snd) (hmem he))
  have hc0 := colored_plain (l := []) source
  have ho0 := original_plain (l := []) source
  simp only [List.append_nil, colored, original] at hc0 ho0
  -- the source is laid out as it stands, and every pass lays it out again
  obtain ⟨l, hl, hc, horig, hd⟩ := exists_layout f.place (l := source.map .plain)
    hp (by simpa using (wellLaid_plain (l := []) source).2 trivial)
    (by rw [ho0]; exact habsent)
  rw [List.nil_append] at hl
  rw [ho0] at horig
  rw [hc0] at hc hd
  have hback := foldl_replaceAnyCase_restored (k := 0) hp f.sentinels.entries
    (fun e he => f.longestFirst_perm.mem_iff.2 he) f.map_place
    (fun e he e' he' => eq_of_place_eq (hmem he) (hmem he')) hl (by rw [horig]; exact habsent)
  rw [restored_zero, hc, Nat.zero_add] at hback
  have hiff := restored_eq_original_iff hp (fun e he => place_lt (hmem he)) hl
    (by rw [horig]; exact habsent)
  rw [restore_empty, Except.ok.injEq]
  refine (show _ ↔ restored f.place f.sentinels.entries.length l = original l by
    rw [horig, ← hback]; rfl).trans (hiff.trans (hd.trans ?_))
  constructor
  · rintro ⟨-, hall⟩ ⟨before, e, after, hsplit, e', he', hlt, hocc⟩
    have := hall before e after hsplit e' he' hocc
    omega
  · intro hfree
    refine ⟨by simpa using (descending_plain (l := []) source).2 trivial,
      fun before e after hsplit e' he' hocc => ?_⟩
    by_contra hn
    have hkeys : (f.longestFirst.map Prod.fst).Nodup :=
      (f.longestFirst_perm.map _).nodup_iff.2 f.sentinels.nodup
    have hmem' : e' ∈ f.longestFirst := hsplit ▸ List.mem_append_left _ he'
    have hne : f.place e'.1 ≠ f.place e.1 := by
      intro heq
      obtain rfl := eq_of_place_eq (hmem (by rw [hsplit]; simp)) (hmem hmem') heq
      rw [hsplit, List.map_append, List.nodup_append] at hkeys
      exact hkeys.2.2 _ (List.mem_map_of_mem he') _ (List.mem_map_of_mem (List.mem_cons_self ..)) rfl
    exact hfree ⟨before, e, after, hsplit, e', he', by omega, hocc⟩

/-- **A source comes back if no color ends with letters that begin a call.** -/
theorem restore_substitute_of_endings {d : Color.Draws} {reserved : List Text} {source : Text}
    {f : FadeMap} (h : (start d reserved).collect source = .ok f)
    (ho : ∀ color ∈ f.sentinels.values, occursAnyCase color source = false)
    (he : ∀ color ∈ f.sentinels.values, ∀ p, p <:+ color → p <+: opening → p = []) :
    f.restore (f.substitute source) .empty = .ok source := by
  have hf := sound_collect h
  rw [restore_substitute_eq_iff h ho]
  rintro ⟨before, e, after, hsplit, e', he', -, -, -, -, kept, lost, rest, -, hcolor, hlost, hcall, -⟩
  have hm : e ∈ f.sentinels.entries := f.longestFirst_perm.mem_iff.1 (by rw [hsplit]; simp)
  have hm' : e' ∈ f.sentinels.entries :=
    f.longestFirst_perm.mem_iff.1 (by rw [hsplit]; exact List.mem_append_left _ he')
  obtain ⟨more, hmore⟩ := (hf.call e hm).1.eq_cons
  obtain ⟨ds, hds, -, hdigits⟩ := Color.isSixDigit_iff.1 (hf.color e' hm').six
  refine hlost (he e'.2 (List.mem_map_of_mem (f := Prod.snd) hm') lost ⟨kept, hcolor.symm⟩ ?_)
  cases kept with
  | nil =>
    -- a call begins with no number sign
    rw [hcall, show lost = '#' :: ds from hcolor.symm.trans hds] at hmore
    exact absurd (List.cons.inj hmore).1 (by decide)
  | cons c kept =>
    rw [hcolor] at hds
    have hd : ∀ x ∈ lost, isHexDigit x = true := fun x hx => hdigits x (by
      rw [← (List.cons.inj hds).2]; exact List.mem_append_right _ hx)
    obtain ⟨u, hu, -⟩ := digits_before (c := '(') (a := ['f', 'a', 'd', 'e']) (b := more) hd (by decide)
      (hcall.symm.trans hmore)
    exact ⟨u ++ ['('], by rw [← List.append_assoc, ← hu]; rfl⟩

/-- Two calls; behind the first one stands the rest of a call that begins in the letters of its
color. -/
def collision : Text := "fade(@a, 10%)(@b, 2%) fade(@b, 2%)".toList

/-- A color that ends in `fade` stands before the arguments of another call. -/
theorem collect_collision : ∃ f, (start (.ofScript [0x00fade, 0x123456]) []).collect collision = .ok f ∧
    (∀ color ∈ f.sentinels.values, occursAnyCase color collision = false) ∧
    f.restore (f.substitute collision) .empty = .ok "#00fade(@b, 2%) fade(@b, 2%)".toList := by
  let pairs := [("fade(@a, 10%)".toList, "#00fade".toList), ("fade(@b, 2%)".toList, "#123456".toList)]
  have hrun : ((start (.ofScript [0x00fade, 0x123456]) []).collect collision).toOption.any
      (·.sentinels.entries == pairs) = true := by
    decide +kernel
  cases hc : (start (.ofScript [0x00fade, 0x123456]) []).collect collision with
  | error e =>
    rw [hc] at hrun
    simp [Except.toOption] at hrun
  | ok f =>
    have hf : f.sentinels.entries = pairs := by simpa [hc, Except.toOption] using hrun
    have hlong : f.longestFirst = pairs := by
      rw [longestFirst, hf]
      exact List.mergeSort_of_pairwise (by decide)
    refine ⟨f, rfl, ?_, ?_⟩
    · rw [Table.values, hf]
      decide +kernel
    · rw [restore_empty, hf, substitute, hlong]
      exact congrArg Except.ok (by decide +kernel)

/-- The colors of this source do collide. -/
theorem restore_substitute_eq_iff_collision :
    ∃ f, (start (.ofScript [0x00fade, 0x123456]) []).collect collision = .ok f ∧
      (∀ color ∈ f.sentinels.values, occursAnyCase color collision = false) ∧ f.Collides collision := by
  obtain ⟨f, hf, ho, hr⟩ := collect_collision
  refine ⟨f, hf, ho, ?_⟩
  by_contra hn
  have hback := (restore_substitute_eq_iff hf ho).2 hn
  rw [hr, Except.ok.injEq] at hback
  exact absurd hback (by decide)

/-- **A source need not come back,** although none of the colors occurs in it. -/
theorem not_forall_restore_substitute :
    ¬ ∀ (d : Color.Draws) (reserved : List Text) (source : Text) (f : FadeMap),
      (start d reserved).collect source = .ok f →
      (∀ color ∈ f.sentinels.values, occursAnyCase color source = false) →
        f.restore (f.substitute source) .empty = .ok source := by
  intro hall
  obtain ⟨f, hf, ho, hr⟩ := collect_collision
  have hback := hall _ _ _ f hf ho
  rw [hr, Except.ok.injEq] at hback
  exact absurd hback (by decide)

end FadeMap
end ThemeSheet
