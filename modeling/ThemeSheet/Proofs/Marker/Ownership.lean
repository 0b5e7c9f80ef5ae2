/-
# Markers and their owners

The two tables of an assignment go together: the marker of a variable is owned by the
variable.  A color that is owned is not drawn again and the marker of the main theme
color is never drawn, so no two variables have one marker.  A variable that comes
again gets a new marker and still owns the old one; where none does, the tables are
the reverse of each other.
-/

import ThemeSheet.Proofs.Color.Supply
import ThemeSheet.Proofs.Marker.Assignment

namespace ThemeSheet
namespace MarkerAssignment

variable {m : MarkerAssignment} {name color : Text}

/-- **May the variable be given the color?** The main theme color has its marker set aside, and the
others get a color that is free. -/
def MayMark (m : MarkerAssignment) (name color : Text) : Prop :=
  if name = Variable.primary then color = primaryMarker else m.isFree color = true

/-- **Tables that go together:** every marker is owned by its variable, and the marker of the main theme
color by no other. -/
structure Owned (m : MarkerAssignment) : Prop where
  owner : ∀ {name color}, m.colors.get? name = some color → m.owners.get? color = some name
  apart : ∀ {color name}, m.owners.get? color = some name →
    color ≠ Color.black ∧ color ≠ Color.white ∧ (color = primaryMarker ↔ name = Variable.primary)

/-- Is every color that is owned the marker of its owner? -/
def IsInverse (m : MarkerAssignment) : Prop :=
  ∀ color name, m.owners.get? color = some name → m.colors.get? name = some color

/-- A color is free exactly if it is neither black, white, the primary marker nor owned. -/
theorem isFree_iff : m.isFree color = true ↔
    color ≠ Color.black ∧ color ≠ Color.white ∧ color ≠ primaryMarker ∧ m.owners.get? color = none := by
  simp [isFree, marks, Table.contains]

/-- The tables without entries go together. -/
theorem owned_empty : empty.Owned where
  owner h := by simp [empty, Table.get?, Table.empty] at h
  apart h := by simp [empty, Table.get?, Table.empty] at h

/-! ### One variable -/

/-- What may be given to a variable is no marker of another one. -/
theorem Owned.name_eq (h : m.Owned) (hc : m.MayMark name color) {name' : Text}
    (hname' : m.owners.get? color = some name') : name' = name := by
  rw [MayMark] at hc
  split at hc
  · next hname => rw [hname, (h.apart hname').2.2.1 hc]
  · rw [(isFree_iff.1 hc).2.2.2] at hname'
    simp at hname'

/-- **A variable that is given a color owns it, and no other variable loses its own.** -/
theorem Owned.assign (h : m.Owned) (hc : m.MayMark name color) : (m.assign name color).Owned where
  owner {name' color'} hcolor := by
    rw [MarkerAssignment.assign, Table.get?_insert] at hcolor ⊢
    split at hcolor
    · next he => rw [if_pos (Option.some.inj hcolor).symm, he]
    · next hne =>
      have howner := h.owner hcolor
      rw [if_neg fun he : color' = color => hne (h.name_eq hc (he ▸ howner)), howner]
  apart {color' name'} howner := by
    rw [MarkerAssignment.assign, Table.get?_insert] at howner
    split at howner
    · next he =>
      obtain rfl := Option.some.inj howner
      subst he
      rw [MayMark] at hc
      split at hc
      · next hname => exact ⟨hc ▸ by decide, hc ▸ by decide, by simp [hc, hname]⟩
      · next hname =>
        obtain ⟨hblack, hwhite, hprimary, -⟩ := isFree_iff.1 hc
        exact ⟨hblack, hwhite, by simp [hprimary, hname]⟩
    · exact h.apart howner

/-- A new variable with its color keeps every color's owner right. -/
theorem IsInverse.assign (h : m.IsInverse) (hname : name ∉ m.colors.keys) :
    (m.assign name color).IsInverse := by
  intro color' name' howner
  rw [MarkerAssignment.assign, Table.get?_insert] at howner ⊢
  split at howner
  · next he =>
    rw [if_pos (Option.some.inj howner).symm, he]
  · have hcolor := h color' name' howner
    have hmem : name' ∈ m.colors.keys :=
      List.mem_map_of_mem (f := Prod.fst) ((Table.mem_entries_iff _).2 hcolor)
    rw [if_neg fun he : name' = name => hname (he ▸ hmem), hcolor]

/-- **There is a color for a variable** as long as there are more colors than owned ones and the three
that are set aside. -/
theorem exists_extend (m : MarkerAssignment) (d : Color.Draws) (name : Text)
    (h : m.owners.keys.length + 3 < Color.total) :
    ∃ color rest, extend m d name = .ok (m.assign name color, rest) ∧ m.MayMark name color := by
  rw [extend]
  split
  · next hname => exact ⟨primaryMarker, d, rfl, by rw [MayMark, if_pos hname]⟩
  · next hname =>
    have hfree : ∀ color, color ∉ Color.black :: Color.white :: primaryMarker :: m.owners.keys →
        m.isFree color = true := by
      intro color hcolor
      simp only [List.mem_cons, not_or] at hcolor
      obtain ⟨hblack, hwhite, hprimary, howners⟩ := hcolor
      rw [← Table.contains_iff, Table.contains, Option.not_isSome_iff_eq_none] at howners
      exact isFree_iff.2 ⟨hblack, hwhite, hprimary, howners⟩
    obtain ⟨color, rest, hdraw⟩ := Color.exists_drawFree hfree (by simpa using h) d
    rw [hdraw]
    exact ⟨color, rest, rfl, by rw [MayMark, if_neg hname]; exact (Color.of_drawWithin hdraw).2⟩

/-! ### All variables of a list -/

/-- Markers are found for all names where enough colors are left, and the tables go together. -/
theorem exists_foldlM_extend {names : List Text} {d : Color.Draws} (hm : m.Owned)
    (h : m.owners.keys.length + names.length + 3 ≤ Color.total) :
    ∃ m' rest, names.foldlM (fun (p : MarkerAssignment × Color.Draws) name => extend p.1 p.2 name)
        (m, d) = .ok (m', rest) ∧ m'.Owned ∧
      (∀ name, name ∈ m'.colors.keys ↔ name ∈ m.colors.keys ∨ name ∈ names) ∧
      (m.IsInverse → (m.colors.keys ++ names).Nodup → m'.IsInverse) := by
  induction names generalizing m d with
  | nil => exact ⟨m, d, rfl, hm, by simp, fun hinv _ => hinv⟩
  | cons name names ih =>
    rw [List.length_cons] at h
    obtain ⟨color, d₁, hextend, hcolor⟩ := exists_extend m d name (by omega)
    have howners : (m.assign name color).owners.keys.length ≤ m.owners.keys.length + 1 := by
      rw [assign, Table.keys_insert]
      split <;> simp
    obtain ⟨m', rest, hfold, hm', hkeys, hinv⟩ := ih (d := d₁) (hm.assign hcolor) (by omega)
    have hassign : ∀ n, n ∈ (m.assign name color).colors.keys ↔ n = name ∨ n ∈ m.colors.keys :=
      fun _ => mem_keys_putPair
    refine ⟨m', rest, ?_, hm', fun n => ?_, fun hinverse hnodup => ?_⟩
    · rw [List.foldlM_cons]
      exact Fallible.bind_eq_ok.2 ⟨_, hextend, hfold⟩
    · rw [hkeys, hassign, List.mem_cons]
      tauto
    · have hnew : name ∉ m.colors.keys := fun hmem =>
        (List.nodup_append.1 hnodup).2.2 name hmem name (List.mem_cons_self ..) rfl
      refine hinv (hinverse.assign hnew) ?_
      rw [assign, Table.keys_insert, if_neg hnew]
      simpa using hnodup

/-- **Every variable of a list gets a marker of its own,** whatever is drawn: as long as there are enough
colors the assignment ends, it knows exactly these variables, the markers of different variables are
different, none is black or white, the marker that is set aside belongs to the main theme color alone, and
each marker leads back to its variable.  If no variable comes twice, no other color leads to one. -/
theorem ofVariables_spec {names : List Text} (h : names.length < Color.total - 3) (d : Color.Draws) :
    ∃ m rest, ofVariables names d = .ok (m, rest) ∧
      (∀ name, name ∈ m.colors.keys ↔ name ∈ names) ∧
      (∀ name name' color, m.colors.get? name = some color → m.colors.get? name' = some color →
        name = name') ∧
      (∀ name color, m.colors.get? name = some color →
        color ≠ Color.black ∧ color ≠ Color.white ∧ (color = primaryMarker ↔ name = Variable.primary) ∧
          m.owners.get? color = some name) ∧
      (names.Nodup → ∀ color name,
        m.owners.get? color = some name ↔ m.colors.get? name = some color) := by
  have hroom : empty.owners.keys.length + names.length + 3 ≤ Color.total := by
    simp [empty, Table.keys, Table.empty]
    omega
  obtain ⟨m, rest, hfold, hm, hkeys, hinv⟩ := exists_foldlM_extend (d := d) owned_empty hroom
  refine ⟨m, rest, hfold, fun name => ?_, ?_, ?_, ?_⟩
  · rw [hkeys]
    simp [empty, Table.keys, Table.empty]
  · intro name name' color hname hname'
    exact Option.some.inj ((hm.owner hname).symm.trans (hm.owner hname'))
  · intro name color hname
    obtain ⟨hblack, hwhite, hprimary⟩ := hm.apart (hm.owner hname)
    exact ⟨hblack, hwhite, hprimary, hm.owner hname⟩
  · intro hnodup color name
    have hempty : empty.IsInverse := fun _ _ h => by simp [empty, Table.get?, Table.empty] at h
    exact ⟨hinv hempty (by simpa [empty, Table.keys, Table.empty] using hnodup) color name, hm.owner⟩

/-- Three variables, and numbers that give no color but those which are set aside or taken. -/
theorem ofVariables_spec_taken :
    ["@a".toList, "@primary-color".toList, "@b".toList].length < Color.total - 3 ∧
      ∃ m rest, ofVariables ["@a".toList, "@primary-color".toList, "@b".toList]
          (.ofScript [0, 0xffffff, 0x123456, 7, 7, 0x123456]) = .ok (m, rest) ∧
        m.colors.get? "@b".toList = some "#000001".toList ∧
        m.owners.get? "#000001".toList = some "@b".toList ∧
        ∀ color name, m.owners.get? color = some name ↔ m.colors.get? name = some color := by
  have hlen : ["@a".toList, "@primary-color".toList, "@b".toList].length < Color.total - 3 := by decide
  obtain ⟨m, rest, hm, -, -, hmarker, hinverse⟩ :=
    ofVariables_spec hlen (.ofScript [0, 0xffffff, 0x123456, 7, 7, 0x123456])
  have hrun : (ofVariables ["@a".toList, "@primary-color".toList, "@b".toList]
      (.ofScript [0, 0xffffff, 0x123456, 7, 7, 0x123456])).toOption.map
        (·.1.colors.get? "@b".toList) = some (some "#000001".toList) := by
    decide +kernel
  rw [hm] at hrun
  have hb := Option.some.inj hrun
  exact ⟨hlen, m, rest, hm, hb, (hmarker _ _ hb).2.2.2, hinverse (by decide)⟩

/-- A variable that comes again gets a new marker, and the old one still leads to it. -/
example : (ofVariables ["@a".toList, "@b".toList, "@a".toList] (.ofScript [7, 8, 9])).toOption.map
    (fun p => (p.1.colors.entries, p.1.owners.entries)) =
      some ([("@a".toList, "#000009".toList), ("@b".toList, "#000008".toList)],
        [("#000007".toList, "@a".toList), ("#000008".toList, "@b".toList), ("#000009".toList, "@a".toList)]) := by
  decide +kernel

end MarkerAssignment
end ThemeSheet
