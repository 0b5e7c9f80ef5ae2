/-
# Computations that keep a journal

What a computation leaves, step by step: a fault ends it, and what has been asked
before stays in the journal.
-/

import ThemeSheet.Less.Compiler

namespace ThemeSheet
namespace Recorded

variable {α β : Type}

/-- What a computation gives, and the journal it leaves. -/
def perform (x : Recorded α) (j : Journal) : Except Fault α × Journal := x.run.run j

/-- What asks nothing leaves the journal as it is. -/
theorem perform_lift (x : Except Fault α) (j : Journal) :
    perform (liftM (n := Recorded) x) j = (x, j) := rfl

/-- Telling adds an entry to the log. -/
theorem perform_tell (e : LogEntry) (j : Journal) :
    perform (tell e) j = (.ok (), { j with log := j.log ++ [e] }) := rfl

/-- Asking the compiler adds the exchange. -/
theorem perform_ask (compiler : Compiler) (r : CompileRequest) (j : Journal) :
    perform (ask compiler r) j =
      (.ok (compiler r), { j with exchanges := j.exchanges ++ [⟨r, compiler r⟩] }) := rfl

/-- **A computation goes on unless there was a fault.** -/
theorem perform_bind (x : Recorded α) (f : α → Recorded β) (j : Journal) :
    perform (x >>= f) j =
      match perform x j with
      | (.ok a, j') => perform (f a) j'
      | (.error fault, j') => (.error fault, j') := by
  unfold perform
  rw [ExceptT.run_bind, StateT.run_bind]
  rcases x.run.run j with ⟨_ | _, _⟩ <;> rfl

variable {x : Recorded α} {f : α → Recorded β} {e : Exchange} {fault : Fault}

/-- A value that is there is handed on. -/
theorem perform_lift_bind {y : Except Fault α} {a : α} (h : y = .ok a) (f : α → Recorded β)
    (j : Journal) : perform (liftM (n := Recorded) y >>= f) j = perform (f a) j := by
  rw [perform_bind, perform_lift, h]

/-- What is only made of a result leaves the journal alone. -/
theorem perform_lift_pure (y : Except Fault α) (g : α → β) (j : Journal) :
    perform (liftM (n := Recorded) y >>= fun a => pure (g a)) j = (y >>= fun a => pure (g a), j) := by
  cases y <;> rfl

/-- **A computation gives a result** when each of its parts does. -/
theorem perform_bind_eq_ok {j j' : Journal} {b : β} :
    perform (x >>= f) j = (.ok b, j') ↔
      ∃ a j₁, perform x j = (.ok a, j₁) ∧ perform (f a) j₁ = (.ok b, j') := by
  rw [perform_bind]
  rcases perform x j with ⟨fault | a, j₁⟩
  · simp
  · exact ⟨fun h => ⟨a, j₁, rfl, h⟩, fun ⟨_, _, ha, h⟩ => by cases ha; exact h⟩

/-- What asks nothing gives its value and the journal it was given. -/
theorem perform_lift_eq_ok {y : Except Fault α} {a : α} {j j' : Journal} :
    perform (liftM (n := Recorded) y) j = (.ok a, j') ↔ y = .ok a ∧ j = j' := by
  rw [perform_lift, Prod.mk.injEq]

/-- Lifting goes through a computation step by step. -/
theorem lift_bind (y : Except Fault α) (g : α → Except Fault β) :
    liftM (n := Recorded) (y >>= g) =
      liftM (n := Recorded) y >>= fun a => liftM (n := Recorded) (g a) := by
  cases y <;> rfl

/-- Lifting a value gives the value. -/
theorem lift_pure (a : α) : liftM (n := Recorded) (pure a : Except Fault α) = pure a := rfl

/-- **Computations that give a result whatever the journal holds** are performed one after another. -/
theorem perform_mapM {g : β → Recorded α} {result : β → α} {asked : β → List Exchange}
    {told : β → List LogEntry}
    (h : ∀ b j, perform (g b) j = (.ok (result b), ⟨j.exchanges ++ asked b, j.log ++ told b⟩)) (l : List β)
    (j : Journal) : perform (l.mapM g) j =
      (.ok (l.map result), ⟨j.exchanges ++ l.flatMap asked, j.log ++ l.flatMap told⟩) := by
  induction l generalizing j with
  | nil =>
    rw [List.flatMap_nil, List.flatMap_nil, List.append_nil, List.append_nil]
    rfl
  | cons b l ih =>
    rw [List.mapM_cons, perform_bind, h]
    dsimp only
    rw [perform_bind, ih, List.flatMap_cons, List.flatMap_cons, ← List.append_assoc, ← List.append_assoc]
    rfl

/-! ### What has been asked stays in the journal -/

/-- **Nothing that has been asked is forgotten.** -/
def Grows (x : Recorded α) : Prop := ∀ j, ∃ more, (perform x j).2.exchanges = j.exchanges ++ more

/-- A value forgets nothing. -/
theorem grows_pure (a : α) : Grows (pure a) := fun _ => ⟨[], (List.append_nil _).symm⟩

/-- A fault forgets nothing. -/
theorem grows_throw (fault : Fault) : Grows (throw fault : Recorded α) :=
  fun _ => ⟨[], (List.append_nil _).symm⟩

/-- What asks nothing forgets nothing. -/
theorem grows_lift (y : Except Fault α) : Grows (liftM (n := Recorded) y) :=
  fun _ => ⟨[], (List.append_nil _).symm⟩

/-- Telling forgets nothing. -/
theorem grows_tell (entry : LogEntry) : Grows (tell entry) := fun _ => ⟨[], (List.append_nil _).symm⟩

/-- Asking forgets nothing. -/
theorem grows_ask (compiler : Compiler) (r : CompileRequest) : Grows (ask compiler r) :=
  fun _ => ⟨_, rfl⟩

/-- Steps that forget nothing forget nothing together. -/
theorem Grows.bind (hx : Grows x) (hf : ∀ a, Grows (f a)) : Grows (x >>= f) := by
  intro j
  obtain ⟨more, hmore⟩ := hx j
  rw [perform_bind]
  rcases hp : perform x j with ⟨fault | a, j'⟩ <;> rw [hp] at hmore
  · exact ⟨more, hmore⟩
  · obtain ⟨others, hothers⟩ := hf a j'
    refine ⟨more ++ others, ?_⟩
    dsimp only
    rw [hothers, hmore, List.append_assoc]

/-- A step that forgets nothing forgets nothing over a list. -/
theorem grows_mapM {g : β → Recorded α} (hg : ∀ b, Grows (g b)) (l : List β) : Grows (l.mapM g) := by
  induction l with
  | nil => exact grows_pure _
  | cons b l ih =>
    rw [List.mapM_cons]
    exact (hg b).bind fun _ => ih.bind fun _ => grows_pure _

/-! ### The first question -/

/-- **The exchange comes first** of those that the computation adds. -/
def AsksFirst (x : Recorded α) (e : Exchange) : Prop :=
  ∀ j, ∃ more, (perform x j).2.exchanges = j.exchanges ++ e :: more

/-- Asking comes first in itself. -/
theorem asksFirst_ask (compiler : Compiler) (r : CompileRequest) :
    AsksFirst (ask compiler r) ⟨r, compiler r⟩ :=
  fun _ => ⟨[], rfl⟩

/-- What a computation asks first comes first, whatever follows. -/
theorem AsksFirst.bind (hx : AsksFirst x e) (hf : ∀ a, Grows (f a)) : AsksFirst (x >>= f) e := by
  intro j
  obtain ⟨more, hmore⟩ := hx j
  rw [perform_bind]
  rcases hp : perform x j with ⟨fault | a, j'⟩ <;> rw [hp] at hmore
  · exact ⟨more, hmore⟩
  · obtain ⟨others, hothers⟩ := hf a j'
    refine ⟨more ++ others, ?_⟩
    dsimp only
    rw [hothers, hmore, List.append_assoc, List.cons_append]

/-- A value that is there comes before the first exchange and asks nothing. -/
theorem AsksFirst.lift_bind {y : Except Fault α} {a : α} (h : y = .ok a) (hf : AsksFirst (f a) e) :
    AsksFirst (liftM (n := Recorded) y >>= f) e :=
  fun j => by rw [perform_lift_bind h]; exact hf j

/-- An entry of the log comes before the first exchange and asks nothing. -/
theorem AsksFirst.tell_bind {entry : LogEntry} {f : Unit → Recorded β} (hf : AsksFirst (f ()) e) :
    AsksFirst (tell entry >>= f) e := by
  intro j
  rw [perform_bind, perform_tell]
  exact hf _

/-! ### A fault before the first question -/

/-- **The computation ends with the fault** before it asks anything. -/
def Stops (x : Recorded α) (fault : Fault) : Prop :=
  ∀ j, (perform x j).1 = .error fault ∧ (perform x j).2.exchanges = j.exchanges

/-- A fault ends what asks nothing. -/
theorem stops_lift {y : Except Fault α} (h : y = .error fault) :
    Stops (liftM (n := Recorded) y) fault :=
  fun _ => ⟨h, rfl⟩

/-- A computation that has ended does not go on. -/
theorem Stops.bind (hx : Stops x fault) : Stops (x >>= f) fault := by
  intro j
  obtain ⟨hfault, hj⟩ := hx j
  rw [perform_bind]
  rcases hp : perform x j with ⟨fault | a, j'⟩ <;> rw [hp] at hfault hj
  · exact ⟨congrArg Except.error (Except.error.inj hfault), hj⟩
  · simp at hfault

/-- A value that is there does not keep a computation from ending. -/
theorem Stops.lift_bind {y : Except Fault α} {a : α} (h : y = .ok a) (hf : Stops (f a) fault) :
    Stops (liftM (n := Recorded) y >>= f) fault :=
  fun j => by rw [perform_lift_bind h]; exact hf j

/-- An entry of the log does not keep a computation from ending. -/
theorem Stops.tell_bind {entry : LogEntry} {f : Unit → Recorded β} (hf : Stops (f ()) fault) :
    Stops (tell entry >>= f) fault := by
  intro j
  rw [perform_bind, perform_tell]
  exact hf _

end Recorded
end ThemeSheet
