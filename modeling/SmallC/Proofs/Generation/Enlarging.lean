import SmallC.Proofs.Allocation.Growing
import SmallC.Proofs.Generation.Laying

/-!
Memory that generation uses only grows: what it calls of the allocator hands out words and takes none back. Room at the
end of a piece of generation is room all the way.
-/
namespace SmallC

open Alloc Allocator

namespace Gen

variable {α β : Type} {c : Context}

/-- Generation in the course of which memory only grows. -/
def Enlarges (c : Context) (act : Gen α) : Prop :=
  ∀ p x p', act.exec c p = .ok (x, p') → Grows p.allocator p'.allocator

namespace Enlarges

variable {act other : Gen α}

theorem pure (x : α) : Enlarges c (Pure.pure x : Gen α) := by
  intro p y p' ran
  cases ran
  exact .refl _

theorem bind {f : α → Gen β} (first : Enlarges c act) (rest : ∀ x, Enlarges c (f x)) : Enlarges c (act >>= f) := by
  intro p y p' ran
  obtain ⟨x, mid, ran, ran'⟩ := exec_bind_ok ran
  exact (first p x mid ran).trans (rest x mid y p' ran')

theorem ite {q : Prop} [Decidable q] (yes : Enlarges c act) (no : Enlarges c other) :
    Enlarges c (if q then act else other) := by
  split
  · exact yes
  · exact no

theorem alloc {act : Alloc α} (growing : Growing act) : Enlarges c (Gen.alloc act) := by
  intro p x p' ran
  obtain ⟨w, did, rfl⟩ := exec_alloc ran
  exact growing _ _ _ did

theorem draft (f : Draft → Draft) : Enlarges c (Gen.draft f) := by
  intro p x p' ran
  cases ran
  exact .refl _

theorem forM {f : α → Gen PUnit} (each : ∀ x, Enlarges c (f x)) (xs : List α) : Enlarges c (xs.forM f) := by
  induction xs with
  | nil => exact .pure _
  | cons x xs ih =>
    rw [List.forM_eq_forM, List.forM_cons]
    exact .bind (each x) fun _ => ih

theorem mapM {f : α → Gen β} (each : ∀ x, Enlarges c (f x)) (xs : List α) : Enlarges c (xs.mapM f) := by
  induction xs with
  | nil =>
    rw [List.mapM_nil]
    exact .pure _
  | cons x xs ih =>
    rw [List.mapM_cons]
    exact .bind (each x) fun _ => .bind ih fun _ => .pure _

end Enlarges

theorem enlarges_fetch (name : String) : Enlarges c (fetch name) := .alloc growing_getRegister

theorem enlarges_free (name : String) : Enlarges c (free name) := .alloc growing_removeIfTemp

theorem enlarges_emit (i : MachineInstr) : Enlarges c (Gen.emit i) := .draft _

theorem enlarges_emitAll (code : List MachineInstr) : Enlarges c (emitAll code) := .draft _

theorem enlarges_releaseHolds : Enlarges c releaseHolds := .alloc growing_releaseHolds

theorem enlarges_newTemp (kind : NumberKind) (refs : Nat) : Enlarges c (newTemp kind refs) :=
  .alloc (.bind growing_addTemp fun _ => .bind growing_getRegister fun _ =>
    .bind (.bind growing_resolve fun _ => growing_update) fun _ =>
      .bind (.bind growing_resolve fun _ => growing_update) fun _ => .pure _)

theorem enlarges_compute (kind : NumberKind) (refs : Nat) (f : Reg → List MachineInstr) : Enlarges c (do
    let (temp, rd) ← newTemp kind refs
    emitAll (f rd)
    releaseHolds
    return temp) :=
  .bind (enlarges_newTemp kind refs) fun _ => .bind (enlarges_emitAll _) fun _ => .bind enlarges_releaseHolds fun _ =>
    .pure _

theorem enlarges_binary (l r : String) (kind : NumberKind) (refs : Nat) (f : Reg → Reg → Reg → List MachineInstr) :
    Enlarges c (do
      let a ← fetch l
      let b ← fetch r
      free l
      free r
      let (temp, rd) ← newTemp kind refs
      emitAll (f rd a b)
      releaseHolds
      return temp) :=
  .bind (enlarges_fetch l) fun a => .bind (enlarges_fetch r) fun b => .bind (enlarges_free l) fun _ =>
    .bind (enlarges_free r) fun _ => enlarges_compute kind refs fun rd => f rd a b

theorem enlarges_shifted (direction : ShiftDirection) (name : String) (amount : Nat) (kind : NumberKind) (refs : Nat) :
    Enlarges c (shifted direction name amount kind refs) :=
  .bind (enlarges_fetch name) fun _ => .bind (enlarges_free name) fun _ => .bind (enlarges_newTemp kind refs) fun _ =>
    .bind (enlarges_emit _) fun _ => .bind enlarges_releaseHolds fun _ => .pure _

end Gen

end SmallC
