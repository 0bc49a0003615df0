import SmallC.Proofs.Allocation.InUse

/-!
Who waits for a call. A variable waits in a save area only while a call is pending that brings it back: preparing for
a call puts it there, the end of the call takes it out again, and no other operation lets anything wait.
-/
namespace SmallC

open Alloc

namespace Allocator

variable {a a' : Allocator} {w w' : Work} {K : VarId → Prop} {T : Reg → Prop} {code : List MachineInstr} {id : VarId}
  {v : Variable}

/-- Whether a pending call brings a variable back. -/
def Awaited (a : Allocator) (id : VarId) : Prop := ∃ save ∈ a.calls, id ∈ save.saved.map Prod.fst

/-- What waits is brought back by a pending call. -/
def Expected (a : Allocator) : Prop :=
  ∀ id v slot, a.var? id = some v → v.storage = .saved slot → a.Awaited id

/-- Of two states, the later has nobody waiting who did not wait in the earlier. -/
def Hastens (a a' : Allocator) : Prop :=
  ∀ id v slot, a'.var? id = some v → v.storage = .saved slot → ∃ u, a.var? id = some u ∧ u.storage = .saved slot

/-- Without a pending call nobody waits. -/
theorem Expected.idle (expected : Expected a) (idle : a.calls = []) {slot : Nat} (found : a.var? id = some v) :
    v.storage ≠ .saved slot := by
  intro waits
  obtain ⟨save, member, -⟩ := expected id v slot found waits
  rw [idle] at member
  cases member

theorem Expected.hastens (expected : Expected a) (hastens : Hastens a a') (calls : a'.calls = a.calls) :
    Expected a' := by
  intro id v slot found waits
  obtain ⟨u, known, was⟩ := hastens id v slot found waits
  obtain ⟨save, member, listed⟩ := expected id u slot known was
  exact ⟨save, calls ▸ member, listed⟩

/-- Where nobody waits and nobody comes to wait, nobody is to be expected. -/
theorem Expected.of_idle (expected : Expected a) (idle : a.calls = []) (hastens : Hastens a a') : Expected a' := by
  intro id v slot found waits
  obtain ⟨u, known, was⟩ := hastens id v slot found waits
  exact absurd was (expected.idle idle known)

theorem Hastens.of_one {other : VarId} {old : Option Variable} (was : a.var? other = old) (new : Option Variable)
    (vars : ∀ id, a'.var? id = if id = other then new else a.var? id)
    (waits : ∀ {u slot}, new = some u → u.storage = .saved slot → ∃ u', old = some u' ∧ u'.storage = .saved slot) :
    Hastens a a' := by
  intro id v slot found there
  rw [vars] at found
  split at found
  · next same =>
    subst same
    rw [was]
    exact waits found there
  · exact ⟨v, found, there⟩

theorem Deed.hastens (deed : Deed K T a a' code) (tidy : Tidy a) : Hastens a a' := by
  cases deed with
  | aside onward vars =>
    intro id v slot found waits
    exact ⟨v, (vars id).symm.trans found, waits⟩
  | @add v onward vars placing =>
    have absent : a.var? a.vars.size = none := by simp [var?]
    refine Hastens.of_one absent (some v) vars fun same waits => ?_
    cases same
    exact placing.waits waits
  | drop id onward vars =>
    exact .of_one rfl none vars fun gone => by cases gone
  | @shift id v v' _ onward found vars shift =>
    refine Hastens.of_one found (some v') vars fun same waits => ?_
    cases same
    exact (shift.placing (tidy.memory found)).waits waits
  | @rewrite id v v' onward found written vars array placing
  | @overwrite id v v' r home address onward found written vars has known array placing =>
    refine Hastens.of_one found (some v') vars fun same waits => ?_
    cases same
    exact placing.waits waits

theorem Deeds.hastens (deeds : Deeds K T a a' code) (tidy : Tidy a) (narrow : ∀ r, T r → r.Carries) :
    Hastens a a' := by
  induction deeds with
  | refl =>
    intro id v slot found waits
    exact ⟨v, found, waits⟩
  | snoc first last ih =>
    intro id v slot found waits
    obtain ⟨u, known, was⟩ := last.hastens (first.tidy tidy narrow) id v slot found waits
    exact ih id u slot known was

/-! ### Calls and bodies -/

theorem saveForCall_expected (sound : Sound [] w.allocator) (idle : w.allocator.calls = [])
    (expected : Expected w.allocator) (ran : Ran saveForCall w () w') : Expected w'.allocator := by
  obtain ⟨temps, left, empties, saves⟩ := saves sound ran
  intro id v slot found waits
  by_cases parked : id ∈ temps.map Prod.fst
  · rw [← slotted_fst left.allocator.saveSlot] at parked
    rw [Awaited, saves.rest]
    exact ⟨_, List.mem_cons_self, parked⟩
  · have known := (saves.others id parked).symm.trans found
    obtain ⟨-, absent⟩ | ⟨u, u', before, after, gone⟩ := empties.vars id
    · cases known.symm.trans absent
    · cases known.symm.trans after
      obtain rfl | ⟨-, memory, -, rfl⟩ := gone
      · exact absurd waits (expected.idle idle before)
      · exact absurd (parted_waits waits) (expected.idle idle before)

theorem restoreAfterCall_expected (order : InOrder w.allocator) (expected : Expected w.allocator)
    (ran : Ran restoreAfterCall w () w') : Expected w'.allocator := by
  obtain ⟨save, calls, -, pending, -⟩ := ran_restoreAfterCall ran
  obtain idle | ⟨save', one, waits⟩ := order.pending
  · cases pending.symm.trans idle
  · cases pending.symm.trans one
    obtain ⟨w₂, ran', -, back, others, rest⟩ := restores pending waits.once fun s member => by
      obtain ⟨v, found, -⟩ := waits.there s member
      exact ⟨v, found⟩
    obtain ⟨-, rfl⟩ := ran.unique ran'
    intro id v slot found there
    by_cases returned : id ∈ save.saved.map Prod.fst
    · obtain ⟨s, member, rfl⟩ := List.mem_map.1 returned
      obtain ⟨u, known, -⟩ := waits.there s member
      cases found.symm.trans (back s member u known)
      cases there
    · -- whoever else waited would be brought back by this call as well
      obtain ⟨save', member, listed⟩ := expected id v slot ((others id returned).symm.trans found) there
      rw [pending, List.mem_singleton] at member
      subst member
      exact absurd listed returned

theorem enterFunction_expected (sound : Sound [] w.allocator) (idle : w.allocator.calls = [])
    (expected : Expected w.allocator) (ran : Ran enterFunction w () w') : Expected w'.allocator := by
  obtain ⟨-, parted, gone, rfl⟩ := ran_enterFunction sound.registers.toOwners ran
  have narrows := narrows_forM gone fun binding _ _ ran => unbind_narrows ran
  exact expected.of_idle idle fun id v slot found waits => narrows.waits found waits

theorem leaveFunction_expected {n : Nat} (idle : w.allocator.calls = []) (expected : Expected w.allocator)
    (ran : Ran leaveFunction w n w') : Expected w'.allocator := by
  obtain ⟨dropped, outside, bound, narrows, -, back, rfl⟩ := leaveFunction_narrows ran
  -- what comes back comes back to a register
  have rebound : Hastens dropped.allocator bound.allocator := by
    refine Ran.forM back (P := fun mid => Hastens dropped.allocator mid.allocator)
      (fun id u slot found waits => ⟨u, found, waits⟩) fun binding _ mid mid' before ran => ?_
    obtain ⟨v, found, rfl⟩ := ran_rebind ran
    intro id u slot known waits
    have vars := var?_setVar (a := mid.allocator.setOwner binding.2.1 (some binding.1)) found
      { v with storage := .register binding.2.1, isDirty := binding.2.2 } id
    have known' := vars.symm.trans known
    split at known'
    · cases known'
      cases waits
    · exact before id u slot known' waits
  refine expected.of_idle idle fun id v slot found waits => ?_
  obtain ⟨u, known, was⟩ := rebound id v slot found waits
  exact narrows.waits known was

/-- Every permitted operation that succeeds leaves only those waiting that a pending call brings back. -/
theorem step_expected (op : Operation) (order : InOrder w.allocator) (inUse : InUse w.allocator)
    (expected : Expected w.allocator) (permitted : op.Permitted w.allocator) (ran : Ran op.act w () w') :
    Expected w'.allocator := by
  by_cases deed : op.IsDeed
  · obtain ⟨code, -, deeds⟩ := does_operation op order.sound permitted deed ran
    exact expected.hastens (deeds.hastens (order.sound.tidy inUse.bound) fun _ carries => carries) deeds.onward.calls
  · cases op with
    | enterFunction => exact enterFunction_expected order.sound permitted.1 expected ran
    | leaveFunction =>
      obtain ⟨n, ran, -⟩ := ran_map.1 ran
      exact leaveFunction_expected permitted.1 expected ran
    | saveForCall => exact saveForCall_expected order.sound permitted expected ran
    | restoreAfterCall => exact restoreAfterCall_expected order expected ran
    | pushWords words =>
      cases (ran_change (f := fun a => { a with pushed := a.pushed + words })).1 ran
      exact expected
    | popWords words =>
      cases (ran_change (f := fun a => { a with pushed := a.pushed - words })).1 ran
      exact expected
    | _ => exact (deed trivial).elim

theorem Reached.expected (reached : Reached a) : Expected a := by
  induction reached with
  | initial =>
    intro id v slot found
    simp [Allocator.initial, var?] at found
  | step op reached permitted ran ih => exact step_expected op reached.inOrder reached.inUse ih permitted ran

/-- A variable waits in a save area if and only if a pending call brings it back. -/
theorem Reached.awaited_iff (reached : Reached a) (found : a.var? id = some v) :
    a.Awaited id ↔ ∃ slot, v.storage = .saved slot := by
  constructor
  · rintro ⟨save, member, listed⟩
    obtain ⟨s, parked, rfl⟩ := List.mem_map.1 listed
    obtain idle | ⟨save', one, waits⟩ := reached.inOrder.pending
    · rw [idle] at member
      cases member
    · rw [one, List.mem_singleton] at member
      subst member
      obtain ⟨u, known, there⟩ := waits.there s parked
      cases found.symm.trans known
      exact ⟨_, there⟩
  · rintro ⟨slot, waits⟩
    exact reached.expected id v slot found waits

end Allocator

end SmallC
