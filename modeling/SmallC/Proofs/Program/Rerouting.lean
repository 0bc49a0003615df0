import SmallC.Proofs.Program.Activations
import SmallC.Proofs.Program.Optimization

/-!
The peephole passes and the points of control. An entry that is dropped leaves control at the point where it
was, and references that go on to another label find control at the point of the first one there. So what is
known at each entry about the stack pointer and the return address is known behind the passes as well.
-/
namespace SmallC

open Peephole

variable {points : String → Point} {globals : Nat} {at' mid next last : Option Point} {pt : Point}
  {es passed rest : List Entry} {e : Entry} {i : MachineInstr} {source destination : String}

/-- Entries along which control flows from a point. -/
def Flows (points : String → Point) (globals : Nat) (at' : Option Point) (es : List Entry) : Prop :=
  ∃ last, Fits points globals at' es last

/-- Only the points of labels count, not their names. -/
theorem Flow.mapTarget {g : Target → Target} (same : ∀ t, points (g t).label = points t.label)
    (flow : Flow points globals pt i next) : Flow points globals pt (i.mapTarget g) next := by
  cases flow with
  | @outside i free stays =>
    cases i with
    | branch | jump => cases free
    | jr r => exact absurd rfl (stays r)
    | alu | shift | addi | sw | lw | setx | testlog => exact .outside rfl nofun
  | @calm i _ calm =>
    obtain ⟨r, written, common⟩ := calm
    cases i with
    | branch | jump | jr | sw | setx | testlog => cases written
    | alu | shift | addi | lw => exact .calm ⟨r, written, common⟩
  | branch there => exact .branch ((same _).trans there)
  | jump there => exact .jump ((same _).trans there)
  | callOutside entry => exact .callOutside ((same _).trans entry)
  | callInside entry below => exact .callInside ((same _).trans entry) below
  | move moved above => exact .move moved above
  | save below => exact .save below
  | restore => exact .restore
  | store below apart => exact .store below apart
  | write low => exact .write low
  | back => exact .back

theorem Fits.retarget (same : points source = points destination) (fits : Fits points globals at' es last) :
    Fits points globals at' (Peephole.retarget source destination es) last := by
  induction fits with
  | nil => exact .nil
  | @cons _ _ _ _ e _ here label flow _ ih =>
    obtain ⟨g, renamed, renames⟩ := retarget_instr source destination e
    refine .cons here label ?_ ih
    rw [renamed]
    refine flow.mapTarget fun t => ?_
    rw [renames, rerouted]
    split
    · next here => rw [here, same]
    · rfl

theorem Flow.noop (flow : Flow points globals pt i next) (noop : i.isNoop) : next = some pt := by
  rw [MachineInstr.isNoop, decide_eq_true_eq] at noop
  subst noop
  cases flow <;> rfl

theorem Flow.jumps {t : Target} (flow : Flow points globals pt (.jump .j t) next) :
    points t.label = pt ∧ next = none := by
  cases flow with
  | outside free _ => cases free
  | calm calm =>
    obtain ⟨r, written, -⟩ := calm
    cases written
  | jump there => exact ⟨there, rfl⟩

theorem Flow.never (flow : Flow points globals pt i next) (never : i.neverFallsThrough) : next = none := by
  cases flow with
  | @outside i free stays =>
    cases i with
    | jump => cases free
    | jr r => exact absurd rfl (stays r)
    | alu | shift | addi | sw | lw | branch | setx | testlog => cases never
  | @calm i _ calm =>
    obtain ⟨r, written, -⟩ := calm
    cases i with
    | alu | shift | addi | lw => cases never
    | branch | jump | jr | sw | setx | testlog => cases written
  | jump | back => rfl
  | branch | callOutside | callInside | move | save | restore | store | write => cases never

/-- Behind an entry that control never falls through. -/
theorem Fits.unreachable (fits : Fits points globals at' passed.reverse last)
    (never : (passed.head?.map fun before => before.instr.neverFallsThrough).getD false = true) :
    last = none := by
  cases passed with
  | nil => cases never
  | cons previous passed =>
    rw [List.reverse_cons] at fits
    obtain ⟨mid, -, behind⟩ := fits.of_append
    cases behind with
    | cons here label flow behind =>
      cases behind
      exact flow.never never

/-- Dropping anchors leaves control where it was. -/
theorem flows_dropAnchors (flows : Flows points globals at' (passed.reverse ++ rest)) :
    Flows points globals at' (dropAnchors passed rest) := by
  fun_induction dropAnchors passed rest with
  | case1 passed => simpa using flows
  | case2 passed e anchor =>
    obtain ⟨last, fits⟩ := flows
    obtain ⟨mid, first, -⟩ := fits.of_append
    exact ⟨mid, first⟩
  | case3 passed e _ => simpa using flows
  | case4 passed e next rest noop own ih =>
    obtain ⟨last, fits⟩ := flows
    obtain ⟨mid, first, second⟩ := fits.of_append
    cases second with
    | cons here label flow behind =>
      cases flow.noop noop
      exact ih ⟨last, first.append (behind.arrive here)⟩
  | case5 passed e next rest noop label free own ih =>
    obtain ⟨last, fits⟩ := flows
    obtain ⟨mid, first, second⟩ := fits.of_append
    cases second with
    | cons here label' flow behind =>
      cases flow.noop noop
      obtain ⟨-, next', flow', behind'⟩ := behind.entry
      refine ih ⟨last, first.append (.cons here (fun l same => ?_) flow' behind')⟩
      cases same
      exact label' label own
  | case6 passed e next rest noop label destination other own ih =>
    obtain ⟨last, fits⟩ := flows
    obtain ⟨mid, first, second⟩ := fits.of_append
    cases second with
    | cons here label' flow behind =>
      cases flow.noop noop
      have same : points label = points destination :=
        (label' label own).trans (behind.entry.1 destination other).symm
      refine ih ⟨last, ?_⟩
      rw [← retarget_reverse]
      exact (first.retarget same).append ((behind.arrive here).retarget same)
  | case7 passed e next rest noop ih =>
    refine ih ?_
    rwa [List.reverse_cons, List.append_assoc]

/-- Collapsing chains of jumps leaves control where it was. -/
theorem flows_collapseChains (flows : Flows points globals at' (passed.reverse ++ rest)) :
    Flows points globals at' (collapseChains passed rest) := by
  -- What is left around a labelled jump once references have gone on to its destination.
  have forwarded : ∀ {passed rest : List Entry} {e : Entry} {label destination : String}
      {last : Option Point}, forwarding? e = some (label, destination) →
      Fits points globals at' (passed.reverse ++ e :: rest) last →
      ∃ mid, Fits points globals at' (Peephole.retarget label destination passed).reverse mid ∧
        Fits points globals mid [e] none ∧
        Fits points globals none (Peephole.retarget label destination rest) last := by
    intro passed rest e label destination last forwards fits
    obtain ⟨own, -, t, jump, rfl⟩ := forwarding?_eq_some forwards
    obtain ⟨mid, first, second⟩ := fits.of_append
    cases second with
    | cons here label' flow behind =>
      rw [jump] at flow
      obtain ⟨there, rfl⟩ := flow.jumps
      have same : points label = points t.label := (label' label own).trans there.symm
      refine ⟨mid, ?_, .cons here label' (jump ▸ flow) .nil, behind.retarget same⟩
      rw [← retarget_reverse]
      exact first.retarget same
  fun_induction collapseChains passed rest with
  | case1 passed => simpa using flows
  | case2 passed e rest plain ih =>
    refine ih ?_
    rwa [List.reverse_cons, List.append_assoc]
  | case3 passed e rest label destination forwards moved unreachable passed' rest' dropped ih =>
    obtain ⟨last, fits⟩ := flows
    obtain ⟨mid, first, -, behind⟩ := forwarded forwards fits
    have never : mid = none := first.unreachable (by
      have before : (passed.head?.map fun before => before.instr.neverFallsThrough).getD false = true :=
        (Bool.and_eq_true_iff.1 dropped).2
      cases passed with
      | nil => cases before
      | cons previous passed => exact (neverFallsThrough_mapTarget _ _).trans before)
    subst never
    exact ih ⟨last, first.append behind⟩
  | case4 passed e rest label destination forwards moved unreachable passed' rest' kept ih =>
    obtain ⟨last, fits⟩ := flows
    obtain ⟨mid, first, jump, behind⟩ := forwarded forwards fits
    refine ih ⟨last, ?_⟩
    rw [List.reverse_cons, List.append_assoc]
    exact first.append (jump.append behind)

/-- Dropping jumps to the next entry leaves control where it was. -/
theorem flows_dropFallthroughJumps (flows : Flows points globals at' (passed.reverse ++ rest)) :
    Flows points globals at' (dropFallthroughJumps passed rest) := by
  -- What is left around a jump to the next entry once references have gone on to that.
  have followed : ∀ {passed rest : List Entry} {e next : Entry},
      jumpsTo e next → Flows points globals at' (passed.reverse ++ e :: next :: rest) →
      Flows points globals at' ((follow e next passed).reverse ++ follow e next (next :: rest)) := by
    rintro passed rest e next jumps ⟨last, fits⟩
    obtain ⟨own, instr⟩ := e
    rw [jumpsTo, Bool.and_eq_true] at jumps
    obtain ⟨t, rfl⟩ := isJump_iff.1 jumps.1
    have labelled : next.label = some t.label := of_decide_eq_true jumps.2
    obtain ⟨mid, first, second⟩ := fits.of_append
    cases second with
    | cons here label flow behind =>
      obtain ⟨there, rfl⟩ := flow.jumps
      have at_next : Fits points globals (some (points t.label)) (next :: rest) last := by
        cases behind with
        | cons _ label' flow' behind' =>
          exact .cons (fun other same => by
            rw [← label' _ labelled]
            exact (Option.some.inj same).symm) label' flow' behind'
      rw [there] at at_next
      have arrived := at_next.arrive here
      rw [← follow_reverse]
      unfold follow
      cases own with
      | none => exact ⟨last, first.append arrived⟩
      | some l =>
        have same : points l = points t.label := (label l rfl).trans there.symm
        simp only [labelled]
        exact ⟨last, (first.retarget same).append (arrived.retarget same)⟩
  fun_induction dropFallthroughJumps passed rest with
  | case1 passed e next rest jumps emptied ih =>
    have left := followed jumps flows
    rw [emptied] at left
    exact ih left
  | case2 passed e next rest jumps previous passed' behind ih =>
    have left := followed jumps flows
    rw [behind, List.reverse_cons, List.append_assoc] at left
    exact ih left
  | case3 passed e next rest stays ih =>
    refine ih ?_
    rwa [List.reverse_cons, List.append_assoc]
  | case4 passed rest _ => exact flows

/-- Running the passes leaves control where it was. -/
theorem flows_optimize (flows : Flows points globals at' es) : Flows points globals at' (optimize es) := by
  have anchors : Flows points globals at' (dropAnchors [] es) := flows_dropAnchors flows
  have chains : Flows points globals at' (collapseChains [] (dropAnchors [] es)) := flows_collapseChains anchors
  exact flows_dropFallthroughJumps chains

end SmallC
