import SmallC.Proofs.Program.Optimization

/-!
Where the peephole passes come to rest. Behind them an anchor stands at the very end alone and has a label, nothing
refers to the label of a jump elsewhere, and no jump goes to the entry behind it. The passes leave exactly such entries
as they are, so to run them again changes nothing. No label has to be unique or bound for that.
-/
namespace SmallC

open Peephole

variable {es es' passed rest : List Entry} {e next : Entry} {label source destination : String}

/-! ### References -/

/-- Some entry refers to a label. -/
def Refers (es : List Entry) (label : String) : Prop := ∃ e ∈ es, e.refersTo label = true

theorem Entry.refersTo_iff : e.refersTo label = true ↔ ∃ t, e.target? = some t ∧ t.label = label := by
  simp [refersTo, Option.any_eq_true]

/-- References are to what they were to, but to the destination in place of the source. -/
theorem Entry.refersTo_retarget : (e.retarget source destination).refersTo label = true ↔
    e.refersTo label = true ∧ label ≠ source ∨ e.refersTo source = true ∧ label = destination := by
  obtain ⟨own, instr⟩ := e
  have followed : ∀ t : Target, (if t.label = source then { t with label := destination } else t).label = label ↔
      t.label = label ∧ label ≠ source ∨ t.label = source ∧ label = destination := by
    intro t
    split
    · next same => grind
    · next other => grind
  cases instr with
  | branch op rd rs t => simpa [refersTo, retarget, target?, Instr.target?, Instr.mapTarget] using followed t
  | jump op t => simpa [refersTo, retarget, target?, Instr.target?, Instr.mapTarget] using followed t
  | _ => simp [refersTo, retarget, target?, Instr.target?, Instr.mapTarget]

theorem Refers.mono (refers : Refers es label) (more : es ⊆ es') : Refers es' label :=
  refers.imp fun _ found => ⟨more found.1, found.2⟩

/-- Entries on both sides of the current one are asked whether they refer to a label. -/
theorem refers_of_any (found : (passed.any (Entry.refersTo label) || rest.any (Entry.refersTo label)) = true) :
    Refers (passed.reverse ++ rest) label := by
  rcases Bool.or_eq_true_iff.1 found with found | found
  · obtain ⟨e, member, refers⟩ := List.any_eq_true.1 found
    exact ⟨e, by simp [member], refers⟩
  · obtain ⟨e, member, refers⟩ := List.any_eq_true.1 found
    exact ⟨e, by simp [member], refers⟩

theorem refers_retarget : Refers (retarget source destination es) label ↔
    Refers es label ∧ label ≠ source ∨ Refers es source ∧ label = destination := by
  constructor
  · rintro ⟨e', member, refers⟩
    obtain ⟨e, old, rfl⟩ := List.mem_map.1 member
    exact (Entry.refersTo_retarget.1 refers).imp (.imp_left fun found => ⟨e, old, found⟩)
      (.imp_left fun found => ⟨e, old, found⟩)
  · rintro (⟨⟨e, old, refers⟩, other⟩ | ⟨⟨e, old, refers⟩, same⟩)
    · exact ⟨_, List.mem_map_of_mem old, Entry.refersTo_retarget.2 (.inl ⟨refers, other⟩)⟩
    · exact ⟨_, List.mem_map_of_mem old, Entry.refersTo_retarget.2 (.inr ⟨refers, same⟩)⟩

/-- Entries stay as they are if there is nothing that could follow. -/
theorem retarget_of_not_refers (unreferenced : ¬ Refers es source) : retarget source destination es = es := by
  rw [retarget, List.map_congr_left, List.map_id]
  intro e member
  exact retarget_of_ne fun t target same => unreferenced ⟨e, member, Entry.refersTo_iff.2 ⟨t, target, same⟩⟩

theorem retarget_self : retarget label label es = es := by
  rw [retarget, List.map_congr_left, List.map_id]
  rintro ⟨own, instr⟩ -
  have same : ∀ t : Target, (if t.label = label then { t with label } else t) = t := by
    rintro ⟨label', resolved⟩
    by_cases same : label' = label <;> simp [same]
  cases instr with
  | branch op rd rs t => exact congrArg (fun t => (⟨own, .branch op rd rs t⟩ : Entry)) (same t)
  | jump op t => exact congrArg (fun t => (⟨own, .jump op t⟩ : Entry)) (same t)
  | _ => rfl

/-! ### Anchors -/

/-- No anchor has an entry behind it, and one at the end has a label. -/
structure AnchorsLast (es : List Entry) : Prop where
  last : es.Pairwise fun e _ => e.instr.isNoop = false
  labelled : ∀ e ∈ es, e.instr.isNoop = true → e.label ≠ none

theorem isNoop_mapTarget (i : MachineInstr) (g : Target → Target) :
    MachineInstr.isNoop (i.mapTarget g) = i.isNoop := by
  cases i <;> simp [MachineInstr.isNoop, MachineInstr.noop, Instr.mapTarget]

namespace AnchorsLast

theorem sublist (anchors : AnchorsLast es) (kept : es'.Sublist es) : AnchorsLast es' :=
  ⟨anchors.last.sublist kept, fun e member => anchors.labelled e (kept.subset member)⟩

theorem retarget (anchors : AnchorsLast es) : AnchorsLast (retarget source destination es) := by
  refine ⟨List.pairwise_map.2 (anchors.last.imp fun work => (isNoop_mapTarget _ _).trans work), fun e' member => ?_⟩
  obtain ⟨e, old, rfl⟩ := List.mem_map.1 member
  intro anchor
  exact anchors.labelled e old ((isNoop_mapTarget _ _).symm.trans anchor)

theorem of_work (work : ∀ e ∈ es, e.instr.isNoop = false) : AnchorsLast es :=
  ⟨List.pairwise_of_forall_mem_list fun e member _ _ => work e member, fun e member anchor => by
    rw [work e member] at anchor
    cases anchor⟩

theorem snoc (work : ∀ e ∈ es, e.instr.isNoop = false) (labelled : e.instr.isNoop = true → e.label ≠ none) :
    AnchorsLast (es ++ [e]) := by
  refine ⟨List.pairwise_append.2 ⟨(of_work work).last, List.pairwise_singleton _ _, fun e member _ _ => work e member⟩, ?_⟩
  intro e' member anchor
  rcases List.mem_append.1 member with member | member
  · rw [work e' member] at anchor
    cases anchor
  · cases List.mem_singleton.1 member
    exact labelled anchor

end AnchorsLast

theorem dropAnchors_anchorsLast (work : ∀ e ∈ passed, e.instr.isNoop = false) :
    AnchorsLast (dropAnchors passed rest) := by
  fun_induction dropAnchors passed rest with
  | case1 passed => exact .of_work fun e member => work e (List.mem_reverse.1 member)
  | case2 passed e anchor => exact .of_work fun e member => work e (List.mem_reverse.1 member)
  | case3 passed e stays =>
    rw [List.reverse_cons]
    exact .snoc (fun e member => work e (List.mem_reverse.1 member)) fun anchor free => stays ⟨anchor, free⟩
  | case4 passed e next rest noop own ih => exact ih work
  | case5 passed e next rest noop label free own ih => exact ih work
  | case6 passed e next rest noop label destination other own ih =>
    refine ih fun e' member => ?_
    obtain ⟨e, old, rfl⟩ := List.mem_map.1 member
    exact (isNoop_mapTarget _ _).trans (work e old)
  | case7 passed e next rest noop ih =>
    refine ih (List.forall_mem_cons.2 ⟨?_, work⟩)
    simpa using noop

/-- The first pass leaves such entries alone. -/
theorem dropAnchors_eq (anchors : AnchorsLast rest) : dropAnchors passed rest = passed.reverse ++ rest := by
  fun_induction dropAnchors passed rest with
  | case1 passed => simp
  | case2 passed e anchor => exact absurd anchor.2 (anchors.labelled e (by simp) anchor.1)
  | case3 passed e stays => simp
  | case4 passed e next rest noop | case5 passed e next rest noop | case6 passed e next rest noop =>
    rw [(List.pairwise_cons.1 anchors.last).1 next (by simp)] at noop
    cases noop
  | case7 passed e next rest noop ih =>
    rw [ih (anchors.sublist (List.sublist_cons_self e _))]
    simp

/-! ### Chains of jumps -/

/-- No entry refers to the label of any of some jumps elsewhere. -/
def Forwarded (jumps es : List Entry) : Prop :=
  ∀ e ∈ jumps, ∀ label destination, forwarding? e = some (label, destination) → ¬ Refers es label

theorem Forwarded.mono {jumps jumps' : List Entry} (forwarded : Forwarded jumps es) (fewer : jumps' ⊆ jumps)
    (less : es' ⊆ es) : Forwarded jumps' es' :=
  fun e member label destination forwards refers =>
    forwarded e (fewer member) label destination forwards (refers.mono less)

theorem refersTo_of_forwarding (forwards : forwarding? e = some (label, destination)) :
    label ≠ destination ∧ e.refersTo destination = true ∧ e.retarget label destination = e := by
  obtain ⟨-, other, t, jump, rfl⟩ := forwarding?_eq_some forwards
  have target : e.target? = some t := by rw [Entry.target?, jump]; rfl
  refine ⟨other, Entry.refersTo_iff.2 ⟨t, target, rfl⟩, retarget_of_ne fun t' target' => ?_⟩
  cases target.symm.trans target'
  exact other.symm

/-- A labelled jump elsewhere refers to its destination and to nothing else. -/
theorem eq_of_forwarding (forwards : forwarding? e = some (source, destination)) (refers : e.refersTo label = true) :
    label = destination := by
  obtain ⟨-, -, t, jump, rfl⟩ := forwarding?_eq_some forwards
  obtain ⟨t', target, rfl⟩ := Entry.refersTo_iff.1 refers
  rw [Entry.target?, jump] at target
  cases target
  rfl

/-- A jump that goes elsewhere once references have followed either did so before or was under the source. -/
theorem forwarding?_retarget {label' : String}
    (forwards : forwarding? (e.retarget source destination) = some (label, label')) :
    label = source ∨ ∃ label', forwarding? e = some (label, label') := by
  obtain ⟨own, -, t', jump', rfl⟩ := forwarding?_eq_some forwards
  obtain ⟨own', instr⟩ := e
  cases instr with
  | jump op t =>
    cases jump'
    by_cases same : label = t.label
    · by_cases moved : t.label = source
      · exact .inl (same.trans moved)
      · have stays : (if t.label = source then { t with label := destination } else t) = t := if_neg moved
        have other := (forwarding?_eq_some forwards).2.1
        exact absurd (same.trans (congrArg Target.label stays.symm)) other
    · refine .inr ⟨t.label, ?_⟩
      cases own
      exact if_pos ⟨rfl, same⟩
  | _ => cases jump'

/-- References follow one of the jumps: nothing refers to its label then, and the others are as they were. -/
theorem Forwarded.retarget {jumps : List Entry} (forwarded : Forwarded jumps es) (member : e ∈ es)
    (forwards : forwarding? e = some (source, destination)) :
    ¬ Refers (retarget source destination es) source ∧
      Forwarded (Peephole.retarget source destination jumps) (Peephole.retarget source destination es) := by
  obtain ⟨other, refers, -⟩ := refersTo_of_forwarding forwards
  have gone : ¬ Refers (Peephole.retarget source destination es) source := by
    rw [refers_retarget]
    rintro (⟨-, same⟩ | ⟨-, same⟩)
    · exact same rfl
    · exact other same
  refine ⟨gone, fun e' jumping label label' forwards' => ?_⟩
  obtain ⟨e₀, old, rfl⟩ := List.mem_map.1 jumping
  rcases forwarding?_retarget forwards' with rfl | ⟨before, forwards₀⟩
  · exact gone
  · have unreferenced := forwarded e₀ old label before forwards₀
    rw [refers_retarget]
    rintro (⟨still, -⟩ | ⟨-, rfl⟩)
    · exact unreferenced still
    · exact unreferenced ⟨e, member, refers⟩

theorem retarget_around (stays : e.retarget source destination = e) :
    retarget source destination (passed.reverse ++ e :: rest) =
      (retarget source destination passed).reverse ++ e :: retarget source destination rest := by
  rw [retarget_middle, stays, retarget_reverse]

theorem collapseChains_forwarded (forwarded : Forwarded passed (passed.reverse ++ rest)) :
    Forwarded (collapseChains passed rest) (collapseChains passed rest) := by
  fun_induction collapseChains passed rest with
  | case1 passed => exact forwarded.mono (by simp) (by simp)
  | case2 passed e rest plain ih =>
    refine ih ?_
    rw [List.reverse_cons, List.append_assoc]
    intro e' member label destination forwards
    rcases List.mem_cons.1 member with rfl | member
    · rw [plain] at forwards
      cases forwards
    · exact forwarded e' member label destination forwards
  | case3 passed e rest label destination forwards moved unreachable passed' rest' dropped ih =>
    obtain ⟨-, others⟩ := forwarded.retarget (by simp) forwards
    rw [retarget_around (refersTo_of_forwarding forwards).2.2] at others
    exact ih (others.mono (List.Subset.refl _) (by simp [passed', rest']))
  | case4 passed e rest label destination forwards moved unreachable passed' rest' kept ih =>
    obtain ⟨gone, others⟩ := forwarded.retarget (by simp) forwards
    rw [retarget_around (refersTo_of_forwarding forwards).2.2] at gone others
    refine ih ?_
    rw [List.reverse_cons, List.append_assoc]
    intro e' member label' destination' forwards'
    rcases List.mem_cons.1 member with rfl | member
    · cases forwards.symm.trans forwards'
      exact gone
    · exact others e' member label' destination' forwards'

theorem collapseChains_anchorsLast (anchors : AnchorsLast (passed.reverse ++ rest)) :
    AnchorsLast (collapseChains passed rest) := by
  fun_induction collapseChains passed rest with
  | case1 passed => simpa using anchors
  | case2 passed e rest plain ih => exact ih (by simpa using anchors)
  | case3 passed e rest label destination forwards moved unreachable passed' rest' dropped ih =>
    have followed : AnchorsLast (retarget label destination _) := anchors.retarget
    rw [retarget_around (refersTo_of_forwarding forwards).2.2] at followed
    exact ih (followed.sublist (by simp [passed', rest']))
  | case4 passed e rest label destination forwards moved unreachable passed' rest' kept ih =>
    have followed : AnchorsLast (retarget label destination _) := anchors.retarget
    rw [retarget_around (refersTo_of_forwarding forwards).2.2] at followed
    exact ih (by simpa [passed', rest'] using followed)

/-- The second pass leaves such entries alone. -/
theorem collapseChains_eq (forwarded : Forwarded rest (passed.reverse ++ rest)) :
    collapseChains passed rest = passed.reverse ++ rest := by
  fun_induction collapseChains passed rest with
  | case1 passed => simp
  | case2 passed e rest plain ih =>
    have same : (e :: passed).reverse ++ rest = passed.reverse ++ e :: rest := by simp
    rw [ih (same ▸ forwarded.mono (List.subset_cons_self e rest) (List.Subset.refl _)), same]
  | case3 passed e rest label destination forwards moved unreachable passed' rest' dropped ih =>
    -- a jump is only dropped where a reference has followed it
    have follows : Refers (passed.reverse ++ rest) label := refers_of_any (Bool.and_eq_true_iff.1 dropped).1
    exact absurd (follows.mono (by simp)) (forwarded e (by simp) label destination forwards)
  | case4 passed e rest label destination forwards moved unreachable passed' rest' kept ih =>
    have unreferenced := forwarded e (by simp) label destination forwards
    have before : passed' = passed :=
      retarget_of_not_refers fun refers => unreferenced (refers.mono (by intro x member; simp [member]))
    have behind : rest' = rest :=
      retarget_of_not_refers fun refers => unreferenced (refers.mono (by intro x member; simp [member]))
    have same : (e :: passed).reverse ++ rest = passed.reverse ++ e :: rest := by simp
    rw [before, behind] at ih ⊢
    rw [ih (same ▸ forwarded.mono (List.subset_cons_self e rest) (List.Subset.refl _)), same]

/-! ### Jumps to the next entry -/

/-- No jump goes to the entry behind it. -/
abbrev NoFallthrough (es : List Entry) : Prop := es.IsChain fun e next => jumpsTo e next = false

/-- A jump to the next entry refers to the label of that and to nothing else. -/
theorem label_of_jumpsTo (jumps : jumpsTo e next = true) (refers : e.refersTo label = true) :
    next.label = some label := by
  rw [jumpsTo, Bool.and_eq_true] at jumps
  obtain ⟨t, target, is⟩ := (Option.any_eq_true _ _).1 jumps.2
  obtain ⟨t', target', rfl⟩ := Entry.refersTo_iff.1 refers
  cases target.symm.trans target'
  exact of_decide_eq_true is

/-- A labelled jump to the next entry goes elsewhere, unless both have the same label. -/
theorem forwarding?_of_jumpsTo (jumps : jumpsTo e next = true) (own : e.label = some source)
    (labelled : next.label = some destination) (other : source ≠ destination) :
    forwarding? e = some (source, destination) := by
  rw [jumpsTo, Bool.and_eq_true] at jumps
  obtain ⟨t, target, is⟩ := (Option.any_eq_true _ _).1 jumps.2
  obtain rfl : destination = t.label := Option.some.inj (labelled.symm.trans (of_decide_eq_true is))
  rw [forwarding?, own, target]
  exact if_pos ⟨jumps.1, other⟩

/-- Behind the second pass no reference is left that could follow from a jump to the next entry. -/
theorem follow_eq {xs : List Entry} (forwarded : Forwarded es es) (member : e ∈ es) (within : xs ⊆ es)
    (jumps : jumpsTo e next = true) : follow e next xs = xs := by
  unfold follow
  split
  · next label other own labelled =>
    by_cases same : label = other
    · rw [same, retarget_self]
    · exact retarget_of_not_refers fun refers =>
        forwarded e member label other (forwarding?_of_jumpsTo jumps own labelled same) (refers.mono within)
  · rfl

/-- A jump to the next entry can be dropped and leaves the others as they are. -/
theorem Forwarded.jump (forwarded : Forwarded (passed.reverse ++ e :: next :: rest) (passed.reverse ++ e :: next :: rest))
    (jumps : jumpsTo e next = true) :
    follow e next passed = passed ∧ follow e next (next :: rest) = next :: rest ∧
      Forwarded (passed.reverse ++ next :: rest) (passed.reverse ++ next :: rest) := by
  have fewer : passed.reverse ++ next :: rest ⊆ passed.reverse ++ e :: next :: rest := by simp
  refine ⟨follow_eq forwarded (by simp) ?_ jumps, follow_eq forwarded (by simp) ?_ jumps, forwarded.mono fewer fewer⟩
  · intro x member
    simp [member]
  · exact List.Subset.trans (List.subset_cons_self e _) (List.subset_append_right _ _)

/-- The third pass only drops entries, and what it has passed contains no jump to the next entry. -/
theorem dropFallthroughJumps_settles (forwarded : Forwarded (passed.reverse ++ rest) (passed.reverse ++ rest))
    (chain : NoFallthrough (passed.reverse ++ rest.head?.toList)) :
    (dropFallthroughJumps passed rest).Sublist (passed.reverse ++ rest) ∧
      NoFallthrough (dropFallthroughJumps passed rest) := by
  fun_induction dropFallthroughJumps passed rest with
  | case1 passed e next rest jumps emptied ih =>
    obtain ⟨before, behind, forwarded'⟩ := forwarded.jump jumps
    obtain rfl : passed = [] := before.symm.trans emptied
    rw [behind] at ih ⊢
    obtain ⟨kept, settled⟩ := ih forwarded' (.singleton _)
    exact ⟨kept.trans (List.sublist_cons_self e _), settled⟩
  | case2 passed e next rest jumps previous passed' split ih =>
    obtain ⟨before, behind, forwarded'⟩ := forwarded.jump jumps
    obtain rfl : passed = previous :: passed' := before.symm.trans split
    rw [behind] at ih ⊢
    have whole : (previous :: passed').reverse ++ next :: rest = passed'.reverse ++ previous :: next :: rest := by simp
    rw [whole] at forwarded'
    obtain ⟨kept, settled⟩ := ih forwarded' (by simpa using chain.left_of_append)
    refine ⟨kept.trans ?_, settled⟩
    rw [← whole]
    exact (List.Sublist.refl _).append (List.sublist_cons_self e _)
  | case3 passed e next rest stays ih =>
    have whole : (e :: passed).reverse ++ next :: rest = passed.reverse ++ e :: next :: rest := by simp
    have pair : jumpsTo e next = false := by simpa using stays
    rw [whole] at ih
    refine ih forwarded ?_
    rw [List.reverse_cons]
    exact List.IsChain.append_overlap chain (List.isChain_pair.2 pair) (by simp)
  | case4 passed rest short =>
    rcases rest with _ | ⟨e, _ | ⟨next, rest⟩⟩
    · exact ⟨List.Sublist.refl _, chain⟩
    · exact ⟨List.Sublist.refl _, chain⟩
    · exact (short e next rest rfl).elim

/-- The third pass leaves such entries alone. -/
theorem dropFallthroughJumps_eq (chain : NoFallthrough rest) :
    dropFallthroughJumps passed rest = passed.reverse ++ rest := by
  fun_induction dropFallthroughJumps passed rest with
  | case1 passed e next rest jumps | case2 passed e next rest jumps =>
    rw [(List.isChain_cons_cons.1 chain).1] at jumps
    cases jumps
  | case3 passed e next rest stays ih =>
    rw [ih (List.isChain_cons_cons.1 chain).2]
    simp
  | case4 passed rest => rfl

/-! ### The passes together -/

/-- Entries that no pass has anything to do on. -/
structure Settled (es : List Entry) : Prop where
  anchors : AnchorsLast es
  forwarded : Forwarded es es
  noFallthrough : NoFallthrough es

theorem settled_optimize (es : List Entry) : Settled (optimize es) := by
  have anchors : AnchorsLast (dropAnchors [] es) := dropAnchors_anchorsLast (by simp)
  have anchors' : AnchorsLast (collapseChains [] (dropAnchors [] es)) := collapseChains_anchorsLast anchors
  have forwarded : Forwarded (collapseChains [] (dropAnchors [] es)) (collapseChains [] (dropAnchors [] es)) :=
    collapseChains_forwarded (by simp [Forwarded])
  have start : NoFallthrough (([] : List Entry).reverse ++ (collapseChains [] (dropAnchors [] es)).head?.toList) := by
    cases collapseChains [] (dropAnchors [] es) <;> simp
  obtain ⟨kept, noFallthrough⟩ := dropFallthroughJumps_settles forwarded start
  exact ⟨anchors'.sublist kept, forwarded.mono kept.subset kept.subset, noFallthrough⟩

/-- The passes leave entries as they are exactly if there is nothing to do on them. -/
theorem optimize_eq_self_iff : optimize es = es ↔ Settled es := by
  constructor
  · intro same
    rw [← same]
    exact settled_optimize es
  · intro settled
    have first : dropAnchors [] es = es := dropAnchors_eq settled.anchors
    have second : collapseChains [] es = es := collapseChains_eq settled.forwarded
    have third : dropFallthroughJumps [] es = es := dropFallthroughJumps_eq settled.noFallthrough
    rw [optimize, first, second, third]

/-- To run the passes on what they leave changes nothing. -/
theorem optimize_idempotent (es : List Entry) : optimize (optimize es) = optimize es :=
  optimize_eq_self_iff.2 (settled_optimize es)

end SmallC
