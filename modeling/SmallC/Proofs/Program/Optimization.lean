import SmallC.Proofs.Program.Rewriting

/-!
The peephole passes preserve what entries do. Each pass walks the entries and at each one either leaves
them alone or rewrites them: references go on to where a silent entry goes, or an entry is dropped that
is silent or never reached.
-/
namespace SmallC

theorem Improves.of_behaved {es es' : List Entry} (improves : Behaved es → Improves es es') :
    Improves es es' :=
  fun behaved => improves behaved behaved

section Dropping

variable {before after : List Entry} {e : Entry}

theorem getElem?_middle : (before ++ e :: after)[before.length]? = some e := by simp

/-- What is left of entries around one that is dropped stands at the places of the others. -/
theorem getElem?_placeWithout {a : Nat} (other : a ≠ before.length) :
    (before ++ after)[placeWithout before.length a]? = (before ++ e :: after)[a]? := by
  unfold placeWithout
  split
  · rw [List.getElem?_append_left (by omega), List.getElem?_append_left (by omega)]
  · obtain ⟨b, rfl⟩ : ∃ b, a = before.length + 1 + b := ⟨a - before.length - 1, by omega⟩
    rw [List.getElem?_append_right (by omega), List.getElem?_append_right (by omega)]
    rw [show before.length + 1 + b - 1 - before.length = b by omega,
      show before.length + 1 + b - before.length = b + 1 by omega, List.getElem?_cons_succ]

theorem getElem?_origin {a : Nat} :
    (before ++ after)[a]? = (before ++ e :: after)[if a < before.length then a else a + 1]? := by
  split
  · rw [List.getElem?_append_left (by omega), List.getElem?_append_left (by omega)]
  · obtain ⟨b, rfl⟩ : ∃ b, a = before.length + b := ⟨a - before.length, by omega⟩
    rw [List.getElem?_append_right (by omega), List.getElem?_append_right (by omega)]
    rw [show before.length + b - before.length = b by omega,
      show before.length + b + 1 - before.length = b + 1 by omega, List.getElem?_cons_succ]

/-- An entry can be dropped together with its label if nothing refers to that. -/
theorem drops_unreferenced (linkable : Linkable (before ++ e :: after))
    (unreferenced : ∀ e₁ ∈ before ++ e :: after, ∀ t, e₁.target? = some t →
      e.label ≠ some t.label) :
    Drops before.length (before ++ e :: after) (before ++ after) := by
  refine ⟨by simp, by simp; omega, fun {a e₁} other found => ?_,
    fun {e₁ t a} member target labelled => ?_, fun {l a b} first second => ?_⟩
  · exact ⟨e₁, by rw [getElem?_placeWithout other, found], rfl⟩
  · obtain ⟨e₂, found, label⟩ := labelled
    have other : a ≠ before.length := by
      rintro rfl
      rw [getElem?_middle] at found
      cases found
      exact unreferenced e₁ member t target label
    exact ⟨e₂, by rw [getElem?_placeWithout other, found], label⟩
  · obtain ⟨e₁, found, label⟩ := first
    obtain ⟨e₂, found', label'⟩ := second
    rw [getElem?_origin (e := e)] at found found'
    have := linkable.unique ⟨e₁, found, label⟩ ⟨e₂, found', label'⟩
    split at this <;> split at this <;> omega

/-- An entry can be dropped if the next one has no label and takes its label over. -/
theorem drops_moving_label {next : Entry} {rest : List Entry} {label : String}
    (linkable : Linkable (before ++ e :: next :: rest)) (labelled : e.label = some label)
    (free : next.label = none) :
    Drops before.length (before ++ e :: next :: rest)
      (before ++ { next with label := some label } :: rest) := by
  -- Entries but the next one are what they were.
  have entry : ∀ {a}, a ≠ before.length → a ≠ before.length + 1 →
      (before ++ { next with label := some label } :: rest)[placeWithout before.length a]? =
        (before ++ e :: next :: rest)[a]? := by
    intro a other behind
    rw [← getElem?_placeWithout (e := e) other]
    unfold placeWithout
    split
    · rw [List.getElem?_append_left (by omega), List.getElem?_append_left (by omega)]
    · obtain ⟨b, rfl⟩ : ∃ b, a = before.length + 2 + b := ⟨a - before.length - 2, by omega⟩
      rw [List.getElem?_append_right (by omega), List.getElem?_append_right (by omega)]
      rw [show before.length + 2 + b - 1 - before.length = b + 1 by omega, List.getElem?_cons_succ,
        List.getElem?_cons_succ]
  have second : (before ++ e :: next :: rest)[before.length + 1]? = some next := by
    rw [List.getElem?_append_right (by omega)]
    simp
  have origin : ∀ {l a}, LabelAt (before ++ { next with label := some label } :: rest) l a →
      LabelAt (before ++ e :: next :: rest) l (if a ≤ before.length then a else a + 1) := by
    rintro l a ⟨e₁, found, bound⟩
    by_cases same : a = before.length
    · subst same
      rw [getElem?_middle] at found
      cases found
      rw [if_pos (Nat.le_refl _)]
      exact ⟨e, getElem?_middle, labelled.trans bound⟩
    · refine ⟨e₁, ?_, bound⟩
      have place : placeWithout before.length (if a ≤ before.length then a else a + 1) = a := by
        unfold placeWithout
        by_cases ahead : a ≤ before.length
        · rw [if_pos ahead, if_pos ahead]
        · rw [if_neg ahead, if_neg (by omega), Nat.add_sub_cancel]
      rw [← entry (by split <;> omega) (by split <;> omega), place, found]
  refine ⟨by simp, by simp; omega, fun {a e₁} other found => ?_,
    fun {e₁ t a} member target bound => ?_, fun {l a b} first second => ?_⟩
  · by_cases behind : a = before.length + 1
    · subst behind
      rw [second] at found
      cases found
      refine ⟨{ next with label := some label }, ?_, rfl⟩
      rw [placeWithout, if_neg (Nat.not_succ_le_self _), Nat.add_sub_cancel, getElem?_middle]
    · exact ⟨e₁, (entry other behind).trans found, rfl⟩
  · obtain ⟨e₂, found, bound⟩ := bound
    by_cases here : a = before.length
    · subst here
      rw [getElem?_middle] at found
      cases found
      refine ⟨{ next with label := some label }, ?_, labelled.symm.trans bound⟩
      rw [placeWithout, if_pos (Nat.le_refl _), getElem?_middle]
    · by_cases behind : a = before.length + 1
      · subst behind
        rw [second] at found
        cases found
        rw [free] at bound
        cases bound
      · exact ⟨e₂, (entry here behind).trans found, bound⟩
  · have := linkable.unique (origin first) (origin second)
    split at this <;> split at this <;> omega

end Dropping

open Peephole

theorem retarget_middle (source destination : String) (before rest : List Entry) (e : Entry) :
    retarget source destination (before ++ e :: rest) =
      retarget source destination before ++
        e.retarget source destination :: retarget source destination rest :=
  List.map_append

theorem retarget_reverse (source destination : String) (xs : List Entry) :
    retarget source destination xs.reverse = (retarget source destination xs).reverse :=
  List.map_reverse

/-- No reference to a label is left once all follow to another. -/
theorem unreferenced_retarget {source destination : String} (es : List Entry) {e : Entry} {t : Target}
    (different : source ≠ destination) (member : e ∈ retarget source destination es)
    (target : e.target? = some t) : t.label ≠ source := by
  obtain ⟨e₀, -, rfl⟩ := List.mem_map.1 member
  obtain ⟨g, same, renames⟩ := retarget_instr source destination e₀
  cases target₀ : e₀.instr.target? with
  | none =>
    rw [Entry.target?, same] at target
    cases instr : e₀.instr <;> rw [instr] at target target₀ <;> cases target <;> cases target₀
  | some t₀ =>
    rw [Entry.target?, same, target?_mapTarget g target₀] at target
    cases target
    rw [renames, rerouted]
    split
    · exact different.symm
    · assumption

/-- An entry whose target does not refer to a label stays as references to it follow to another. -/
theorem retarget_of_ne {source destination : String} {e : Entry}
    (other : ∀ t, e.target? = some t → t.label ≠ source) : e.retarget source destination = e := by
  obtain ⟨label, instr⟩ := e
  rw [Entry.retarget]
  congr 1
  cases instr with
  | branch op rd rs t => simp [Instr.mapTarget, other t rfl]
  | jump op t => simp [Instr.mapTarget, other t rfl]
  | _ => rfl

theorem neverFallsThrough_mapTarget (f : Target → Target) (i : MachineInstr) :
    MachineInstr.neverFallsThrough (i.mapTarget f) = i.neverFallsThrough := by
  cases i with
  | jump op t => cases op <;> rfl
  | _ => rfl

theorem isJump_iff {i : MachineInstr} : i.isJump ↔ ∃ t, i = .jump .j t := by
  constructor
  · intro jump
    cases i with
    | jump op t =>
      cases op with
      | j => exact ⟨t, rfl⟩
      | jal | bex => cases jump
    | _ => cases jump
  · rintro ⟨t, rfl⟩
    rfl

/-- References to the label of a silent entry can follow to that of the next entry, where that has one,
and the entry can be dropped. -/
theorem improves_follow (before rest : List Entry) {e : Entry} (next : Entry)
    (silent : GoesSilently (before ++ e :: next :: rest) before.length (before.length + 1))
    (labelled : e.label = none ∨ next.label.isSome) :
    Improves (before ++ e :: next :: rest) (follow e next before ++ follow e next (next :: rest)) := by
  apply Improves.of_behaved
  intro behaved
  have second : (before ++ e :: next :: rest)[before.length + 1]? = some next := by
    rw [List.getElem?_append_right (by omega)]
    simp
  unfold follow
  cases own : e.label with
  | none =>
    refine (drops_unreferenced behaved.linkable ?_).improves (.inl silent)
    simp [own]
  | some label =>
    cases other : next.label with
    | none => simp [own, other] at labelled
    | some destination =>
      have from' : LabelAt (before ++ e :: next :: rest) label before.length :=
        ⟨e, getElem?_middle, own⟩
      have dest : LabelAt (before ++ e :: next :: rest) destination (before.length + 1) :=
        ⟨next, second, other⟩
      have different : label ≠ destination := by
        rintro rfl
        have := behaved.linkable.unique from' dest
        omega
      have goes := improves_retarget from' dest silent
      have behaved' := (goes behaved).1
      have unreferenced := fun {e₁ : Entry} {t : Target} =>
        unreferenced_retarget (before ++ e :: next :: rest) (e := e₁) (t := t) different
      rw [retarget_middle] at goes behaved' unreferenced
      refine goes.trans ?_
      have drops := drops_unreferenced behaved'.linkable fun e₁ member t target same =>
        unreferenced member target (Option.some.inj (same.symm.trans own))
      rw [length_retarget] at drops
      refine drops.improves (.inl ?_)
      obtain ⟨e₀, found, goes⟩ := silent
      rw [getElem?_middle] at found
      cases found
      refine ⟨e.retarget label destination, ?_, ?_⟩
      · rw [← retarget_middle, retarget, List.getElem?_map, getElem?_middle]
        rfl
      · rcases goes with ⟨noop, ahead⟩ | ⟨t, jump, ahead⟩
        · exact .inl ⟨by rw [Entry.retarget, noop]; rfl, ahead⟩
        · have stays : e.retarget label destination = e := retarget_of_ne fun t' target => by
            rw [Entry.target?, jump] at target
            cases target
            intro same
            rw [same] at ahead
            have := behaved.linkable.unique ahead from'
            omega
          rw [stays]
          refine .inr ⟨t, jump, ?_⟩
          rw [← stays, ← retarget_middle]
          exact labelAt_retarget.2 ahead

theorem anchor_silent {before rest : List Entry} {e : Entry} (noop : e.instr.isNoop) :
    GoesSilently (before ++ e :: rest) before.length (before.length + 1) :=
  ⟨e, getElem?_middle, .inl ⟨by simpa [MachineInstr.isNoop] using noop, rfl⟩⟩

/-- Dropping anchors changes nothing that entries do. -/
theorem improves_dropAnchors (passed rest : List Entry) :
    Improves (passed.reverse ++ rest) (dropAnchors passed rest) := by
  fun_induction dropAnchors passed rest with
  | case1 passed => simpa using Improves.refl passed.reverse
  | case2 passed e anchor =>
    refine .of_behaved fun behaved => ?_
    have drops := drops_unreferenced behaved.linkable (by simp [anchor.2])
    rw [List.append_nil] at drops
    refine drops.improves (.inl ⟨e, getElem?_middle, .inl ⟨?_, rfl⟩⟩)
    simpa [MachineInstr.isNoop] using anchor.1
  | case3 passed e _ => simpa using Improves.refl (passed.reverse ++ [e])
  | case4 passed e next rest noop own ih =>
    refine .trans (improves_follow _ _ next (anchor_silent noop) (.inl own)) ?_
    simpa only [follow, own] using ih
  | case5 passed e next rest noop label free own ih =>
    refine .trans (.of_behaved fun behaved => ?_) ih
    exact (drops_moving_label behaved.linkable own free).improves (.inl (anchor_silent noop))
  | case6 passed e next rest noop label destination own other ih =>
    refine .trans (improves_follow _ _ next (anchor_silent noop) (.inr ?_)) ?_
    · simp [own]
    · simpa only [follow, other, own, retarget_reverse] using ih
  | case7 passed e next rest noop ih => simpa using ih

theorem forwarding?_eq_some {e : Entry} {label destination : String}
    (forwards : forwarding? e = some (label, destination)) :
    e.label = some label ∧ label ≠ destination ∧
      ∃ t, e.instr = .jump .j t ∧ t.label = destination := by
  obtain ⟨own, instr⟩ := e
  unfold forwarding? at forwards
  split at forwards
  case h_1 label' target own target' =>
    split at forwards
    case isTrue jump =>
      cases forwards
      obtain ⟨t, rfl⟩ : ∃ t, instr = .jump .j t := isJump_iff.1 jump.1
      cases target'
      exact ⟨own, jump.2, target, rfl, rfl⟩
    case isFalse => cases forwards
  case h_2 => cases forwards

/-- References to a labelled jump can follow to its destination. The jump stays as it is. -/
theorem improves_forward (before rest : List Entry) {e : Entry} {label destination : String}
    (forwards : forwarding? e = some (label, destination)) :
    Improves (before ++ e :: rest)
      (retarget label destination before ++ e :: retarget label destination rest) := by
  obtain ⟨own, different, t, jump, rfl⟩ := forwarding?_eq_some forwards
  refine .of_behaved fun behaved => ?_
  have target : e.target? = some t := by
    rw [Entry.target?, jump]
    rfl
  obtain ⟨d, dest⟩ := behaved.linkable.bound (by simp) target
  have goes := improves_retarget ⟨e, getElem?_middle, own⟩ dest
    ⟨e, getElem?_middle, .inr ⟨t, jump, dest⟩⟩
  have stays : e.retarget label t.label = e := retarget_of_ne fun t' target' => by
    rw [target] at target'
    cases target'
    exact different.symm
  rwa [retarget_middle, stays] at goes

/-- A jump that nothing falls through to can be dropped once no reference to its label is left. -/
theorem improves_unreached {passed rest : List Entry} {e : Entry} {label destination : String}
    (own : e.label = some label) (different : label ≠ destination)
    (stays : e.retarget label destination = e)
    (unreachable :
      (passed.head?.map fun before => before.instr.neverFallsThrough).getD false = true) :
    Improves ((retarget label destination passed).reverse ++ e :: retarget label destination rest)
      ((retarget label destination passed).reverse ++ retarget label destination rest) := by
  refine .of_behaved fun behaved => ?_
  have unreferenced : ∀ e₁ ∈ (retarget label destination passed).reverse ++
      e :: retarget label destination rest, ∀ t, e₁.target? = some t → t.label ≠ label := by
    intro e₁ member t target
    refine unreferenced_retarget (passed.reverse ++ e :: rest) different ?_ target
    rwa [retarget_middle, retarget_reverse, stays]
  refine (drops_unreferenced behaved.linkable fun e₁ member t target same =>
    unreferenced e₁ member t target (Option.some.inj (same.symm.trans own))).improves (.inr ?_)
  cases passed with
  | nil => cases unreachable
  | cons previous passed =>
    refine ⟨by simp, ⟨previous.retarget label destination, ?_, ?_⟩, ?_⟩
    · simp [retarget]
    · exact (neverFallsThrough_mapTarget _ _).trans unreachable
    · rintro e₁ member t target ⟨e₂, found, labelled⟩
      rw [getElem?_middle] at found
      cases found
      rw [own] at labelled
      exact unreferenced e₁ member t target (Option.some.inj labelled).symm

/-- Collapsing chains of jumps changes nothing that entries do. -/
theorem improves_collapseChains (passed rest : List Entry) :
    Improves (passed.reverse ++ rest) (collapseChains passed rest) := by
  fun_induction collapseChains passed rest with
  | case1 passed => simpa using Improves.refl passed.reverse
  | case2 passed e rest plain ih => simpa using ih
  | case3 passed e rest label destination forwards moved unreachable passed' rest' dropped ih =>
    obtain ⟨own, different, t, jump, rfl⟩ := forwarding?_eq_some forwards
    have forward := improves_forward passed.reverse rest forwards
    rw [retarget_reverse] at forward
    refine .trans forward (.trans ?_ ih)
    refine improves_unreached own different (retarget_of_ne fun t' target => ?_)
      (Bool.and_eq_true_iff.1 dropped).2
    rw [Entry.target?, jump] at target
    cases target
    exact different.symm
  | case4 passed e rest label destination forwards moved unreachable passed' rest' kept ih =>
    have forward := improves_forward passed.reverse rest forwards
    rw [retarget_reverse] at forward
    refine .trans forward ?_
    simpa using ih

theorem jump_silent {es before rest : List Entry} {e next : Entry}
    (split : es = before ++ e :: next :: rest) (jumps : jumpsTo e next) :
    GoesSilently es before.length (before.length + 1) := by
  subst split
  obtain ⟨own, instr⟩ := e
  rw [jumpsTo, Bool.and_eq_true] at jumps
  obtain ⟨t, rfl⟩ := isJump_iff.1 jumps.1
  refine ⟨_, getElem?_middle, .inr ⟨t, rfl, next, ?_, of_decide_eq_true jumps.2⟩⟩
  rw [List.getElem?_append_right (by omega)]
  simp

theorem jumps_labelled {e next : Entry} (jumps : jumpsTo e next) :
    e.label = none ∨ next.label.isSome := by
  rw [jumpsTo, Bool.and_eq_true] at jumps
  obtain ⟨t, -, labelled⟩ := (Option.any_eq_true _ _).1 jumps.2
  rw [of_decide_eq_true labelled]
  exact .inr rfl

theorem follow_reverse (e next : Entry) (xs : List Entry) :
    follow e next xs.reverse = (follow e next xs).reverse := by
  unfold follow
  split
  · exact retarget_reverse _ _ _
  · rfl

/-- Dropping jumps to the next entry changes nothing that entries do. -/
theorem improves_dropFallthroughJumps (passed rest : List Entry) :
    Improves (passed.reverse ++ rest) (dropFallthroughJumps passed rest) := by
  fun_induction dropFallthroughJumps passed rest with
  | case1 passed e next rest jumps emptied ih =>
    have emptied' : passed = [] := List.eq_nil_of_length_eq_zero (by
      rw [← length_follow e next passed, emptied]
      rfl)
    subst emptied'
    have improves := improves_follow [] rest _ (jump_silent rfl jumps) (jumps_labelled jumps)
    refine .trans improves ?_
    simpa [emptied] using ih
  | case2 passed e next rest jumps previous passed' behind ih =>
    have improves := improves_follow passed.reverse rest _ (jump_silent rfl jumps)
      (jumps_labelled jumps)
    rw [follow_reverse, behind] at improves
    refine .trans improves ?_
    simpa using ih
  | case3 passed e next rest stays ih => simpa using ih
  | case4 passed rest _ => exact .refl _

/-- Running the passes changes nothing that entries do. -/
theorem improves_optimize (es : List Entry) : Improves es (optimize es) :=
  .trans (improves_dropAnchors [] es) (.trans (improves_collapseChains [] _)
    (improves_dropFallthroughJumps [] _))

open Machine in
/-- Entries that link, that use the return address for returns alone and whose calls have a word for
the address behind them link again once they are optimized. On a machine with any data memory the
optimized program then ends where the original ends, in no more steps, leaves data memory where the
original leaves it, and never stops where the original never stops. -/
theorem optimize_preserves_behaviour {es : List Entry} {original : Program}
    (linked : Program.link es = .ok original)
    (spares : ∀ e ∈ es, e.instr.SparesReturnAddress)
    (returns : ∀ a e, es[a]? = some e → e.instr.isCall → a + 1 < 2 ^ 31) :
    ∃ optimized, Program.link (optimize es) = .ok optimized ∧ ∀ words,
      (∀ n after, EndsWithin original (fresh words) n after →
        ∃ after', EndsWithin optimized (fresh words) n after' ∧ Agree after after') ∧
      (∀ n after a, LeavesMemoryWithin original (fresh words) n after a →
        ∃ after', LeavesMemoryWithin optimized (fresh words) n after' a ∧ Agree after after') ∧
      (NeverStops original (fresh words) → NeverStops optimized (fresh words)) := by
  have behaved : Behaved es :=
    ⟨(linked_of_link linked).linkable, fun member => spares _ member, fun found => returns _ _ found⟩
  obtain ⟨behaved', refines⟩ := improves_optimize es behaved
  obtain ⟨optimized, linked'⟩ := behaved'.linkable.link
  refine ⟨optimized, linked', fun words => ?_⟩
  have refined := refines linked linked' words
  exact ⟨fun _ _ => refined.ends, fun _ _ _ => refined.leavesMemory, refined.neverStops⟩

/-- A call to a function behind a chain of jumps. All three passes have something to do. -/
def callBehindJumps : List Entry :=
  [.plain (.jump .jal ⟨"first", none⟩), .plain (.jump .j ⟨"end", none⟩),
    .labeled "first" (.jump .j ⟨"second", none⟩), .labeled "second" MachineInstr.noop,
    .plain (.addi ⟨8, by decide⟩ Reg.zero 7), .plain (.jr Reg.returnAddress),
    .labeled "end" MachineInstr.noop]

theorem optimize_preserves_call_behind_jumps :
    ∃ original optimized after, Program.link callBehindJumps = .ok original ∧
      Program.link (optimize callBehindJumps) = .ok optimized ∧
      Machine.EndsWithin original (Machine.fresh 8) 8 after ∧
      ∃ after', Machine.EndsWithin optimized (Machine.fresh 8) 8 after' ∧
        Machine.Agree after after' := by
  obtain ⟨original, linked⟩ : ∃ original, Program.link callBehindJumps = .ok original := ⟨_, rfl⟩
  obtain ⟨optimized, linked', behaves⟩ := optimize_preserves_behaviour linked (by decide) (by
    intro a e found _
    have inside := (List.getElem?_eq_some_iff.1 found).1
    have length : callBehindJumps.length = 7 := rfl
    omega)
  cases linked
  refine ⟨_, optimized, _, rfl, linked', ⟨7, rfl, rfl⟩, ?_⟩
  exact (behaves 8).1 8 _ ⟨7, rfl, rfl⟩

end SmallC
