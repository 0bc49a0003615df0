import SmallC.Proofs.Program.Labels
import SmallC.Proofs.Program.Settling

/-!
Dangling labels: those that entries refer to and do not bind. Where labels are distinct, each pass leaves them distinct
and the dangling labels what they were. References only move from one label to another that the same entries have or
already refer to, and an entry that alone refers to a label is not dropped. So entries link behind the passes exactly if
they link in front of them.
-/
namespace SmallC

open Peephole

variable {es es' before after passed rest : List Entry} {e next : Entry} {label source destination : String}

/-- The labels that entries refer to and do not bind. -/
def dangling (es : List Entry) : Set String := {label | Refers es label ∧ label ∉ labelsOf es}

theorem mem_dangling : label ∈ dangling es ↔ Refers es label ∧ label ∉ labelsOf es := Iff.rfl

/-- Entries instead of which others can stand: if their labels are distinct, so are those of the others, and the same
labels dangle. -/
def Steadies (es es' : List Entry) : Prop :=
  (labelsOf es).Nodup → (labelsOf es').Nodup ∧ dangling es' = dangling es

theorem Steadies.refl (es : List Entry) : Steadies es es := fun distinct => ⟨distinct, rfl⟩

theorem Steadies.trans {es'' : List Entry} (first : Steadies es es') (second : Steadies es' es'') :
    Steadies es es'' := by
  intro distinct
  obtain ⟨distinct', same⟩ := first distinct
  obtain ⟨distinct'', same'⟩ := second distinct'
  exact ⟨distinct'', same'.trans same⟩

theorem refers_around : Refers (before ++ e :: after) label ↔ e.refersTo label = true ∨ Refers (before ++ after) label := by
  simp only [Refers, List.mem_append, List.mem_cons]
  grind

theorem labelsOf_around (own : e.label = some source) :
    (labelsOf (before ++ e :: after)).Perm (source :: labelsOf (before ++ after)) := by
  simp only [labelsOf_append, labelsOf_cons, own, Option.toList_some]
  exact List.perm_middle

/-! ### One rewrite -/

/-- An entry without a label can be dropped if what it refers to is bound. -/
theorem steadies_drop (plain : e.label = none)
    (bound : ∀ label, e.refersTo label = true → label ∈ labelsOf (before ++ after)) :
    Steadies (before ++ e :: after) (before ++ after) := by
  have same : labelsOf (before ++ e :: after) = labelsOf (before ++ after) := by simp [plain]
  refine fun distinct => ⟨same ▸ distinct, Set.ext fun label => ?_⟩
  simp only [mem_dangling, same, refers_around]
  constructor
  · exact fun ⟨refers, unbound⟩ => ⟨.inr refers, unbound⟩
  · rintro ⟨own | refers, unbound⟩
    · exact absurd (bound label own) unbound
    · exact ⟨refers, unbound⟩

/-- A label can move on from an anchor to the next entry. -/
theorem steadies_move (anchor : e.target? = none) (own : e.label = some source) (free : next.label = none) :
    Steadies (before ++ e :: next :: rest) (before ++ { next with label := some source } :: rest) := by
  have same : labelsOf (before ++ e :: next :: rest) = labelsOf (before ++ { next with label := some source } :: rest) := by
    simp [own, free]
  refine fun distinct => ⟨same ▸ distinct, Set.ext fun label => ?_⟩
  have none : e.refersTo label = false := by rw [Entry.refersTo, anchor]; rfl
  have next' : Entry.refersTo label { next with label := some source } = next.refersTo label := rfl
  simp only [mem_dangling, ← same, refers_around, none, next', Bool.false_eq_true, false_or]

/-- References to the label of an entry can follow to another label and the entry can be dropped. The other label is
bound, or the entry is not the only one that refers to it then. -/
theorem steadies_forward (own : e.label = some source) (goes : ∀ label, e.refersTo label = true → label = destination)
    (found : destination ∈ labelsOf (before ++ after) ∨
      source ≠ destination ∧ e.refersTo destination = true ∧ Refers (before ++ after) source) :
    Steadies (before ++ e :: after) (retarget source destination (before ++ after)) := by
  intro distinct
  obtain ⟨fresh, distinct'⟩ := List.nodup_cons.1 ((labelsOf_around own).nodup_iff.1 distinct)
  refine ⟨by rwa [labelsOf_retarget], Set.ext fun label => ?_⟩
  simp only [mem_dangling, labelsOf_retarget, refers_retarget, refers_around,
    (labelsOf_around own).mem_iff, List.mem_cons, not_or]
  constructor
  · rintro ⟨⟨refers, other⟩ | ⟨-, rfl⟩, unbound⟩
    · exact ⟨.inr refers, other, unbound⟩
    · obtain ⟨other, refers, -⟩ := found.resolve_left unbound
      exact ⟨.inl refers, other.symm, unbound⟩
  · rintro ⟨refers | refers, other, unbound⟩
    · cases goes label refers
      exact ⟨.inr ⟨(found.resolve_left unbound).2.2, rfl⟩, unbound⟩
    · exact ⟨.inl ⟨refers, other⟩, unbound⟩

/-- References to a label that is bound can follow to another one that is referred to anyway. -/
theorem steadies_retarget (bound : source ∈ labelsOf es) (refers : Refers es destination) :
    Steadies es (retarget source destination es) := by
  refine fun distinct => ⟨by rwa [labelsOf_retarget], Set.ext fun label => ?_⟩
  simp only [mem_dangling, labelsOf_retarget, refers_retarget]
  constructor
  · rintro ⟨⟨still, -⟩ | ⟨-, rfl⟩, unbound⟩
    · exact ⟨still, unbound⟩
    · exact ⟨refers, unbound⟩
  · rintro ⟨still, unbound⟩
    refine ⟨.inl ⟨still, ?_⟩, unbound⟩
    rintro rfl
    exact unbound bound

/-! ### The passes -/

theorem target?_of_isNoop (noop : e.instr.isNoop = true) : e.target? = none := by
  have is : e.instr = MachineInstr.noop := of_decide_eq_true noop
  rw [Entry.target?, is]
  rfl

theorem not_refersTo_of_isNoop (noop : e.instr.isNoop = true) : e.refersTo label ≠ true := by
  rw [Entry.refersTo, target?_of_isNoop noop]
  exact Bool.false_ne_true

theorem steadies_dropAnchors (passed rest : List Entry) :
    Steadies (passed.reverse ++ rest) (dropAnchors passed rest) := by
  fun_induction dropAnchors passed rest with
  | case1 passed => simpa using Steadies.refl passed.reverse
  | case2 passed e anchor =>
    have drops : Steadies (passed.reverse ++ [e]) (passed.reverse ++ []) :=
      steadies_drop anchor.2 fun label refers => absurd refers (not_refersTo_of_isNoop anchor.1)
    simpa using drops
  | case3 passed e stays => simpa using Steadies.refl (passed.reverse ++ [e])
  | case4 passed e next rest noop own ih =>
    exact (steadies_drop own fun label refers => absurd refers (not_refersTo_of_isNoop noop)).trans ih
  | case5 passed e next rest noop label free own ih => exact (steadies_move (target?_of_isNoop noop) own free).trans ih
  | case6 passed e next rest noop label destination other own ih =>
    rw [← retarget_reverse, ← retarget_append] at ih
    refine (steadies_forward own (fun label refers => absurd refers (not_refersTo_of_isNoop noop)) (.inl ?_)).trans ih
    simp [other]
  | case7 passed e next rest noop ih => simpa using ih

theorem steadies_collapseChains (passed rest : List Entry) :
    Steadies (passed.reverse ++ rest) (collapseChains passed rest) := by
  fun_induction collapseChains passed rest with
  | case1 passed => simpa using Steadies.refl passed.reverse
  | case2 passed e rest plain ih => simpa using ih
  | case3 passed e rest label destination forwards moved unreachable passed' rest' dropped ih =>
    obtain ⟨other, refers, -⟩ := refersTo_of_forwarding forwards
    have follows : Refers (passed.reverse ++ rest) label := refers_of_any (Bool.and_eq_true_iff.1 dropped).1
    rw [← retarget_reverse, ← retarget_append] at ih
    refine (steadies_forward (forwarding?_eq_some forwards).1 (fun _ => eq_of_forwarding forwards) (.inr ?_)).trans ih
    exact ⟨other, refers, follows⟩
  | case4 passed e rest label destination forwards moved unreachable passed' rest' kept ih =>
    obtain ⟨-, refers, stays⟩ := refersTo_of_forwarding forwards
    have whole : (e :: passed').reverse ++ rest' = retarget label destination (passed.reverse ++ e :: rest) := by
      rw [retarget_around stays]
      simp [passed', rest']
    rw [whole] at ih
    refine (steadies_retarget ?_ ⟨e, by simp, refers⟩).trans ih
    simp [(forwarding?_eq_some forwards).1]

theorem steadies_follow (jumps : jumpsTo e next = true) :
    Steadies (before ++ e :: next :: rest) (follow e next before ++ follow e next (next :: rest)) := by
  unfold follow
  split
  · next label destination own labelled =>
    rw [← retarget_append]
    refine steadies_forward own (fun label refers => ?_) (.inl (by simp [labelled]))
    exact Option.some.inj ((label_of_jumpsTo jumps refers).symm.trans labelled)
  · next unlabelled =>
    have plain : e.label = none := by
      rcases jumps_labelled jumps with plain | labelled
      · exact plain
      · obtain ⟨other, labelled⟩ := Option.isSome_iff_exists.1 labelled
        exact Option.eq_none_iff_forall_ne_some.2 fun label own => unlabelled label other own labelled
    exact steadies_drop plain fun label refers => by simp [label_of_jumpsTo jumps refers]

theorem steadies_dropFallthroughJumps (passed rest : List Entry) :
    Steadies (passed.reverse ++ rest) (dropFallthroughJumps passed rest) := by
  fun_induction dropFallthroughJumps passed rest with
  | case1 passed e next rest jumps emptied ih =>
    have follows : Steadies (passed.reverse ++ e :: next :: rest) _ := steadies_follow jumps
    rw [follow_reverse, emptied] at follows
    exact follows.trans ih
  | case2 passed e next rest jumps previous passed' split ih =>
    have follows : Steadies (passed.reverse ++ e :: next :: rest) _ := steadies_follow jumps
    rw [follow_reverse, split] at follows
    refine follows.trans ?_
    simpa using ih
  | case3 passed e next rest stays ih => simpa using ih
  | case4 passed rest short => exact .refl _

theorem steadies_optimize (es : List Entry) : Steadies es (optimize es) :=
  (steadies_dropAnchors [] es).trans ((steadies_collapseChains [] _).trans (steadies_dropFallthroughJumps [] _))

/-! ### Linking -/

/-- Entries link exactly if their labels are distinct and none dangles. -/
theorem link_ok_iff : (∃ p, Program.link es = .ok p) ↔ (labelsOf es).Nodup ∧ dangling es = ∅ := by
  have bound : dangling es = ∅ ↔ ∀ e ∈ es, ∀ t, e.target? = some t → t.label ∈ labelsOf es := by
    simp only [Set.eq_empty_iff_forall_notMem, mem_dangling, Refers, Entry.refersTo_iff, not_and, not_not]
    constructor
    · exact fun none e member t target => none t.label ⟨e, member, t, target, rfl⟩
    · rintro each label ⟨e, member, t, target, rfl⟩
      exact each e member t target
  rw [bound, ← linkable_iff]
  constructor
  · rintro ⟨p, linked⟩
    exact (linked_of_link linked).linkable
  · exact Linkable.link

/-- With distinct labels, the passes leave labels distinct and the same ones dangling, so that entries link behind them
exactly if they link in front of them. -/
theorem optimize_keeps_dangling (distinct : (labelsOf es).Nodup) :
    (labelsOf (optimize es)).Nodup ∧ dangling (optimize es) = dangling es ∧
      ((∃ p, Program.link (optimize es) = .ok p) ↔ ∃ p, Program.link es = .ok p) := by
  obtain ⟨distinct', same⟩ := steadies_optimize es distinct
  refine ⟨distinct', same, ?_⟩
  rw [link_ok_iff, link_ok_iff, same]
  simp only [distinct, distinct', true_and]

/-- A branch to a chain of jumps that leads to no entry. The chain goes; the label it leads to is still missed. -/
def chainToNowhere : List Entry :=
  [.plain (MachineInstr.branchTo .bne Reg.result Reg.zero "chain"), .plain (MachineInstr.jumpTo "end"),
    .labeled "chain" (MachineInstr.jumpTo "nowhere"), .labeled "end" MachineInstr.noop]

theorem optimize_keeps_dangling_nowhere :
    (labelsOf chainToNowhere).Nodup ∧ "nowhere" ∈ dangling (optimize chainToNowhere) ∧
      ¬ ∃ p, Program.link (optimize chainToNowhere) = .ok p := by
  have distinct : (labelsOf chainToNowhere).Nodup := by decide
  obtain ⟨-, same, links⟩ := optimize_keeps_dangling distinct
  have dangles : "nowhere" ∈ dangling chainToNowhere :=
    ⟨⟨.labeled "chain" (MachineInstr.jumpTo "nowhere"), by decide, by decide⟩, by decide⟩
  refine ⟨distinct, same ▸ dangles, fun linked => ?_⟩
  rw [links, link_ok_iff] at linked
  rw [linked.2] at dangles
  exact dangles

end SmallC
