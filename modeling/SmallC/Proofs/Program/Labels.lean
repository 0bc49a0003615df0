import SmallC.Program.Draft
import SmallC.Proofs.Program.Optimization

/-!
The labels of entries and what refers to them. Entries are closed if no label stands twice and every reference
finds its label, calls of functions of other sources apart. The peephole passes keep that, and closed entries link
unless a function is missing.
-/
namespace SmallC

open Peephole

variable {missing : String → Prop} {es before after passed rest : List Entry} {e : Entry} {source destination : String}

/-- The labels that entries bind, in order. -/
def labelsOf (es : List Entry) : List String := es.filterMap Entry.label

/-- The instruction refers to a function that is missing, by a call. -/
def MachineInstr.Calls (missing : String → Prop) (i : MachineInstr) : Prop :=
  ∃ t, i = .jump .jal t ∧ missing t.label

/-- No label stands twice, and every reference finds its label or is a call of a missing function. -/
structure Closed (missing : String → Prop) (es : List Entry) : Prop where
  distinct : (labelsOf es).Nodup
  bound : ∀ e ∈ es, ∀ t, e.target? = some t → t.label ∈ labelsOf es ∨ MachineInstr.Calls missing e.instr

@[simp]
theorem labelsOf_append : labelsOf (before ++ after) = labelsOf before ++ labelsOf after :=
  List.filterMap_append

@[simp]
theorem labelsOf_cons : labelsOf (e :: rest) = e.label.toList ++ labelsOf rest := by
  rw [labelsOf, List.filterMap_cons]
  cases e.label <;> rfl

@[simp]
theorem labelsOf_retarget : labelsOf (retarget source destination es) = labelsOf es := by
  rw [labelsOf, labelsOf, retarget, List.filterMap_map]
  rfl

theorem retarget_append :
    retarget source destination (before ++ after) = retarget source destination before ++ retarget source destination after :=
  List.map_append

theorem map_target? (i : MachineInstr) (g : Target → Target) : Instr.target? (i.mapTarget g) = i.target?.map g := by
  cases i <;> rfl

/-- A reference finds its label once those to one label have gone on to another. -/
theorem bound_retarget {labels : List String} (there : destination ∈ labels)
    (bound : ∀ t, e.target? = some t → t.label ∈ source :: labels ∨ MachineInstr.Calls missing e.instr) (t : Target)
    (target : (e.retarget source destination).target? = some t) :
    t.label ∈ labels ∨ MachineInstr.Calls missing (e.retarget source destination).instr := by
  obtain ⟨g, same, renames⟩ := retarget_instr source destination e
  rw [Entry.target?, same, map_target?] at target
  obtain ⟨t, referred, rfl⟩ := Option.map_eq_some_iff.1 target
  rw [same, renames, rerouted]
  split
  · exact .inl there
  · next other =>
    rcases bound t referred with found | ⟨t', is, absent⟩
    · exact .inl ((List.mem_cons.1 found).resolve_left other)
    · rw [is] at referred
      cases referred
      refine .inr ⟨g t, by rw [is]; rfl, ?_⟩
      rwa [renames, rerouted, if_neg other]

namespace Closed

theorem retarget (closed : Closed missing es) (there : destination ∈ labelsOf es) :
    Closed missing (retarget source destination es) := by
  refine ⟨by rw [labelsOf_retarget]; exact closed.distinct, fun e' member => ?_⟩
  obtain ⟨e, old, rfl⟩ := List.mem_map.1 member
  rw [labelsOf_retarget]
  exact bound_retarget there fun t target =>
    (closed.bound e old t target).imp_left (List.mem_cons_of_mem _)

/-- An entry without a label can be dropped. -/
theorem drop (closed : Closed missing (before ++ e :: after)) (plain : e.label = none) :
    Closed missing (before ++ after) := by
  have same : labelsOf (before ++ e :: after) = labelsOf (before ++ after) := by simp [plain]
  refine ⟨same ▸ closed.distinct, fun e' member => same ▸ closed.bound e' ?_⟩
  rcases List.mem_append.1 member with member | member
  · exact List.mem_append_left _ member
  · exact List.mem_append_right _ (List.mem_cons_of_mem _ member)

/-- An entry can be dropped once all references to its label have gone on to another. -/
theorem forward (closed : Closed missing (before ++ e :: after)) (own : e.label = some source)
    (there : destination ∈ labelsOf (before ++ after)) :
    Closed missing (Peephole.retarget source destination (before ++ after)) := by
  have labels : (labelsOf (before ++ e :: after)).Perm (source :: labelsOf (before ++ after)) := by
    simp only [labelsOf_append, labelsOf_cons, own, Option.toList_some]
    exact List.perm_middle
  refine ⟨by rw [labelsOf_retarget]; exact (List.nodup_cons.1 (labels.nodup_iff.1 closed.distinct)).2, ?_⟩
  intro e' member
  obtain ⟨e₁, old, rfl⟩ := List.mem_map.1 member
  rw [labelsOf_retarget]
  refine bound_retarget there fun t target => (closed.bound e₁ ?_ t target).imp_left labels.mem_iff.1
  rcases List.mem_append.1 old with member | member
  · exact List.mem_append_left _ member
  · exact List.mem_append_right _ (List.mem_cons_of_mem _ member)

/-- A label can move on to the next entry. -/
theorem move {next : Entry} (closed : Closed missing (before ++ e :: next :: after)) (own : e.label = some source)
    (free : next.label = none) : Closed missing (before ++ { next with label := some source } :: after) := by
  have same : labelsOf (before ++ e :: next :: after) =
      labelsOf (before ++ { next with label := some source } :: after) := by simp [own, free]
  refine ⟨same ▸ closed.distinct, fun e' member => ?_⟩
  rw [← same]
  rcases List.mem_append.1 member with member | member
  · exact closed.bound e' (List.mem_append_left _ member)
  · rcases List.mem_cons.1 member with rfl | member
    · exact closed.bound next (by simp)
    · exact closed.bound e' (by simp [member])

end Closed

theorem closed_dropAnchors (closed : Closed missing (passed.reverse ++ rest)) :
    Closed missing (dropAnchors passed rest) := by
  fun_induction dropAnchors passed rest with
  | case1 passed => simpa using closed
  | case2 passed e anchor => simpa using closed.drop anchor.2
  | case3 passed e _ => simpa using closed
  | case4 passed e next rest noop own ih => exact ih (closed.drop own)
  | case5 passed e next rest noop label free own ih => exact ih (closed.move own free)
  | case6 passed e next rest noop label destination other own ih =>
    refine ih ?_
    rw [← retarget_reverse, retarget, retarget, ← List.map_append]
    exact closed.forward own (by simp [other])
  | case7 passed e next rest noop ih =>
    refine ih ?_
    rwa [List.reverse_cons, List.append_assoc]

theorem closed_collapseChains (closed : Closed missing (passed.reverse ++ rest)) :
    Closed missing (collapseChains passed rest) := by
  -- A labelled jump elsewhere has its destination among the labels of the other entries.
  have there : ∀ {passed rest : List Entry} {e : Entry} {label destination : String},
      forwarding? e = some (label, destination) → Closed missing (passed.reverse ++ e :: rest) →
      e.label = some label ∧ destination ∈ labelsOf (passed.reverse ++ rest) ∧
        e.retarget label destination = e := by
    intro passed rest e label destination forwards closed
    obtain ⟨own, other, t, jump, rfl⟩ := forwarding?_eq_some forwards
    have target : e.target? = some t := by rw [Entry.target?, jump]; rfl
    have elsewhere : ∀ t', e.target? = some t' → t'.label ≠ label := fun t' is => by
      cases Option.some.inj (target.symm.trans is)
      exact Ne.symm other
    refine ⟨own, ?_, retarget_of_ne elsewhere⟩
    rcases closed.bound e (by simp) t target with found | ⟨t', is, -⟩
    · simp only [labelsOf_append, labelsOf_cons, own, Option.toList_some, List.mem_append, List.mem_singleton] at found ⊢
      rcases found with found | same | found
      · exact .inl found
      · exact absurd same.symm other
      · exact .inr found
    · rw [jump] at is
      cases is
  fun_induction collapseChains passed rest with
  | case1 passed => simpa using closed
  | case2 passed e rest plain ih =>
    refine ih ?_
    rwa [List.reverse_cons, List.append_assoc]
  | case3 passed e rest label destination forwards moved unreachable passed' rest' dropped ih =>
    obtain ⟨own, found, -⟩ := there forwards closed
    refine ih ?_
    rw [← retarget_reverse, ← retarget_append]
    exact closed.forward own found
  | case4 passed e rest label destination forwards moved unreachable passed' rest' kept ih =>
    obtain ⟨own, found, same⟩ := there forwards closed
    refine ih ?_
    have found' : destination ∈ labelsOf (passed.reverse ++ e :: rest) := by
      simp only [labelsOf_append, labelsOf_cons, List.mem_append] at found ⊢
      tauto
    have moved' : Closed missing (Peephole.retarget label destination _) := closed.retarget found'
    rw [retarget_middle, same, retarget_reverse] at moved'
    rwa [List.reverse_cons, List.append_assoc]

theorem closed_dropFallthroughJumps (closed : Closed missing (passed.reverse ++ rest)) :
    Closed missing (dropFallthroughJumps passed rest) := by
  -- References to the label of a jump to the next entry follow to that entry.
  have followed : ∀ {passed rest : List Entry} {e next : Entry}, jumpsTo e next →
      Closed missing (passed.reverse ++ e :: next :: rest) →
      Closed missing ((follow e next passed).reverse ++ follow e next (next :: rest)) := by
    intro passed rest e next jumps closed
    rw [← follow_reverse]
    unfold follow
    split
    · next label destination own labelled =>
      rw [← retarget_append]
      exact closed.forward own (by simp [labelled])
    · next unlabelled =>
      have labelled : next.label.isSome := by
        rw [jumpsTo, Bool.and_eq_true] at jumps
        obtain ⟨t, -, is⟩ := (Option.any_eq_true _ _).1 jumps.2
        rw [of_decide_eq_true is]
        rfl
      obtain ⟨destination, labelled⟩ := Option.isSome_iff_exists.1 labelled
      refine closed.drop (Option.eq_none_iff_forall_ne_some.2 fun label own => unlabelled label destination own labelled)
  fun_induction dropFallthroughJumps passed rest with
  | case1 passed e next rest jumps emptied ih =>
    have left := followed jumps closed
    rw [emptied] at left
    exact ih left
  | case2 passed e next rest jumps previous passed' behind ih =>
    have left := followed jumps closed
    rw [behind, List.reverse_cons, List.append_assoc] at left
    exact ih left
  | case3 passed e next rest stays ih =>
    refine ih ?_
    rwa [List.reverse_cons, List.append_assoc]
  | case4 passed rest _ => exact closed

/-- Running the passes keeps entries closed. -/
theorem Closed.optimize (closed : Closed missing es) : Closed missing (optimize es) := by
  have anchors : Closed missing (dropAnchors [] es) := closed_dropAnchors closed
  have chains : Closed missing (collapseChains [] (dropAnchors [] es)) := closed_collapseChains anchors
  exact closed_dropFallthroughJumps chains

/-! ### Linking -/

theorem map_fst_addressesFrom (es : List Entry) (start : Nat) :
    (Link.addressesFrom start es).map Prod.fst = labelsOf es := by
  induction es generalizing start with
  | nil => rfl
  | cons e rest ih =>
    rw [Link.addressesFrom, labelsOf_cons]
    cases e.label with
    | none => exact ih (start + 1)
    | some label => exact congrArg (label :: ·) (ih (start + 1))

theorem mem_labelsOf {label : String} : label ∈ labelsOf es ↔ ∃ a, LabelAt es label a := by
  rw [labelsOf, List.mem_filterMap]
  constructor
  · rintro ⟨e, member, own⟩
    obtain ⟨a, found⟩ := List.mem_iff_getElem?.1 member
    exact ⟨a, e, found, own⟩
  · rintro ⟨a, e, found, own⟩
    exact ⟨e, List.mem_of_getElem? found, own⟩

/-- Entries are linkable if no label stands twice and every target refers to a label that stands somewhere. -/
theorem linkable_iff : Linkable es ↔
    (labelsOf es).Nodup ∧ ∀ e ∈ es, ∀ t, e.target? = some t → t.label ∈ labelsOf es := by
  rw [← map_fst_addressesFrom es 0]
  constructor
  · intro linkable
    refine ⟨linkable.nodup, fun e member t target => ?_⟩
    rw [map_fst_addressesFrom, mem_labelsOf]
    exact linkable.bound member target
  · rintro ⟨distinct, bound⟩
    refine ⟨fun {label a b} first second => ?_, fun {e t} member target => ?_⟩
    · exact Link.nodup_labels_iff.1 distinct label a b (Link.mem_addresses.2 first) (Link.mem_addresses.2 second)
    · have there := bound e member t target
      rwa [map_fst_addressesFrom, mem_labelsOf] at there

/-- A target that is bound resolves; one that is not belongs to a call of a missing function. -/
theorem resolves_of_bound {bound : List (String × Nat)} (address : Nat)
    (found : ∀ t, e.target? = some t → t.label ∈ bound.map Prod.fst ∨ MachineInstr.Calls missing e.instr) :
    (∃ e', Link.resolve bound address e = .ok e') ∨
      ∃ f, missing f ∧ Link.resolve bound address e = .error (.missingLabel f) := by
  rw [Link.resolve]
  cases target : e.target? with
  | none => exact .inl ⟨e, rfl⟩
  | some t =>
    dsimp only
    cases at' : bound.lookup t.label with
    | some destination => exact .inl ⟨_, rfl⟩
    | none =>
      refine .inr ⟨t.label, ?_, rfl⟩
      rcases found t target with there | ⟨t', is, absent⟩
      · obtain ⟨⟨label, address⟩, member, rfl⟩ := List.mem_map.1 there
        exact absurd (List.lookup_eq_none_iff.1 at' _ member) (by simp)
      · rw [Entry.target?, is] at target
        cases target
        exact absent

theorem resolveFrom_of_bound {bound : List (String × Nat)} (address : Nat)
    (found : ∀ e ∈ es, ∀ t, e.target? = some t → t.label ∈ bound.map Prod.fst ∨ MachineInstr.Calls missing e.instr) :
    (∃ out, Link.resolveFrom bound address es = .ok out) ∨
      ∃ f, missing f ∧ Link.resolveFrom bound address es = .error (.missingLabel f) := by
  induction es generalizing address with
  | nil => exact .inl ⟨[], rfl⟩
  | cons e rest ih =>
    rw [Link.resolveFrom]
    rcases resolves_of_bound address (found e List.mem_cons_self) with ⟨e', ok⟩ | ⟨f, absent, fails⟩
    · rcases ih (address + 1) (fun e member => found e (List.mem_cons_of_mem _ member)) with ⟨out, ok'⟩ | ⟨f, absent, fails⟩
      · exact .inl ⟨e' :: out, by rw [ok, ok']; rfl⟩
      · exact .inr ⟨f, absent, by rw [ok, fails]; rfl⟩
    · exact .inr ⟨f, absent, by rw [fails]; rfl⟩

/-- Closed entries link, unless a function is missing. -/
theorem Closed.link (closed : Closed missing es) :
    (∃ p, Program.link es = .ok p) ∨ ∃ f, missing f ∧ Program.link es = .error (.missingLabel f) := by
  have distinct : Link.firstRepeat [] ((Link.addresses es).map Prod.fst) = none := by
    rw [Link.firstRepeat_eq_none, Link.addresses, map_fst_addressesFrom]
    exact ⟨closed.distinct, by simp⟩
  rw [Program.link, linkEntries_eq]
  simp only [distinct]
  have found : ∀ e ∈ es, ∀ t, e.target? = some t →
      t.label ∈ (Link.addresses es).map Prod.fst ∨ MachineInstr.Calls missing e.instr := by
    rw [Link.addresses, map_fst_addressesFrom]
    exact closed.bound
  rcases resolveFrom_of_bound 0 found with ⟨out, ok⟩ | ⟨f, absent, fails⟩
  · exact .inl ⟨⟨out.toArray⟩, by rw [ok]; rfl⟩
  · exact .inr ⟨f, absent, by rw [fails]; rfl⟩

/-- The same behind the passes. -/
theorem Closed.finish {d : Draft} (closed : Closed missing d.entries.toList) (optimize : Bool) :
    (∃ p, d.finish optimize = .ok p) ∨ ∃ f, missing f ∧ d.finish optimize = .error (.missingLabel f) := by
  rw [Draft.finish]
  cases optimize with
  | true => exact closed.optimize.link
  | false => exact closed.link

end SmallC
