import SmallC.Program.Entry

/-!
Peephole passes over unlinked entries. Three passes run in order: anchors that do nothing are dropped
and their labels move forward; references to a labelled jump go straight to its destination; and a
jump to the entry behind it is dropped.

Each pass walks a list that is split at the current entry. The entries already passed stand newest
first, and a change of label reaches both parts.
-/
namespace SmallC.Peephole

/-- Sends every reference to one label to another. -/
def retarget (source destination : String) (entries : List Entry) : List Entry :=
  entries.map (Entry.retarget source destination)

@[simp]
theorem length_retarget (source destination : String) (entries : List Entry) :
    (retarget source destination entries).length = entries.length := by
  simp [retarget]

/-- Drops anchors. The label of an anchor moves to the next entry, or, where that has a label of its
own, references follow to it. A label at the very end keeps its anchor, because that is where
execution ends. -/
def dropAnchors (passed : List Entry) : List Entry → List Entry
  | [] => passed.reverse
  | [e] => if e.instr.isNoop ∧ e.label = none then passed.reverse else (e :: passed).reverse
  | e :: next :: rest =>
    if e.instr.isNoop then
      match e.label, next.label with
      | none, _ => dropAnchors passed (next :: rest)
      | some label, none => dropAnchors passed ({ next with label := some label } :: rest)
      | some label, some other =>
        dropAnchors (retarget label other passed) (retarget label other (next :: rest))
    else dropAnchors (e :: passed) (next :: rest)
termination_by rest => rest.length

/-- The label and the destination of an entry that is a labelled jump elsewhere. -/
def forwarding? (e : Entry) : Option (String × String) :=
  match e.label, e.target? with
  | some label, some target =>
    if e.instr.isJump ∧ label ≠ target.label then some (label, target.label) else none
  | _, _ => none

/-- Collapses chains of jumps. The labelled jump itself goes only if some reference was moved and
nothing can fall through into it. -/
def collapseChains (passed : List Entry) (rest : List Entry) : List Entry :=
  match rest with
  | [] => passed.reverse
  | e :: rest =>
    match forwarding? e with
    | none => collapseChains (e :: passed) rest
    | some (label, destination) =>
      let moved := passed.any (Entry.refersTo label) || rest.any (Entry.refersTo label)
      let unreachable := (passed.head?.map fun before => before.instr.neverFallsThrough).getD false
      let passed := retarget label destination passed
      let rest' := retarget label destination rest
      if moved && unreachable then collapseChains passed rest'
      else collapseChains (e :: passed) rest'
termination_by rest.length
decreasing_by all_goals simp [retarget]

/-- Whether an entry is a jump to the label of the entry behind it. -/
def jumpsTo (e next : Entry) : Bool :=
  e.instr.isJump && e.target?.any fun target => next.label = some target.label

/-- Lets references to the label of one entry follow to the label of another, where both have one. -/
def follow (e next : Entry) (entries : List Entry) : List Entry :=
  match e.label, next.label with
  | some label, some other => retarget label other entries
  | _, _ => entries

@[simp]
theorem length_follow (e next : Entry) (entries : List Entry) :
    (follow e next entries).length = entries.length := by
  unfold follow
  split <;> simp

/-- Drops jumps to the next entry. References to the label of a dropped jump follow to the next
entry, and the entry before is looked at again, since it may now precede its own target. -/
def dropFallthroughJumps (passed : List Entry) (rest : List Entry) : List Entry :=
  match rest with
  | e :: next :: rest =>
    if jumpsTo e next then
      match _split : follow e next passed with
      | [] => dropFallthroughJumps [] (follow e next (next :: rest))
      | before :: passed => dropFallthroughJumps passed (before :: follow e next (next :: rest))
    else dropFallthroughJumps (e :: passed) (next :: rest)
  | rest => passed.reverse ++ rest
termination_by passed.length + 2 * rest.length
decreasing_by
  · simp; omega
  · have same := congrArg List.length _split
    simp at same
    simp
    omega
  · simp; omega

/-- Runs the three passes in order. -/
def optimize (entries : List Entry) : List Entry :=
  dropFallthroughJumps [] (collapseChains [] (dropAnchors [] entries))

end SmallC.Peephole
