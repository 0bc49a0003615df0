/-!
Orders of use as linked slots. Every key has a slot, which knows the slots of the keys used next before it and
next after it, so that a key is taken out of the order, or moved to one of its ends, by changing what its neighbours
know. The slot of a key that was removed is used again.
-/
namespace SmallC

/-- A slot in use: its key, and the slots on both sides of it. -/
structure LinkedOrder.Link (κ : Type) where
  key : κ
  /-- The slot of the key that was used next before this one. -/
  earlier : Option Nat
  /-- The slot of the key that was used next after this one. -/
  later : Option Nat

/-- An order of distinct keys whose slots are linked from the least to the most recently used. -/
structure LinkedOrder (κ : Type) where
  /-- What is in each slot; a vacant one holds nothing. -/
  links : Array (Option (LinkedOrder.Link κ))
  /-- The slot of every key. -/
  slots : List (κ × Nat)
  /-- The slot of the least recently used key. -/
  oldest : Option Nat
  /-- The slot of the most recently used key. -/
  newest : Option Nat
  /-- The slots to be used again, the one that became vacant last first. -/
  vacant : List Nat

namespace LinkedOrder

variable {κ : Type}

/-- No keys, and no slots either. -/
def empty : LinkedOrder κ := ⟨#[], [], none, none, []⟩

/-- Number of keys. -/
def size (o : LinkedOrder κ) : Nat := o.slots.length

/-- Whether there are no keys. -/
def isEmpty (o : LinkedOrder κ) : Bool := o.slots.isEmpty

/-- What is in a slot. -/
def link? (o : LinkedOrder κ) (slot : Nat) : Option (Link κ) := o.links[slot]?.join

/-- Changes what is in a slot, unless the slot is vacant. -/
def modify (o : LinkedOrder κ) (slot : Nat) (f : Link κ → Link κ) : LinkedOrder κ :=
  { o with links := o.links.modify slot (Option.map f) }

/-- Lets the slot behind another one be `later`; where there is no other one, it is the first of the order. -/
def joinLater (o : LinkedOrder κ) (slot later : Option Nat) : LinkedOrder κ :=
  match slot with
  | some slot => o.modify slot fun link => { link with later }
  | none => { o with oldest := later }

/-- Lets the slot in front of another one be `earlier`; where there is no other one, it is the last of the order. -/
def joinEarlier (o : LinkedOrder κ) (slot earlier : Option Nat) : LinkedOrder κ :=
  match slot with
  | some slot => o.modify slot fun link => { link with earlier }
  | none => { o with newest := earlier }

/-- Takes a slot out of the order. -/
def unlink (o : LinkedOrder κ) (slot : Nat) : LinkedOrder κ :=
  match o.link? slot with
  | none => o
  | some link =>
    let o := o.joinLater link.earlier link.later
    let o := o.joinEarlier link.later link.earlier
    o.modify slot fun link => { link with earlier := none, later := none }

/-- Puts a slot at the end of the order. -/
def linkLast (o : LinkedOrder κ) (slot : Nat) : LinkedOrder κ :=
  let last := o.newest
  let o := o.modify slot fun link => { link with earlier := last, later := none }
  let o := o.joinLater last (some slot)
  { o with newest := some slot }

/-- Puts a slot at the front of the order. -/
def linkFirst (o : LinkedOrder κ) (slot : Nat) : LinkedOrder κ :=
  let first := o.oldest
  let o := o.modify slot fun link => { link with earlier := none, later := first }
  let o := o.joinEarlier first (some slot)
  { o with oldest := some slot }

/-- Puts a link into a vacant slot, or into a new one if none is vacant. -/
def allot (o : LinkedOrder κ) (link : Link κ) : LinkedOrder κ × Nat :=
  match o.vacant with
  | slot :: vacant => ({ o with links := o.links.setIfInBounds slot (some link), vacant }, slot)
  | [] => ({ o with links := o.links.push (some link) }, o.links.size)

/-- The key that was used least recently, if there is any. -/
def least? (o : LinkedOrder κ) : Option κ := (o.oldest.bind o.link?).map Link.key

/-- Where a walk through the order is. It yields the key of the slot that it has come to and goes on to the slot
behind that, or ends. -/
def next? (o : LinkedOrder κ) (cursor : Option Nat) : Option (κ × Option Nat) := do
  let link ← o.link? (← cursor)
  return (link.key, link.later)

variable [DecidableEq κ]

/-- Whether a key is in the order. -/
def contains (o : LinkedOrder κ) (key : κ) : Bool := (o.slots.lookup key).isSome

/-- Makes a key the most recently used one, adding it if it is missing. -/
def touch (o : LinkedOrder κ) (key : κ) : LinkedOrder κ :=
  match o.slots.lookup key with
  | some slot => (o.unlink slot).linkLast slot
  | none =>
    let (o, slot) := o.allot ⟨key, none, none⟩
    { o with slots := (key, slot) :: o.slots }.linkLast slot

/-- Makes a key the least recently used one, if it is in the order. -/
def demote (o : LinkedOrder κ) (key : κ) : LinkedOrder κ :=
  match o.slots.lookup key with
  | some slot => (o.unlink slot).linkFirst slot
  | none => o

/-- Takes a key out and says whether it was there. Its slot becomes vacant. -/
def remove (o : LinkedOrder κ) (key : κ) : LinkedOrder κ × Bool :=
  match o.slots.lookup key with
  | none => (o, false)
  | some slot =>
    let o := { o with slots := o.slots.filter fun entry => entry.1 ≠ key }.unlink slot
    ({ o with links := o.links.setIfInBounds slot none, vacant := slot :: o.vacant }, true)

end LinkedOrder

end SmallC
