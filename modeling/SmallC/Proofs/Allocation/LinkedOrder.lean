import SmallC.Allocation.LinkedOrder
import SmallC.Proofs.Allocation.Recency

/-!
Orders of use as linked slots. The slots in use form a chain: each knows the slots on both sides of it, the ends know
that there is nothing beyond them, and the order knows its ends. Taking a slot out of the chain leaves the chain of the
others, and a slot that stands alone can be put to either end. So whatever is done, a walk from the oldest slot ends and
yields the keys in the order of use.
-/
namespace SmallC

namespace LinkedOrder

variable {κ : Type} {o : LinkedOrder κ} {front back entries : List (κ × Nat)} {entry : κ × Nat} {key : κ}
  {slot other : Nat}

/-- A walk through the slots that ends, and the keys that it yields. -/
inductive Yields (o : LinkedOrder κ) : Option Nat → List κ → Prop where
  | ends {cursor : Option Nat} (done : o.next? cursor = none) : Yields o cursor []
  | goesOn {cursor cursor' : Option Nat} {key : κ} {keys : List κ} (yields : o.next? cursor = some (key, cursor'))
      (rest : Yields o cursor' keys) : Yields o cursor (key :: keys)

/-- The slot of an entry, if there is one. -/
def slotOf (entry : Option (κ × Nat)) : Option Nat := entry.map Prod.snd

/-- The slots of some entries are linked in this order, and are all that the order starts and ends with. -/
structure Chain (o : LinkedOrder κ) (entries : List (κ × Nat)) : Prop where
  linked : ∀ {front entry back}, entries = front ++ entry :: back →
    o.link? entry.2 = some ⟨entry.1, slotOf front.getLast?, slotOf back.head?⟩
  oldest : o.oldest = slotOf entries.head?
  newest : o.newest = slotOf entries.getLast?
  once : (entries.map Prod.snd).Nodup

/-! ### Slots that change -/

theorem link?_modify (f : Link κ → Link κ) :
    (o.modify slot f).link? other = if other = slot then (o.link? other).map f else o.link? other := by
  simp only [link?, modify, Array.getElem?_modify]
  by_cases same : slot = other
  · rw [if_pos same, if_pos same.symm]
    cases o.links[other]? <;> rfl
  · rw [if_neg same, if_neg (Ne.symm same)]

@[simp]
theorem link?_joinLater (later : Option Nat) (neighbour : Option Nat) :
    (o.joinLater neighbour later).link? other =
      if neighbour = some other then (o.link? other).map fun link => { link with later } else o.link? other := by
  cases neighbour with
  | none => rfl
  | some slot => simp [joinLater, link?_modify, eq_comm]

@[simp]
theorem link?_joinEarlier (earlier : Option Nat) (neighbour : Option Nat) :
    (o.joinEarlier neighbour earlier).link? other =
      if neighbour = some other then (o.link? other).map fun link => { link with earlier } else o.link? other := by
  cases neighbour with
  | none => rfl
  | some slot => simp [joinEarlier, link?_modify, eq_comm]

@[simp]
theorem oldest_modify (f : Link κ → Link κ) : (o.modify slot f).oldest = o.oldest := rfl

@[simp]
theorem newest_modify (f : Link κ → Link κ) : (o.modify slot f).newest = o.newest := rfl

theorem oldest_joinLater (neighbour later : Option Nat) :
    (o.joinLater neighbour later).oldest = neighbour.elim later fun _ => o.oldest := by
  cases neighbour <;> rfl

theorem newest_joinEarlier (neighbour earlier : Option Nat) :
    (o.joinEarlier neighbour earlier).newest = neighbour.elim earlier fun _ => o.newest := by
  cases neighbour <;> rfl

/-- Only what is in slots and which slots are at the ends has changed. -/
structure Relinked (o o' : LinkedOrder κ) : Prop where
  slots : o'.slots = o.slots
  vacant : o'.vacant = o.vacant
  size : o'.links.size = o.links.size

theorem Relinked.trans {mid o' : LinkedOrder κ} (first : Relinked o mid) (second : Relinked mid o') : Relinked o o' :=
  ⟨second.slots.trans first.slots, second.vacant.trans first.vacant, second.size.trans first.size⟩

theorem relinked_modify (o : LinkedOrder κ) (slot : Nat) (f : Link κ → Link κ) : Relinked o (o.modify slot f) :=
  ⟨rfl, rfl, Array.size_modify⟩

theorem relinked_joinLater (o : LinkedOrder κ) (neighbour later : Option Nat) :
    Relinked o (o.joinLater neighbour later) := by
  cases neighbour with
  | none => exact ⟨rfl, rfl, rfl⟩
  | some slot => exact relinked_modify ..

theorem relinked_joinEarlier (o : LinkedOrder κ) (neighbour earlier : Option Nat) :
    Relinked o (o.joinEarlier neighbour earlier) := by
  cases neighbour with
  | none => exact ⟨rfl, rfl, rfl⟩
  | some slot => exact relinked_modify ..

theorem relinked_unlink (o : LinkedOrder κ) (slot : Nat) : Relinked o (o.unlink slot) := by
  unfold unlink
  split
  · exact ⟨rfl, rfl, rfl⟩
  · exact ((relinked_joinLater ..).trans (relinked_joinEarlier ..)).trans (relinked_modify ..)

theorem relinked_linkLast (o : LinkedOrder κ) (slot : Nat) : Relinked o (o.linkLast slot) :=
  ((relinked_modify ..).trans (relinked_joinLater ..)).trans ⟨rfl, rfl, rfl⟩

theorem relinked_linkFirst (o : LinkedOrder κ) (slot : Nat) : Relinked o (o.linkFirst slot) :=
  ((relinked_modify ..).trans (relinked_joinEarlier ..)).trans ⟨rfl, rfl, rfl⟩

/-! ### The chain -/

namespace Chain

/-- Entries on either side of one have other slots. -/
theorem apart (chain : o.Chain (front ++ entry :: back)) :
    (∀ e ∈ front, e.2 ≠ entry.2) ∧ (∀ e ∈ back, e.2 ≠ entry.2) ∧ ∀ e ∈ front, ∀ e' ∈ back, e.2 ≠ e'.2 := by
  have once := chain.once
  simp only [List.map_append, List.map_cons, List.nodup_append, List.nodup_cons, List.mem_map, List.mem_cons] at once
  obtain ⟨-, ⟨behind, -⟩, between⟩ := once
  refine ⟨fun e here same => ?_, fun e there same => behind ⟨e, there, same⟩, fun e here e' there same => ?_⟩
  · exact between _ ⟨e, here, rfl⟩ _ (.inl rfl) same
  · exact between _ ⟨e, here, rfl⟩ _ (.inr ⟨e', there, rfl⟩) same

/-- The slot next to one is that of an entry on that side. -/
theorem last_of_slotOf (next : slotOf front.getLast? = some slot) : ∃ e ∈ front, e.2 = slot := by
  obtain ⟨e, last, rfl⟩ := Option.map_eq_some_iff.1 next
  exact ⟨e, List.mem_of_getLast? last, rfl⟩

theorem first_of_slotOf (next : slotOf back.head? = some slot) : ∃ e ∈ back, e.2 = slot := by
  obtain ⟨e, first, rfl⟩ := Option.map_eq_some_iff.1 next
  exact ⟨e, List.mem_of_head? first, rfl⟩

/-- What is in the slots behind one of them that is taken out. -/
theorem link?_unlink (chain : o.Chain (front ++ entry :: back)) (other : Nat) :
    (o.unlink entry.2).link? other =
      if other = entry.2 then some ⟨entry.1, none, none⟩
      else if slotOf back.head? = some other then
        (o.link? other).map fun link => { link with earlier := slotOf front.getLast? }
      else if slotOf front.getLast? = some other then
        (o.link? other).map fun link => { link with later := slotOf back.head? }
      else o.link? other := by
  obtain ⟨before, behind, between⟩ := chain.apart
  rw [unlink, chain.linked rfl]
  simp only [link?_modify, link?_joinEarlier, link?_joinLater]
  by_cases own : other = entry.2
  · subst own
    have notLast : slotOf front.getLast? ≠ some entry.2 := fun next => by
      obtain ⟨e, here, same⟩ := last_of_slotOf next
      exact before e here same
    have notFirst : slotOf back.head? ≠ some entry.2 := fun next => by
      obtain ⟨e, there, same⟩ := first_of_slotOf next
      exact behind e there same
    rw [if_pos rfl, if_pos rfl, if_neg notFirst, if_neg notLast, chain.linked rfl]
    rfl
  · rw [if_neg own, if_neg own]
    by_cases first : slotOf back.head? = some other
    · have notLast : slotOf front.getLast? ≠ some other := fun next => by
        obtain ⟨e, here, same⟩ := last_of_slotOf next
        obtain ⟨e', there, same'⟩ := first_of_slotOf first
        exact between e here e' there (same.trans same'.symm)
      rw [if_pos first, if_pos first, if_neg notLast]
    · rw [if_neg first, if_neg first]

/-- Slots outside of the chain stay as they are. -/
theorem link?_unlink_of_apart (chain : o.Chain (front ++ entry :: back))
    (apart : ∀ e ∈ front ++ entry :: back, e.2 ≠ slot) : (o.unlink entry.2).link? slot = o.link? slot := by
  rw [chain.link?_unlink, if_neg (apart entry (by simp)).symm, if_neg, if_neg]
  · intro next
    obtain ⟨e, here, same⟩ := last_of_slotOf next
    exact apart e (List.mem_append_left _ here) same
  · intro next
    obtain ⟨e, there, same⟩ := first_of_slotOf next
    exact apart e (by simp [there]) same

theorem ends_unlink (chain : o.Chain (front ++ entry :: back)) :
    (o.unlink entry.2).oldest = slotOf (front ++ back).head? ∧
      (o.unlink entry.2).newest = slotOf (front ++ back).getLast? := by
  have oldest := chain.oldest
  have newest := chain.newest
  rw [unlink, chain.linked rfl]
  constructor
  · cases front with
    | nil =>
      cases back <;> rfl
    | cons first rest =>
      cases back <;> simpa [slotOf, joinLater, joinEarlier, modify, List.getLast?_cons] using oldest
  · cases back using List.reverseRecOn with
    | nil =>
      cases front using List.reverseRecOn <;> simp [slotOf, joinLater, joinEarlier, modify]
    | append_singleton rest last =>
      cases rest <;> cases front using List.reverseRecOn <;>
        simpa [slotOf, joinLater, joinEarlier, modify] using newest

/-- A list cut at one of two entries is cut on one side of the other. -/
theorem split_of_append {f b : List (κ × Nat)} {e : κ × Nat} (split : front ++ back = f ++ e :: b) :
    (∃ between, f = front ++ between ∧ back = between ++ e :: b) ∨
      ∃ between, front = f ++ e :: between ∧ b = between ++ back := by
  obtain ⟨between, rfl, rfl⟩ | ⟨between, rfl, rest⟩ := List.append_eq_append_iff.1 split
  · exact .inl ⟨between, rfl, rfl⟩
  · cases between with
    | nil => exact .inl ⟨[], by simp, rest.symm⟩
    | cons head tail =>
      cases rest
      exact .inr ⟨tail, rfl, rfl⟩

/-- A slot that is taken out stands alone, and leaves the chain of the others. -/
theorem unlink (chain : o.Chain (front ++ entry :: back)) : (o.unlink entry.2).Chain (front ++ back) := by
  obtain ⟨before, behind, between⟩ := chain.apart
  obtain ⟨oldest, newest⟩ := chain.ends_unlink
  refine ⟨fun {f e b} split => ?_, oldest, newest, ?_⟩
  · obtain ⟨gap, rfl, rfl⟩ | ⟨gap, rfl, rfl⟩ := split_of_append split
    · -- the entry stands behind: the one in front of it changes if that was taken out
      have whole : front ++ entry :: (gap ++ e :: b) = (front ++ entry :: gap) ++ e :: b := by simp
      have notLast : slotOf front.getLast? ≠ some e.2 := fun next => by
        obtain ⟨e', here, same⟩ := last_of_slotOf next
        exact between e' here e (List.mem_append_right _ List.mem_cons_self) same
      rw [chain.link?_unlink, if_neg (behind e (List.mem_append_right _ List.mem_cons_self)), if_neg notLast,
        chain.linked whole]
      cases gap with
      | nil => simp [slotOf]
      | cons head tail =>
        have other : head.2 ≠ e.2 := (whole ▸ chain).apart.1 head (by simp)
        rw [if_neg (by simpa [slotOf] using other)]
        simp [List.getLast?_append, List.getLast?_cons]
    · -- the entry stands in front: the one behind it changes if that was taken out
      have whole : f ++ e :: gap ++ entry :: back = f ++ e :: (gap ++ entry :: back) := by simp
      have notFirst : slotOf back.head? ≠ some e.2 := fun next => by
        obtain ⟨e', there, same⟩ := first_of_slotOf next
        exact between e (List.mem_append_right _ List.mem_cons_self) e' there same.symm
      rw [chain.link?_unlink, if_neg (before e (List.mem_append_right _ List.mem_cons_self)), if_neg notFirst,
        chain.linked whole]
      cases gap using List.reverseRecOn with
      | nil => simp [slotOf]
      | append_singleton head last =>
        have other : last.2 ≠ e.2 := (whole ▸ chain).apart.2.1 last (by simp)
        rw [if_neg (by simpa [slotOf, List.getLast?_append, List.getLast?_cons] using other)]
        cases head <;> rfl
  · refine chain.once.sublist ?_
    simp

theorem link?_linkLast {link : Link κ} (found : o.link? slot = some link) (apart : o.newest ≠ some slot)
    (other : Nat) : (o.linkLast slot).link? other =
      if other = slot then some { link with earlier := o.newest, later := none }
      else if o.newest = some other then (o.link? other).map fun link => { link with later := some slot }
      else o.link? other := by
  change ((o.modify slot _).joinLater o.newest (some slot)).link? other = _
  simp only [link?_joinLater, link?_modify]
  by_cases own : other = slot
  · subst own
    rw [if_pos rfl, if_pos rfl, if_neg apart, found]
    rfl
  · rw [if_neg own, if_neg own]

theorem link?_linkFirst {link : Link κ} (found : o.link? slot = some link) (apart : o.oldest ≠ some slot)
    (other : Nat) : (o.linkFirst slot).link? other =
      if other = slot then some { link with earlier := none, later := o.oldest }
      else if o.oldest = some other then (o.link? other).map fun link => { link with earlier := some slot }
      else o.link? other := by
  change ((o.modify slot _).joinEarlier o.oldest (some slot)).link? other = _
  simp only [link?_joinEarlier, link?_modify]
  by_cases own : other = slot
  · subst own
    rw [if_pos rfl, if_pos rfl, if_neg apart, found]
    rfl
  · rw [if_neg own, if_neg own]

/-- The slots at the ends are slots of entries. -/
theorem newest_apart (chain : o.Chain entries) (apart : ∀ e ∈ entries, e.2 ≠ slot) : o.newest ≠ some slot := by
  intro next
  obtain ⟨e, here, same⟩ := last_of_slotOf (chain.newest.symm.trans next)
  exact apart e here same

theorem oldest_apart (chain : o.Chain entries) (apart : ∀ e ∈ entries, e.2 ≠ slot) : o.oldest ≠ some slot := by
  intro next
  obtain ⟨e, here, same⟩ := first_of_slotOf (chain.oldest.symm.trans next)
  exact apart e here same

theorem link?_linkLast_of_apart {link : Link κ} (chain : o.Chain entries) (found : o.link? slot = some link)
    (alone : ∀ e ∈ entries, e.2 ≠ slot) (apart : ∀ e ∈ entries, e.2 ≠ other) (elsewhere : other ≠ slot) :
    (o.linkLast slot).link? other = o.link? other := by
  rw [link?_linkLast found (chain.newest_apart alone), if_neg elsewhere, if_neg (chain.newest_apart apart)]

theorem link?_linkFirst_of_apart {link : Link κ} (chain : o.Chain entries) (found : o.link? slot = some link)
    (alone : ∀ e ∈ entries, e.2 ≠ slot) (apart : ∀ e ∈ entries, e.2 ≠ other) (elsewhere : other ≠ slot) :
    (o.linkFirst slot).link? other = o.link? other := by
  rw [link?_linkFirst found (chain.oldest_apart alone), if_neg elsewhere, if_neg (chain.oldest_apart apart)]

/-- A slot that stands alone is put behind the chain. -/
theorem linkLast {link : Link κ} (chain : o.Chain entries) (found : o.link? slot = some link)
    (alone : ∀ e ∈ entries, e.2 ≠ slot) : (o.linkLast slot).Chain (entries ++ [(link.key, slot)]) := by
  have apart := chain.newest_apart alone
  refine ⟨fun {f e b} split => ?_, ?_, by simp [LinkedOrder.linkLast, slotOf], ?_⟩
  · rw [link?_linkLast found apart]
    cases b using List.reverseRecOn with
    | nil =>
      obtain ⟨rfl, rfl⟩ : entries = f ∧ (link.key, slot) = e := by simpa using split
      rw [if_pos rfl, chain.newest]
      rfl
    | append_singleton gap last =>
      obtain ⟨rfl, same⟩ : entries = f ++ e :: gap ∧ [(link.key, slot)] = [last] :=
        List.append_inj' (split.trans (by simp)) rfl
      cases same
      rw [if_neg (alone e (by simp)), chain.linked rfl, chain.newest]
      cases gap using List.reverseRecOn with
      | nil => simp [slotOf]
      | append_singleton head last' =>
        have other : last'.2 ≠ e.2 := chain.apart.2.1 last' (by simp)
        rw [if_neg (by simpa [slotOf, List.getLast?_append, List.getLast?_cons] using other)]
        cases head <;> rfl
  · refine (oldest_joinLater (o := o.modify slot _) o.newest (some slot)).trans ?_
    rw [chain.newest]
    cases entries using List.reverseRecOn with
    | nil => rfl
    | append_singleton head last =>
      have oldest := chain.oldest
      cases head <;> simpa [slotOf, List.getLast?_append, List.getLast?_cons] using oldest
  · rw [List.map_append, List.nodup_append]
    refine ⟨chain.once, List.nodup_singleton _, fun s here t there same => ?_⟩
    obtain ⟨e, member, rfl⟩ := List.mem_map.1 here
    exact alone e member (same.trans (List.mem_singleton.1 there))

/-- A slot that stands alone is put in front of the chain. -/
theorem linkFirst {link : Link κ} (chain : o.Chain entries) (found : o.link? slot = some link)
    (alone : ∀ e ∈ entries, e.2 ≠ slot) : (o.linkFirst slot).Chain ((link.key, slot) :: entries) := by
  have apart := chain.oldest_apart alone
  refine ⟨fun {f e b} split => ?_, rfl, ?_, ?_⟩
  · rw [link?_linkFirst found apart]
    cases f with
    | nil =>
      obtain ⟨rfl, rfl⟩ : (link.key, slot) = e ∧ entries = b := by simpa using split
      rw [if_pos rfl, chain.oldest]
      rfl
    | cons first gap =>
      obtain ⟨rfl, rfl⟩ : (link.key, slot) = first ∧ entries = gap ++ e :: b := by simpa using split
      rw [if_neg (alone e (by simp)), chain.linked rfl, chain.oldest]
      cases gap with
      | nil => simp [slotOf]
      | cons head tail =>
        have other : head.2 ≠ e.2 := chain.apart.1 head (by simp)
        rw [if_neg (by simpa [slotOf] using other)]
        simp [List.getLast?_cons]
  · refine (newest_joinEarlier (o := o.modify slot _) o.oldest (some slot)).trans ?_
    rw [chain.oldest]
    cases entries with
    | nil => rfl
    | cons head tail => simpa [slotOf, List.getLast?_cons] using chain.newest
  · refine List.nodup_cons.2 ⟨fun here => ?_, chain.once⟩
    obtain ⟨e, member, same⟩ := List.mem_map.1 here
    exact alone e member same

/-- Only what is in the slots of the chain counts. -/
theorem congr {o' : LinkedOrder κ} (chain : o.Chain entries) (links : ∀ e ∈ entries, o'.link? e.2 = o.link? e.2)
    (oldest : o'.oldest = o.oldest) (newest : o'.newest = o.newest) : o'.Chain entries where
  linked split := by rw [links _ (by simp [split]), chain.linked split]
  oldest := oldest.trans chain.oldest
  newest := newest.trans chain.newest
  once := chain.once

/-- A walk from any entry on yields its key and those behind it. -/
theorem yields_from (front : List (κ × Nat)) (chain : o.Chain (front ++ back)) :
    o.Yields (slotOf back.head?) (back.map Prod.fst) := by
  induction back generalizing front with
  | nil => exact .ends rfl
  | cons entry rest ih =>
    have next : o.next? (some entry.2) = some (entry.1, slotOf rest.head?) := by
      simp [next?, chain.linked rfl]
    exact .goesOn next (ih (front ++ [entry]) (by simpa using chain))

theorem yields (chain : o.Chain entries) : o.Yields o.oldest (entries.map Prod.fst) := by
  rw [chain.oldest]
  exact yields_from [] chain

end Chain

/-! ### Keys and their slots -/

/-- What an order holds: keys with their slots, from the least to the most recently used key. Vacant slots are no slots
of keys, and every slot is one that there is. -/
structure Holds (o : LinkedOrder κ) (entries : List (κ × Nat)) : Prop where
  chain : o.Chain entries
  slots : o.slots.Perm entries
  keysOnce : (entries.map Prod.fst).Nodup
  vacant : ∀ slot ∈ o.vacant, slot < o.links.size ∧ o.link? slot = none
  vacantOnce : o.vacant.Nodup

theorem holds_empty : (empty : LinkedOrder κ).Holds [] :=
  ⟨⟨fun split => by simp at split, rfl, rfl, List.nodup_nil⟩, .nil, List.nodup_nil, nofun, List.nodup_nil⟩

namespace Holds

/-- A vacant slot is not the slot of a key. -/
theorem vacant_apart (holds : o.Holds entries) (member : slot ∈ o.vacant) : ∀ e ∈ entries, e.2 ≠ slot := by
  rintro e here rfl
  obtain ⟨front, back, split⟩ := List.append_of_mem here
  cases (holds.chain.linked split).symm.trans (holds.vacant _ member).2

/-- Slots are linked in another order. -/
theorem relink {o' : LinkedOrder κ} {entries' : List (κ × Nat)} (holds : o.Holds entries) (relinked : Relinked o o')
    (chain : o'.Chain entries') (same : entries'.Perm entries)
    (elsewhere : ∀ slot, (∀ e ∈ entries, e.2 ≠ slot) → o'.link? slot = o.link? slot) : o'.Holds entries' where
  chain := chain
  slots := relinked.slots ▸ holds.slots.trans same.symm
  keysOnce := (same.map Prod.fst).nodup_iff.2 holds.keysOnce
  vacant slot member := by
    rw [relinked.vacant] at member
    rw [relinked.size, elsewhere slot (holds.vacant_apart member)]
    exact holds.vacant slot member
  vacantOnce := relinked.vacant ▸ holds.vacantOnce

/-- The entry of a key is moved to the end. -/
theorem moveLast (holds : o.Holds (front ++ entry :: back)) :
    ((o.unlink entry.2).linkLast entry.2).Holds (front ++ back ++ [entry]) := by
  have unlinked := holds.chain.unlink
  have alone := holds.chain.link?_unlink entry.2
  rw [if_pos rfl] at alone
  have apart : ∀ e ∈ front ++ back, e.2 ≠ entry.2 := fun e here =>
    (List.mem_append.1 here).elim (holds.chain.apart.1 e) (holds.chain.apart.2.1 e)
  refine holds.relink ((relinked_unlink ..).trans (relinked_linkLast ..)) (unlinked.linkLast alone apart) ?_
    fun slot outside => ?_
  · rw [List.append_assoc]
    exact (List.perm_append_singleton entry back).append_left front
  · have outside' : ∀ e ∈ front ++ back, e.2 ≠ slot := fun e here => outside e (by
      rcases List.mem_append.1 here with here | here <;> simp [here])
    rw [unlinked.link?_linkLast_of_apart alone apart outside' (outside entry (by simp)).symm,
      holds.chain.link?_unlink_of_apart outside]

/-- The entry of a key is moved to the front. -/
theorem moveFirst (holds : o.Holds (front ++ entry :: back)) :
    ((o.unlink entry.2).linkFirst entry.2).Holds (entry :: (front ++ back)) := by
  have unlinked := holds.chain.unlink
  have alone := holds.chain.link?_unlink entry.2
  rw [if_pos rfl] at alone
  have apart : ∀ e ∈ front ++ back, e.2 ≠ entry.2 := fun e here =>
    (List.mem_append.1 here).elim (holds.chain.apart.1 e) (holds.chain.apart.2.1 e)
  refine holds.relink ((relinked_unlink ..).trans (relinked_linkFirst ..)) (unlinked.linkFirst alone apart)
    List.perm_middle.symm fun slot outside => ?_
  have outside' : ∀ e ∈ front ++ back, e.2 ≠ slot := fun e here => outside e (by
    rcases List.mem_append.1 here with here | here <;> simp [here])
  rw [unlinked.link?_linkFirst_of_apart alone apart outside' (outside entry (by simp)).symm,
    holds.chain.link?_unlink_of_apart outside]

end Holds

/-! ### Slots that come into use and go out of it -/

/-- A link that was put into a slot that was in no use. -/
structure Allotted (o o' : LinkedOrder κ) (slot : Nat) (link : Link κ) : Prop where
  unused : o.link? slot = none
  found : o'.link? slot = some link
  others : ∀ {other}, other ≠ slot → o'.link? other = o.link? other
  oldest : o'.oldest = o.oldest
  newest : o'.newest = o.newest
  slots : o'.slots = o.slots
  vacant : o'.vacant.Sublist o.vacant
  taken : slot ∉ o'.vacant
  size : o.links.size ≤ o'.links.size

theorem link?_setIfInBounds {content : Option (Link κ)} (inside : slot < o.links.size) :
    { o with links := o.links.setIfInBounds slot content }.link? other =
      if other = slot then content else o.link? other := by
  simp only [link?, Array.getElem?_setIfInBounds]
  by_cases same : slot = other
  · subst same
    rw [if_pos rfl, if_pos inside, if_pos rfl]
    rfl
  · rw [if_neg same, if_neg (Ne.symm same)]

theorem Holds.allots (holds : o.Holds entries) (link : Link κ) :
    Allotted o (o.allot link).1 (o.allot link).2 link := by
  have vacancies := holds.vacantOnce
  cases free : o.vacant with
  | nil =>
    have unused : o.link? o.links.size = none := by simp [link?]
    rw [allot, free]
    refine ⟨unused, by simp [link?], fun {other} apart => ?_, rfl, rfl, rfl, List.nil_sublist _, by simp, by simp⟩
    simp only [link?, Array.getElem?_push, if_neg apart]
  | cons slot rest =>
    obtain ⟨inside, unused⟩ := holds.vacant slot (free ▸ List.mem_cons_self)
    rw [free] at vacancies
    rw [allot, free]
    refine ⟨unused, ?_, fun {other} apart => ?_, rfl, rfl, rfl, ?_, ?_, ?_⟩
    · exact (link?_setIfInBounds inside).trans (if_pos rfl)
    · exact (link?_setIfInBounds inside).trans (if_neg apart)
    · rw [free]
      exact List.sublist_cons_self ..
    · exact (List.nodup_cons.1 vacancies).1
    · simp

theorem Allotted.apart {o' : LinkedOrder κ} {link : Link κ} (allotted : Allotted o o' slot link)
    (holds : o.Holds entries) : ∀ e ∈ entries, e.2 ≠ slot := by
  rintro e here rfl
  obtain ⟨front, back, split⟩ := List.append_of_mem here
  cases (holds.chain.linked split).symm.trans allotted.unused

/-- A key that is new comes to the end. -/
theorem Holds.insert {o' : LinkedOrder κ} (holds : o.Holds entries) (fresh : key ∉ entries.map Prod.fst)
    (allotted : Allotted o o' slot ⟨key, none, none⟩) :
    ({ o' with slots := (key, slot) :: o'.slots }.linkLast slot).Holds (entries ++ [(key, slot)]) := by
  have alone := allotted.apart holds
  have chain : { o' with slots := (key, slot) :: o'.slots }.Chain entries :=
    holds.chain.congr (fun e here => allotted.others (alone e here)) allotted.oldest allotted.newest
  have relinked := relinked_linkLast { o' with slots := (key, slot) :: o'.slots } slot
  refine ⟨chain.linkLast allotted.found alone, ?_, ?_, fun other free => ?_, ?_⟩
  · rw [relinked.slots, allotted.slots]
    exact (holds.slots.cons _).trans (List.perm_append_singleton _ _).symm
  · rw [List.map_append, List.nodup_append]
    refine ⟨holds.keysOnce, List.nodup_singleton _, fun k here k' there same => fresh ?_⟩
    rwa [same, List.mem_singleton.1 there] at here
  · rw [relinked.vacant] at free
    obtain ⟨inside, unused⟩ := holds.vacant other (allotted.vacant.subset free)
    have elsewhere : other ≠ slot := fun same => allotted.taken (same ▸ free)
    rw [relinked.size, chain.link?_linkLast_of_apart allotted.found alone
      (holds.vacant_apart (allotted.vacant.subset free)) elsewhere]
    exact ⟨inside.trans_le allotted.size, (allotted.others elsewhere).trans unused⟩
  · rw [relinked.vacant]
    exact holds.vacantOnce.sublist allotted.vacant

variable [DecidableEq κ]

/-- The slot of a key that is taken out becomes vacant. -/
theorem Holds.vacate (holds : o.Holds (front ++ entry :: back)) {o' : LinkedOrder κ}
    (unlinked : o' = { o with slots := o.slots.filter fun e => e.1 ≠ entry.1 }.unlink entry.2) :
    { o' with links := o'.links.setIfInBounds entry.2 none, vacant := entry.2 :: o'.vacant }.Holds
      (front ++ back) := by
  have chain : { o with slots := o.slots.filter fun e => e.1 ≠ entry.1 }.Chain (front ++ entry :: back) :=
    holds.chain.congr (fun _ _ => rfl) rfl rfl
  have relinked := relinked_unlink { o with slots := o.slots.filter fun e => e.1 ≠ entry.1 } entry.2
  have elsewhere : ∀ {slot}, (∀ e ∈ front ++ entry :: back, e.2 ≠ slot) → o'.link? slot = o.link? slot :=
    fun outside => by rw [unlinked, chain.link?_unlink_of_apart outside]; rfl
  have whole := chain.unlink
  rw [← unlinked] at relinked whole
  obtain ⟨slots, vacant, size⟩ := relinked
  have inside : entry.2 < o'.links.size := by
    rw [size]
    by_contra outside
    have none : o.link? entry.2 = none := by simp [link?, Array.getElem?_eq_none (Nat.not_lt.1 outside)]
    cases none.symm.trans (holds.chain.linked rfl)
  have apart : ∀ e ∈ front ++ back, e.2 ≠ entry.2 := fun e here =>
    (List.mem_append.1 here).elim (holds.chain.apart.1 e) (holds.chain.apart.2.1 e)
  have emptied : ∀ other, { o' with
      links := o'.links.setIfInBounds entry.2 none, vacant := entry.2 :: o'.vacant }.link? other =
        if other = entry.2 then none else o'.link? other := fun other => link?_setIfInBounds inside
  refine ⟨whole.congr (fun e here => (emptied e.2).trans (if_neg (apart e here))) rfl rfl, ?_, ?_,
    fun slot free => ?_, ?_⟩
  · have once := holds.keysOnce
    rw [List.map_append, List.map_cons, List.nodup_middle, List.nodup_cons, ← List.map_append] at once
    have others : (front ++ back).filter (fun e => e.1 ≠ entry.1) = front ++ back :=
      List.filter_eq_self.2 fun e here => decide_eq_true fun same => once.1 (List.mem_map.2 ⟨e, here, same⟩)
    have kept := holds.slots.filter fun e => e.1 ≠ entry.1
    rw [List.filter_append, List.filter_cons_of_neg (by simp), ← List.filter_append, others] at kept
    exact slots ▸ kept
  · exact holds.keysOnce.sublist (((List.sublist_cons_self ..).append_left front).map _)
  · rw [emptied]
    rcases List.mem_cons.1 free with rfl | free
    · exact ⟨by simpa using inside, if_pos rfl⟩
    · rw [vacant] at free
      obtain ⟨below, unused⟩ := holds.vacant slot free
      have outside := holds.vacant_apart free
      rw [if_neg (outside entry (by simp)).symm, elsewhere outside]
      exact ⟨by simpa [size] using below, unused⟩
  · refine List.nodup_cons.2 ⟨fun free => ?_, vacant ▸ holds.vacantOnce⟩
    rw [vacant] at free
    exact holds.vacant_apart free entry (by simp) rfl

/-! ### Uses -/

namespace Holds

/-- The slot that is looked up for a key is that of its entry. -/
theorem lookup_eq_some (holds : o.Holds entries) : o.slots.lookup key = some slot ↔ (key, slot) ∈ entries := by
  rw [lookup_eq_some_of_once ((holds.slots.map Prod.fst).nodup_iff.2 holds.keysOnce)]
  exact holds.slots.mem_iff

theorem lookup_eq_none (holds : o.Holds entries) : o.slots.lookup key = none ↔ key ∉ entries.map Prod.fst := by
  rw [← not_iff_not, ← ne_eq, Option.ne_none_iff_exists', not_not]
  simp [holds.lookup_eq_some]

/-- Taking the entry of a key out takes the key out. -/
theorem erase_eq (holds : o.Holds (front ++ entry :: back)) :
    ((front ++ entry :: back).map Prod.fst).erase entry.1 = (front ++ back).map Prod.fst := by
  have once := holds.keysOnce
  rw [List.map_append, List.map_cons] at once ⊢
  have absent : entry.1 ∉ front.map Prod.fst := fun here =>
    (List.nodup_append.1 once).2.2 _ here _ List.mem_cons_self rfl
  rw [List.erase_append_right _ absent, List.erase_cons_head, List.map_append]

/-- A key has an entry with the slot that is looked up for it, or none. -/
theorem key_cases (holds : o.Holds entries) (key : κ) :
    (∃ slot front back, o.slots.lookup key = some slot ∧ entries = front ++ (key, slot) :: back) ∨
      o.slots.lookup key = none ∧ key ∉ entries.map Prod.fst := by
  cases found : o.slots.lookup key with
  | none => exact .inr ⟨rfl, holds.lookup_eq_none.1 found⟩
  | some slot =>
    obtain ⟨front, back, split⟩ := List.append_of_mem (holds.lookup_eq_some.1 found)
    exact .inl ⟨slot, front, back, rfl, split⟩

theorem touch (holds : o.Holds entries) (key : κ) : ∃ entries', (o.touch key).Holds entries' ∧
    entries'.map Prod.fst = (entries.map Prod.fst).erase key ++ [key] := by
  obtain ⟨slot, front, back, found, rfl⟩ | ⟨missing, fresh⟩ := holds.key_cases key
  · refine ⟨front ++ back ++ [(key, slot)], ?_, ?_⟩
    · rw [LinkedOrder.touch, found]
      exact holds.moveLast
    · rw [holds.erase_eq, List.map_append]
      rfl
  · refine ⟨entries ++ [(key, (o.allot ⟨key, none, none⟩).2)], ?_, ?_⟩
    · rw [LinkedOrder.touch, missing]
      exact holds.insert fresh (holds.allots _)
    · rw [List.erase_of_not_mem fresh, List.map_append]
      rfl

theorem demote (holds : o.Holds entries) (key : κ) : ∃ entries', (o.demote key).Holds entries' ∧
    entries'.map Prod.fst =
      if key ∈ entries.map Prod.fst then key :: (entries.map Prod.fst).erase key else entries.map Prod.fst := by
  obtain ⟨slot, front, back, found, rfl⟩ | ⟨missing, fresh⟩ := holds.key_cases key
  · refine ⟨(key, slot) :: (front ++ back), ?_, ?_⟩
    · rw [LinkedOrder.demote, found]
      exact holds.moveFirst
    · rw [if_pos (by simp), holds.erase_eq]
      rfl
  · refine ⟨entries, ?_, (if_neg fresh).symm⟩
    rw [LinkedOrder.demote, missing]
    exact holds

theorem remove (holds : o.Holds entries) (key : κ) : (∃ entries', (o.remove key).1.Holds entries' ∧
    entries'.map Prod.fst = (entries.map Prod.fst).erase key) ∧
      (o.remove key).2 = decide (key ∈ entries.map Prod.fst) := by
  obtain ⟨slot, front, back, found, rfl⟩ | ⟨missing, fresh⟩ := holds.key_cases key
  · rw [LinkedOrder.remove, found]
    exact ⟨⟨front ++ back, holds.vacate rfl, holds.erase_eq.symm⟩, (decide_eq_true (by simp)).symm⟩
  · rw [LinkedOrder.remove, missing]
    exact ⟨⟨entries, holds, (List.erase_of_not_mem fresh).symm⟩, (decide_eq_false fresh).symm⟩

end Holds

/-- What becomes of an order. -/
def use (o : LinkedOrder κ) : Usage κ → LinkedOrder κ
  | .touch key => o.touch key
  | .demote key => o.demote key
  | .remove key => (o.remove key).1
  | .clear => empty

/-- A use does to the linked slots what it does to the list of their keys. -/
theorem Holds.use (holds : o.Holds entries) (usage : Usage κ) : ∃ entries', (o.use usage).Holds entries' ∧
    entries'.map Prod.fst = usage.onKeys (entries.map Prod.fst) := by
  cases usage with
  | touch key => exact holds.touch key
  | demote key => exact holds.demote key
  | remove key => exact (holds.remove key).1
  | clear => exact ⟨[], holds_empty, rfl⟩

theorem Holds.foldl_use (holds : o.Holds entries) (usages : List (Usage κ)) :
    ∃ entries', (usages.foldl LinkedOrder.use o).Holds entries' ∧
      entries'.map Prod.fst = usages.foldl Usage.onKeys (entries.map Prod.fst) := by
  induction usages generalizing o entries with
  | nil => exact ⟨entries, holds, rfl⟩
  | cons usage rest ih =>
    obtain ⟨mid, holds, same⟩ := holds.use usage
    rw [List.foldl_cons, List.foldl_cons, ← same]
    exact ih holds

/-- An order answers as a list of keys does. -/
structure Answers (o : LinkedOrder κ) (keys : List κ) : Prop where
  yields : o.Yields o.oldest keys
  size : o.size = keys.length
  isEmpty : o.isEmpty = keys.isEmpty
  contains : ∀ key, o.contains key = decide (key ∈ keys)
  removes : ∀ key, (o.remove key).2 = decide (key ∈ keys)
  least : o.least? = keys.head?

theorem Holds.answers (holds : o.Holds entries) : o.Answers (entries.map Prod.fst) where
  yields := holds.chain.yields
  size := by rw [size, holds.slots.length_eq, List.length_map]
  isEmpty := by rw [isEmpty, holds.slots.isEmpty_eq, List.isEmpty_map]
  contains key := by
    rw [contains, Bool.eq_iff_iff, decide_eq_true_iff, ← not_iff_not, Bool.not_eq_true, Option.isSome_eq_false_iff,
      Option.isNone_iff_eq_none]
    exact holds.lookup_eq_none
  removes key := (holds.remove key).2
  least := by
    rw [least?, holds.chain.oldest]
    cases entries with
    | nil => rfl
    | cons entry rest => simp [slotOf, holds.chain.linked (List.nil_append (entry :: rest)).symm]

end LinkedOrder

/-- Whatever an order of use is used for, it answers as the list of keys without duplicates that is left by the same
uses: what it lists and in which order, how many keys there are, whether a key is there, and which one was used least
recently. Linked slots, which become vacant and are used again, answer alike: a walk through them ends and yields the
same keys, and a removal says whether the key was there. -/
theorem orders_answer_as_keys {κ : Type} [DecidableEq κ] (usages : List (Usage κ)) :
    (Usage.keys usages).Nodup ∧ (usages.foldl Recency.use Recency.empty).Answers (Usage.keys usages) ∧
      (usages.foldl LinkedOrder.use LinkedOrder.empty).Answers (Usage.keys usages) := by
  have listed : (usages.foldl Recency.use Recency.empty).toList = Usage.keys usages := by
    rw [Recency.toList_foldl_use, Recency.toList_empty, Usage.keys]
  obtain ⟨entries, holds, same⟩ : ∃ entries, (usages.foldl LinkedOrder.use LinkedOrder.empty).Holds entries ∧
      entries.map Prod.fst = Usage.keys usages := LinkedOrder.holds_empty.foldl_use usages
  refine ⟨?_, ?_, ?_⟩
  · rw [← listed]
    exact Recency.nodup_toList _
  · rw [← listed]
    exact Recency.answers_toList _
  · rw [← same]
    exact holds.answers

end SmallC
