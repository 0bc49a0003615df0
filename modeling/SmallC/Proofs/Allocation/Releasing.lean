import SmallC.Proofs.Allocation.Blocks
import SmallC.Proofs.Allocation.Course

/-!
The order in which registers are released at once. Dropping the variables of a block, dropping all temporaries and
putting all reserved registers back release several registers one after the other. Any other order leads to the same
state, but for the order in which these registers queue up behind those that were free before, and emits nothing either.
-/
namespace SmallC

theorem Recency.remove_comm {κ : Type} [DecidableEq κ] (order : Recency κ) (x y : κ) :
    (order.remove x).remove y = (order.remove y).remove x := by
  simp only [remove, others, List.filter_filter, Bool.and_comm]

theorem Recency.remove_remove {κ : Type} [DecidableEq κ] (order : Recency κ) (x : κ) :
    (order.remove x).remove x = order.remove x := by
  simp only [remove, others, List.filter_filter, Bool.and_self]

namespace Level

variable {l : Level} {name name' : String} {x y : VarId}

theorem without_comm (name name' : String) (names : List (String × VarId)) :
    without name (without name' names) = without name' (without name names) := by
  simp only [without, List.filter_filter, Bool.and_comm]

/-- Names are taken from a level in any order. -/
theorem removeNameOf_comm (apart : x ≠ y) (l : Level) (name name' : String) :
    (l.removeNameOf name x).removeNameOf name' y = (l.removeNameOf name' y).removeNameOf name x := by
  -- A name stands for one variable only, so that no level loses it to both of them.
  by_cases same : name = name'
  · subst same
    have none (z : VarId) : ¬ (l.removeName name).names.lookup name = some z := by
      rw [removeName, without, lookup_dropped]
      exact (Option.some_ne_none z).symm
    unfold removeNameOf
    by_cases first : l.names.lookup name = some x
    · have second : ¬ l.names.lookup name = some y := fun is => apart (Option.some.inj (first.symm.trans is))
      rw [if_pos first, if_neg second, if_neg (none y), if_pos first]
    · rw [if_neg first]
      by_cases second : l.names.lookup name = some y
      · rw [if_pos second, if_neg (none x)]
      · rw [if_neg second, if_neg first]
  · have first : (l.removeName name).names.lookup name' = l.names.lookup name' :=
      lookup_dropped_of_ne _ (Ne.symm same)
    have second : (l.removeName name').names.lookup name = l.names.lookup name := lookup_dropped_of_ne _ same
    have both : (l.removeName name).removeName name' = (l.removeName name').removeName name := by
      rw [removeName, removeName, removeName, removeName, without_comm]
    unfold removeNameOf
    by_cases here : l.names.lookup name = some x
    · by_cases there : l.names.lookup name' = some y
      · rw [if_pos here, if_pos there, first, if_pos there, second, if_pos here, both]
      · rw [if_pos here, if_neg there, first, if_neg there, if_pos here]
    · by_cases there : l.names.lookup name' = some y
      · rw [if_neg here, if_pos there, second, if_neg here]
      · rw [if_neg here, if_neg there, if_neg here]

end Level

namespace Allocator

variable {a a' a'' : Allocator} {front : List Reg} {x y : VarId} {v u : Variable} {r s : Reg}

/-- Two states that differ in nothing but the order of the registers that queue up behind the first ones. -/
def Requeued (front : List Reg) (a a' : Allocator) : Prop :=
  ∃ back back', back.Perm back' ∧ a.free = front ++ back ∧ a' = { a with free := front ++ back' }

namespace Requeued

theorem refl (first : front <+: a.free) : Requeued front a a := by
  obtain ⟨back, queue⟩ := first
  exact ⟨back, back, .refl _, queue.symm, by rw [queue]⟩

theorem trans (one : Requeued front a a') (other : Requeued front a' a'') : Requeued front a a'' := by
  obtain ⟨back, back', perm, queue, rfl⟩ := one
  obtain ⟨back₁, back'', perm', queue', rfl⟩ := other
  obtain rfl : back' = back₁ := List.append_cancel_left queue'
  exact ⟨back, back'', perm.trans perm', queue, rfl⟩

theorem var? (requeued : Requeued front a a') (x : VarId) : a'.var? x = a.var? x := by
  obtain ⟨_, _, -, -, rfl⟩ := requeued
  rfl

end Requeued

/-- What a released register adds to the free ones. -/
def freed (a : Allocator) (r : Reg) : List Reg := if r.isPool ∧ r ∉ a.reserved ∧ r ∉ a.free then [r] else []

theorem free_released : (a.released r).free = a.free ++ a.freed r := by
  unfold released freed
  split
  · rfl
  · exact (List.append_nil _).symm

theorem Requeued.released (requeued : Requeued front a a') (r : Reg) :
    Requeued front (a.released r) (a'.released r) := by
  obtain ⟨back, back', perm, queue, rfl⟩ := requeued
  have same : ({ a with free := front ++ back' } : Allocator).freed r = a.freed r := by
    unfold freed
    rw [queue]
    simp only [List.mem_append, perm.mem_iff]
  refine ⟨back ++ a.freed r, back' ++ a.freed r, perm.append_right _, ?_, ?_⟩
  · rw [free_released, queue, List.append_assoc]
  · have free := free_released (a := { a with free := front ++ back' }) (r := r)
    rw [same, List.append_assoc] at free
    rw [← free]
    rfl

/-- A register that holds no variable. -/
def vacant? (a : Allocator) (r : Reg) : Option Reg := if (a.ownerOf r).isNone then some r else none

theorem Requeued.vacant? (requeued : Requeued front a a') (r : Reg) : a'.vacant? r = a.vacant? r := by
  obtain ⟨_, _, -, -, rfl⟩ := requeued
  rfl

/-- The name of a variable stands for nothing. -/
def unnamed (a : Allocator) (x : VarId) (v : Variable) : Allocator :=
  if v.isTemp then { a with temps := Level.without v.name a.temps }
  else a.modifyLevel v.depth (Level.removeNameOf v.name x)

/-- Nothing is known about a variable. -/
def unknown (a : Allocator) (x : VarId) : Allocator :=
  { a with recency := a.recency.remove x, vars := a.vars.setIfInBounds x none }

theorem forgotten_eq_unknown : a.forgotten x v = (a.unnamed x v).unknown x := by
  unfold forgotten unnamed unknown
  split
  · rfl
  · rw [recency_modifyLevel, vars_modifyLevel]

/-- What does not concern names can be done before or after a variable loses its name. -/
theorem unnamed_apart (a : Allocator) (vars : Array (Option Variable)) (owner : Vector (Option VarId) 32)
    (free reserved : List Reg) (recency : Recency VarId) (x : VarId) (v : Variable) :
    ({ a with vars, owner, free, reserved, recency } : Allocator).unnamed x v =
      { a.unnamed x v with vars, owner, free, reserved, recency } := by
  unfold unnamed modifyLevel
  split
  · rfl
  · split
    · rfl
    · split
      · rfl
      · rfl

theorem modifyLevel_comm {f g : Level → Level} (commute : ∀ l, f (g l) = g (f l)) (a : Allocator) (d e : Nat) :
    (a.modifyLevel d f).modifyLevel e g = (a.modifyLevel e g).modifyLevel d f := by
  have inner (i j : Nat) : (a.inner.modify i f).modify j g = (a.inner.modify j g).modify i f := by
    refine List.ext_getElem? fun k => ?_
    simp only [List.getElem?_modify]
    cases a.inner[k]? with
    | none => rfl
    | some l =>
      simp only [Option.map_eq_map, Option.map_some]
      split
      · split
        · rw [commute]
        · rfl
      · rfl
  by_cases outer : d = 0
  · subst outer
    by_cases outer' : e = 0
    · subst outer'
      simp only [modifyLevel, ↓reduceIte, commute]
    · unfold modifyLevel
      rw [if_neg outer', if_pos rfl, if_pos rfl, if_neg outer']
      split <;> rfl
  · by_cases outer' : e = 0
    · subst outer'
      unfold modifyLevel
      rw [if_neg outer, if_pos rfl, if_pos rfl, if_neg outer]
      split <;> rfl
    · by_cases inside : d ≤ a.inner.length
      · by_cases inside' : e ≤ a.inner.length
        · simp only [modifyLevel, if_neg outer, if_neg outer', if_pos inside, if_pos inside', List.length_modify, inner]
        · simp only [modifyLevel, if_neg outer, if_neg outer', if_pos inside, if_neg inside', List.length_modify]
      · simp only [modifyLevel, if_neg outer, if_neg outer', if_neg inside]
        split
        · simp only [List.length_modify, if_neg inside]
        · rfl

theorem unnamed_comm (apart : x ≠ y) (v u : Variable) :
    (a.unnamed x v).unnamed y u = (a.unnamed y u).unnamed x v := by
  unfold unnamed
  by_cases temp : v.isTemp
  · by_cases temp' : u.isTemp
    · rw [if_pos temp, if_pos temp', if_pos temp, if_pos temp', Level.without_comm]
    · rw [if_pos temp, if_neg temp', if_pos temp, if_neg temp']
      unfold modifyLevel
      split
      · rfl
      · split
        · rfl
        · rfl
  · by_cases temp' : u.isTemp
    · rw [if_neg temp, if_pos temp', if_neg temp, if_pos temp']
      unfold modifyLevel
      split
      · rfl
      · split
        · rfl
        · rfl
    · rw [if_neg temp, if_neg temp', if_neg temp, if_neg temp']
      exact modifyLevel_comm (fun l => l.removeNameOf_comm apart.symm u.name v.name) _ _ _

theorem unknown_comm (apart : x ≠ y) : (a.unknown x).unknown y = (a.unknown y).unknown x := by
  simp only [unknown, Recency.remove_comm _ x y, Array.setIfInBounds_comm none none apart]

theorem unnamed_unknown (a : Allocator) (x y : VarId) (v : Variable) :
    (a.unknown y).unnamed x v = (a.unnamed x v).unknown y := by
  have own := unnamed_apart a a.vars a.owner a.free a.reserved a.recency x v
  rw [own]
  exact unnamed_apart a (a.vars.setIfInBounds y none) a.owner a.free a.reserved (a.recency.remove y) x v

theorem unnamed_released (a : Allocator) (r : Reg) (x : VarId) (v : Variable) :
    (a.released r).unnamed x v = (a.unnamed x v).released r := by
  have own := unnamed_apart a a.vars a.owner a.free a.reserved a.recency x v
  rw [own]
  exact unnamed_apart a a.vars (a.owner.set r.index.val none r.index_lt) (a.released r).free a.reserved a.recency x v

theorem forgotten_comm (apart : x ≠ y) (v u : Variable) :
    (a.forgotten x v).forgotten y u = (a.forgotten y u).forgotten x v := by
  simp only [forgotten_eq_unknown, unnamed_unknown, unnamed_comm apart v u, unknown_comm apart]

theorem forgotten_released (a : Allocator) (x : VarId) (v : Variable) (r : Reg) :
    (a.forgotten x v).released r = (a.released r).forgotten x v := by
  rw [forgotten_eq_unknown, forgotten_eq_unknown, unnamed_released]
  rfl

theorem released_comm (first : front <+: a.free) (r s : Reg) :
    Requeued front ((a.released r).released s) ((a.released s).released r) := by
  by_cases same : r = s
  · subst same
    exact .refl (first.trans (by rw [free_released, free_released, List.append_assoc]; exact List.prefix_append _ _))
  · obtain ⟨back, queue⟩ := first
    have kept (t u : Reg) (apart : t ≠ u) : (a.released t).freed u = a.freed u := by
      have other : u ∉ a.freed t := by
        unfold freed
        split
        · simpa using Ne.symm apart
        · exact List.not_mem_nil
      have free : u ∉ (a.released t).free ↔ u ∉ a.free := by
        rw [free_released, List.mem_append, or_iff_left other]
      unfold freed
      simp only [free]
      rfl
    refine ⟨back ++ a.freed r ++ a.freed s, back ++ a.freed s ++ a.freed r, ?_, ?_, ?_⟩
    · rw [List.append_assoc, List.append_assoc]
      exact (List.perm_append_comm).append_left back
    · rw [free_released, free_released, kept r s same, ← queue, List.append_assoc, List.append_assoc, List.append_assoc]
    · have owner : (a.owner.set r.index.val none r.index_lt).set s.index.val none s.index_lt =
          (a.owner.set s.index.val none s.index_lt).set r.index.val none r.index_lt := by
        exact Vector.set_comm none none fun same' => same (congrArg Reg.mk (Fin.ext same'))
      have free : ((a.released s).released r).free = front ++ (back ++ a.freed s ++ a.freed r) := by
        rw [free_released, free_released, kept s r (Ne.symm same), ← queue]
        simp only [List.append_assoc]
      rw [← free]
      unfold released
      simp only [owner]

theorem Requeued.forgotten (requeued : Requeued front a a') (x : VarId) (v : Variable) :
    Requeued front (a.forgotten x v) (a'.forgotten x v) := by
  obtain ⟨back, back', perm, queue, rfl⟩ := requeued
  refine ⟨back, back', perm, ?_, ?_⟩
  · rw [forgotten_eq]
    exact queue
  · have own := unnamed_apart a a.vars a.owner a.free a.reserved a.recency x v
    rw [forgotten_eq_unknown, forgotten_eq_unknown, own]
    exact congrArg (fun b => b.unknown x) (unnamed_apart a a.vars a.owner (front ++ back') a.reserved a.recency x v)

/-- A register is free, if there is one. -/
def emptied (a : Allocator) (o : Option Reg) : Allocator := o.elim a a.released

theorem Requeued.emptied (requeued : Requeued front a a') (o : Option Reg) :
    Requeued front (a.emptied o) (a'.emptied o) := by
  cases o with
  | none => exact requeued
  | some r => exact requeued.released r

theorem first_emptied (first : front <+: a.free) (o : Option Reg) : front <+: (a.emptied o).free := by
  cases o with
  | none => exact first
  | some r =>
    rw [emptied, Option.elim_some, free_released]
    exact first.trans (List.prefix_append _ _)

theorem emptied_comm (first : front <+: a.free) (o o' : Option Reg) :
    Requeued front ((a.emptied o).emptied o') ((a.emptied o').emptied o) := by
  cases o with
  | none => exact .refl (first_emptied first o')
  | some r =>
    cases o' with
    | none => exact .refl (first_emptied first (some r))
    | some s => exact released_comm first r s

/-- Putting a register back makes no other one vacant. -/
theorem vacant?_emptied (a : Allocator) (r s : Reg) : (a.emptied (a.vacant? r)).vacant? s = a.vacant? s := by
  unfold vacant?
  by_cases vacant : (a.ownerOf r).isNone
  · rw [if_pos vacant, emptied, Option.elim_some, ownerOf_released]
    split
    · next same => rw [same, if_pos vacant, if_pos Option.isNone_none]
    · rfl
  · rw [if_neg vacant]
    rfl

theorem forgotten_emptied (a : Allocator) (x : VarId) (v : Variable) (o : Option Reg) :
    (a.forgotten x v).emptied o = (a.emptied o).forgotten x v := by
  cases o with
  | none => rfl
  | some r => exact forgotten_released a x v r

/-- Nothing is left of a variable, and its register is free. -/
def dropped (a : Allocator) (x : VarId) (v : Variable) : Allocator := (a.emptied v.storage.register?).forgotten x v

theorem var?_dropped (x y : VarId) (v : Variable) :
    (a.dropped x v).var? y = if y = x then none else a.var? y := by
  rw [dropped, var?_forgotten]
  cases v.storage.register? with
  | none => rfl
  | some r => rfl

theorem Requeued.dropped (requeued : Requeued front a a') (x : VarId) (v : Variable) :
    Requeued front (a.dropped x v) (a'.dropped x v) := (requeued.emptied _).forgotten x v

theorem first_dropped (first : front <+: a.free) (x : VarId) (v : Variable) : front <+: (a.dropped x v).free := by
  unfold Allocator.dropped
  rw [forgotten_eq]
  exact first_emptied first _

/-- Which of two variables is dropped first makes no difference but for the order of their registers. -/
theorem dropped_comm (first : front <+: a.free) (apart : x ≠ y) (v u : Variable) :
    Requeued front ((a.dropped x v).dropped y u) ((a.dropped y u).dropped x v) := by
  unfold Allocator.dropped
  rw [forgotten_emptied, forgotten_emptied, forgotten_comm apart]
  exact ((emptied_comm first _ _).forgotten y u).forgotten x v

theorem unbound_forgotten {r : Reg} (there : v.storage = .register r) :
    (a.unbound x r v).forgotten x v.parted = a.dropped x v := by
  have own : (a.released r).unnamed x v = _ :=
    unnamed_apart (a.released r) a.vars (a.released r).owner (a.released r).free a.reserved a.recency x v
  have parted : (a.unbound x r v).unnamed x v.parted = _ :=
    unnamed_apart (a.released r) (a.vars.setIfInBounds x (some v.parted)) (a.released r).owner (a.released r).free
      a.reserved (a.recency.remove x) x v
  rw [dropped, there, Storage.register?, emptied, Option.elim_some, forgotten_eq_unknown, forgotten_eq_unknown, parted]
  conv_rhs => rw [own]
  simp only [unknown, Recency.remove_remove, Array.setIfInBounds_setIfInBounds]

end Allocator

namespace Alloc

open Allocator

variable {w w' : Work} {id : VarId} {front : List Reg}

/-- Dropping a variable succeeds wherever there is one. -/
theorem ran_drop_iff {x : Unit} : Ran (drop id) w x w' ↔
    ∃ v, w.allocator.var? id = some v ∧ w' = on (fun a => a.dropped id v) w := by
  have forth {x : Unit} {w' : Work} (ran : Ran (drop id) w x w') :
      ∃ v, w.allocator.var? id = some v ∧ w' = on (fun a => a.dropped id v) w := by
    obtain ⟨v, found, ⟨away, rfl⟩ | ⟨r, there, rfl⟩⟩ := ran_drop ran
    · refine ⟨v, found, ?_⟩
      unfold Allocator.dropped
      rw [away]
      rfl
    · exact ⟨v, found, by simp only [unbound_forgotten there]⟩
  refine ⟨forth, ?_⟩
  rintro ⟨v, found, rfl⟩
  have runs : ∃ w', Ran (drop id) w () w' := by
    obtain ⟨mid, u, parted, known⟩ : ∃ mid u, Ran (unbind id) w () mid ∧ mid.allocator.var? id = some u := by
      rcases v.storage.in_register with ⟨r, there⟩ | away
      · exact ⟨_, v.parted, ran_unbind.2 ⟨v, found, .inr ⟨r, there, rfl⟩⟩, (var?_unbound found id).trans (if_pos rfl)⟩
      · exact ⟨w, v, ran_unbind.2 ⟨v, found, .inl ⟨away, rfl⟩⟩, found⟩
    unfold drop
    simp only [ran_bind, ran_known, ran_ite, removeTempName, ran_change]
    by_cases temp : u.isTemp
    · exact ⟨_, (), mid, parted, u, mid, ⟨known, rfl⟩, .inl ⟨temp, (), _, rfl, rfl⟩⟩
    · exact ⟨_, (), mid, parted, u, mid, ⟨known, rfl⟩, .inr ⟨temp, (), _, rfl, rfl⟩⟩
  obtain ⟨w', ran⟩ := runs
  obtain ⟨v', found', rfl⟩ := forth ran
  cases found.symm.trans found'
  exact ran

/-- Two states of the work that differ as their allocators do. -/
def Requeued (front : List Reg) (w w' : Work) : Prop :=
  w'.code = w.code ∧ w.allocator.Requeued front w'.allocator

theorem Requeued.refl (first : front <+: w.allocator.free) : Requeued front w w := ⟨rfl, .refl first⟩

theorem Requeued.trans {w₁ w₂ w₃ : Work} (one : Requeued front w₁ w₂) (other : Requeued front w₂ w₃) :
    Requeued front w₁ w₃ := ⟨other.1.trans one.1, one.2.trans other.2⟩

/-- Actions of which each can be done before the other, with the same effect but for the order of what they release. -/
structure Exchanges {α : Type} (f : α → Alloc Unit) : Prop where
  /-- What is released queues up behind what is free. -/
  queues : ∀ {x w w'}, Ran (f x) w () w' → w.allocator.free <+: w'.allocator.free
  /-- The order of what was released before makes no difference. -/
  follows : ∀ {front x w w' u}, Requeued front w u → Ran (f x) w () w' →
    ∃ u', Ran (f x) u () u' ∧ Requeued front w' u'
  swaps : ∀ {front x y w mid w'}, front <+: w.allocator.free → Ran (f x) w () mid → Ran (f y) mid () w' →
    ∃ mid' u, Ran (f y) w () mid' ∧ Ran (f x) mid' () u ∧ Requeued front w' u

namespace Exchanges

variable {α : Type} {f : α → Alloc Unit} {xs ys : List α} {u : Work}

theorem all_follow (exchanges : Exchanges f) (requeued : Requeued front w u) (ran : Ran (xs.forM f) w () w') :
    ∃ u', Ran (xs.forM f) u () u' ∧ Requeued front w' u' := by
  induction xs generalizing w u with
  | nil =>
    rw [ran_forM_nil.1 ran]
    exact ⟨u, ran_forM_nil.2 rfl, requeued⟩
  | cons x rest ih =>
    obtain ⟨mid, one, others⟩ := ran_forM_cons.1 ran
    obtain ⟨mid', one', requeued'⟩ := exchanges.follows requeued one
    obtain ⟨u', others', requeued''⟩ := ih requeued' others
    exact ⟨u', ran_forM_cons.2 ⟨mid', one', others'⟩, requeued''⟩

/-- What is done one after the other can be done in any other order. -/
theorem order (exchanges : Exchanges f) (perm : xs.Perm ys) (first : front <+: w.allocator.free)
    (ran : Ran (xs.forM f) w () w') : ∃ u, Ran (ys.forM f) w () u ∧ Requeued front w' u := by
  -- Two neighbours swap by assumption, and what comes after them follows the state in which they leave the queue.
  induction perm generalizing w w' with
  | nil =>
    rw [ran_forM_nil.1 ran]
    exact ⟨w, ran_forM_nil.2 rfl, .refl first⟩
  | cons x _ ih =>
    obtain ⟨mid, one, others⟩ := ran_forM_cons.1 ran
    obtain ⟨u, others', requeued⟩ := ih (first.trans (exchanges.queues one)) others
    exact ⟨u, ran_forM_cons.2 ⟨mid, one, others'⟩, requeued⟩
  | swap x y rest =>
    obtain ⟨mid, one, others⟩ := ran_forM_cons.1 ran
    obtain ⟨last, other, others⟩ := ran_forM_cons.1 others
    obtain ⟨mid', last', other', one', requeued⟩ := exchanges.swaps first one other
    obtain ⟨u, others', requeued'⟩ := exchanges.all_follow requeued others
    exact ⟨u, ran_forM_cons.2 ⟨mid', other', ran_forM_cons.2 ⟨last', one', others'⟩⟩, requeued'⟩
  | trans _ _ ih ih' =>
    obtain ⟨u, ran₁, requeued⟩ := ih first ran
    obtain ⟨u', ran₂, requeued'⟩ := ih' first ran₁
    exact ⟨u', ran₂, requeued.trans requeued'⟩

end Exchanges

/-! ### Dropping -/

theorem drop_exchanges : Exchanges drop where
  queues ran := by
    obtain ⟨v, -, rfl⟩ := ran_drop_iff.1 ran
    exact first_dropped (List.prefix_refl _) _ v
  follows requeued ran := by
    obtain ⟨v, found, rfl⟩ := ran_drop_iff.1 ran
    have found' := (Allocator.Requeued.var? requeued.2 _).trans found
    exact ⟨_, ran_drop_iff.2 ⟨v, found', rfl⟩, requeued.1, requeued.2.dropped _ v⟩
  swaps {front x y w mid w'} first one other := by
    obtain ⟨v, found, rfl⟩ := ran_drop_iff.1 one
    obtain ⟨u, found', rfl⟩ := ran_drop_iff.1 other
    rw [allocator_on, var?_dropped] at found'
    split at found'
    · cases found'
    · next apart =>
      have found'' : (w.allocator.dropped y u).var? x = some v :=
        (var?_dropped y x u).trans ((if_neg (Ne.symm apart)).trans found)
      exact ⟨_, _, ran_drop_iff.2 ⟨u, found', rfl⟩, ran_drop_iff.2 ⟨v, found'', rfl⟩, rfl,
        dropped_comm first (Ne.symm apart) v u⟩

theorem forM_drop (entries : List (String × VarId)) :
    (entries.forM fun entry => drop entry.2) = (entries.map Prod.snd).forM drop := by
  induction entries with
  | nil => rfl
  | cons entry rest ih => exact congrArg (fun others => drop entry.2 >>= fun _ => others) ih

/-- The variables of a level are dropped in any order when it is closed. -/
theorem closeLevel_order {level level' : Level} (perm : level.names.Perm level'.names)
    (ran : Ran (closeLevel level) w () w') :
    ∃ u, Ran (closeLevel level') w () u ∧ Requeued w.allocator.free w' u := by
  simp only [closeLevel, forM_drop, ran_bind, ran_change] at ran ⊢
  obtain ⟨_, mid, dropped, rfl⟩ := ran
  obtain ⟨u, dropped', code, back, back', perm', queue, rest⟩ :=
    drop_exchanges.order (perm.map Prod.snd) (List.prefix_refl w.allocator.free) dropped
  refine ⟨_, ⟨(), u, dropped', rfl⟩, code, back, back', perm', queue, ?_⟩
  rw [allocator_on, rest]
  rfl

/-- All temporaries are dropped in any order. -/
theorem discardTemps_order {temps : List (String × VarId)} {n : Nat} (perm : w.allocator.temps.Perm temps)
    (ran : Ran discardTemps w n w') :
    n = temps.length ∧ ∃ u, Ran (temps.forM fun temp => drop temp.2) w () u ∧ Requeued w.allocator.free w' u := by
  simp only [discardTemps, ran_bind, ran_look, ran_pure, and_assoc, exists_and_left, exists_eq_left, forM_drop] at ran ⊢
  obtain ⟨_, _, dropped, rfl, rfl⟩ := ran
  exact ⟨perm.length_eq, drop_exchanges.order (perm.map Prod.snd) (List.prefix_refl _) dropped⟩

/-! ### Putting back -/

/-- A register is put back into circulation, unless a variable is in it. -/
def recirculate (r : Reg) : Alloc Unit := do
  if (← look fun a => a.ownerOf r).isNone then release r

/-- What putting back comes to. -/
theorem ran_recirculate {r : Reg} {x : Unit} :
    Ran (recirculate r) w x w' ↔ w' = on (fun a => a.emptied (a.vacant? r)) w := by
  unfold recirculate vacant?
  simp only [ran_bind, ran_look, ran_ite, ran_release, ran_pure, and_assoc, exists_and_left, exists_eq_left]
  by_cases vacant : (w.allocator.ownerOf r).isNone
  · have back : on (fun a => a.emptied (if (a.ownerOf r).isNone then some r else none)) w =
        on (fun a => a.released r) w := by
      simp only [on, if_pos vacant, emptied, Option.elim_some]
    rw [back]
    simp only [vacant, true_and, not_true_eq_false, false_and, or_false]
  · have same : on (fun a => a.emptied (if (a.ownerOf r).isNone then some r else none)) w = w := by
      simp only [on, if_neg vacant, emptied, Option.elim_none]
    rw [same]
    simp only [vacant, Bool.false_eq_true, false_and, not_false_eq_true, true_and, false_or]

theorem recirculate_exchanges : Exchanges recirculate where
  queues ran := by
    rw [ran_recirculate.1 ran]
    exact first_emptied (List.prefix_refl _) _
  follows {front r w w' u} requeued ran := by
    rw [ran_recirculate.1 ran]
    refine ⟨_, ran_recirculate.2 rfl, requeued.1, ?_⟩
    rw [allocator_on, allocator_on, requeued.2.vacant?]
    exact requeued.2.emptied _
  swaps {front r s w mid w'} first one other := by
    rw [ran_recirculate.1 other, ran_recirculate.1 one]
    refine ⟨_, _, ran_recirculate.2 rfl, ran_recirculate.2 rfl, rfl, ?_⟩
    simp only [allocator_on, vacant?_emptied]
    exact emptied_comm first _ _

/-- Reserved registers are put back in any order. -/
theorem unreserveAll_order {reserved : List Reg} (perm : w.allocator.reserved.Perm reserved)
    (ran : Ran unreserveAll w () w') :
    ∃ u, Ran unreserveAll (on (fun a => { a with reserved }) w) () u ∧ Requeued w.allocator.free w' u := by
  have puts (w w' : Work) : Ran unreserveAll w () w' ↔
      Ran (w.allocator.reserved.forM recirculate) (on (fun a => { a with reserved := [] }) w) () w' := by
    simp only [unreserveAll, ran_bind, ran_look, ran_change, and_assoc, exists_and_left, exists_eq_left, exists_const]
    rfl
  rw [puts] at ran
  obtain ⟨u, ran', requeued⟩ := recirculate_exchanges.order perm (List.prefix_refl _) ran
  exact ⟨u, (puts _ u).2 ran', requeued⟩

/-- As long as a register that was free before is not held, the order of those released makes no difference to which one
is taken. -/
theorem take_requeued {u : Work} (requeued : Requeued front w u) (loose : ∃ r ∈ front, r ∉ w.allocator.held) :
    ∃ r ∈ front, ∃ w' u', Ran take w r w' ∧ Ran take u r u' ∧ Requeued (front.filter (· ≠ r)) w' u' := by
  obtain ⟨code, back, back', perm, queue, rest⟩ := requeued
  obtain ⟨r, first⟩ : ∃ r, front.find? (· ∉ w.allocator.held) = some r := by
    obtain ⟨r, member, free⟩ := loose
    exact Option.isSome_iff_exists.1 (List.find?_isSome.2 ⟨r, member, decide_eq_true free⟩)
  have found (others : List Reg) : (front ++ others).find? (· ∉ w.allocator.held) = some r := by
    rw [List.find?_append, first, Option.some_or]
  have taken : Ran take w r (on (fun a => a.withdrawn r) w) := take_of_free ((congrArg _ queue).trans (found back))
  have taken' : Ran take u r (on (fun a => a.withdrawn r) u) := by
    refine take_of_free ?_
    rw [rest]
    exact found back'
  refine ⟨r, List.mem_of_find?_eq_some first, _, _, taken, taken', code, _, _, perm.filter (· ≠ r), ?_, ?_⟩
  · rw [allocator_on, withdrawn, queue, List.filter_append]
  · rw [allocator_on, allocator_on, withdrawn, withdrawn, rest, List.filter_append]

end Alloc

end SmallC
