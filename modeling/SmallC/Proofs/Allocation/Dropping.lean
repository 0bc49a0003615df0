import SmallC.Proofs.Allocation.Keeping

/-!
Dropping variables. Nothing is left of a dropped variable: its register is free, its name stands for
nothing and its home is its own no more.
-/
namespace SmallC

namespace Allocator

variable {a a' : Allocator} {id other : VarId} {v : Variable} {r : Reg} {hand : List Reg}

/-- The name of a variable stands for nothing, and nothing is known about it. -/
def forgotten (a : Allocator) (id : VarId) (v : Variable) : Allocator :=
  { (if v.isTemp then { a with temps := Level.without v.name a.temps }
      else a.modifyLevel v.depth (Level.removeNameOf v.name id)) with
    recency := a.recency.remove id
    vars := a.vars.setIfInBounds id none }

theorem var?_forgotten :
    (a.forgotten id v).var? other = if other = id then none else a.var? other :=
  var?_dropVar (a := a)

/-- What does not concern names and variables stays. -/
theorem forgotten_eq (a : Allocator) (id : VarId) (v : Variable) :
    a.forgotten id v = { a with
      root := (a.forgotten id v).root
      inner := (a.forgotten id v).inner
      temps := (a.forgotten id v).temps
      recency := a.recency.remove id
      vars := a.vars.setIfInBounds id none } := by
  unfold forgotten
  split
  · rfl
  · rw [modifyLevel_eq]

theorem removeNameOf_names {l : Level} {name : String} (once : (l.names.map Prod.fst).Nodup)
    (member : (name, id) ∈ l.names) :
    (l.removeNameOf name id).names = Level.without name l.names := by
  rw [Level.removeNameOf, if_pos ((Level.lookup_eq_some once).2 member)]
  rfl

theorem Names.forgotten (names : Names a) (found : a.var? id = some v) :
    Names (a.forgotten id v) := by
  cases isTemp : v.isTemp with
  | true =>
    have same : a.forgotten id v = { a with
        temps := Level.without v.name a.temps
        recency := a.recency.remove id
        vars := a.vars.setIfInBounds id none } := by
      rw [Allocator.forgotten, if_pos isTemp]
    rw [same]
    exact names.forgetTemp found isTemp (fun other => var?_dropVar (a := a)) rfl rfl rfl
  | false =>
    have same : a.forgotten id v = { a.modifyLevel v.depth (Level.removeNameOf v.name id) with
        recency := a.recency.remove id
        vars := a.vars.setIfInBounds id none } := by
      rw [Allocator.forgotten, if_neg (by rw [isTemp]; exact nofun)]
    rw [same]
    refine names.forgetNamed found isTemp (fun l level => ?_) (fun other => var?_dropVar (a := a))
      (temps_modifyLevel _ _) (nextTemp_modifyLevel _ _) (levels_modifyLevel _ _)
    obtain ⟨l', level', member⟩ := names.named found isTemp
    rw [level] at level'
    cases level'
    exact removeNameOf_names (names.levelOnce level) member

theorem depth_forgotten : (a.forgotten id v).depth = a.depth := by
  unfold forgotten
  split
  · rfl
  · exact depth_modifyLevel _ _

/-- The homes once nothing is left of a variable. -/
theorem Homes.forget (homes : Homes a)
    (vars : ∀ other, a'.var? other = if other = id then none else a.var? other)
    (grants : ∀ {home}, a.Grants home → a'.Grants home) : Homes a' := by
  refine ⟨fun {i w h} found has => ?_, fun {i j w w' h} found found' => ?_,
    fun {i w h} found => ?_⟩
  · rw [vars] at found
    split at found
    · cases found
    · exact grants (homes.granted found has)
  · rw [vars] at found found'
    split at found
    · cases found
    · split at found'
      · cases found'
      · exact homes.apart found found'
  · rw [vars] at found
    split at found
    · cases found
    · exact homes.root found

/-- Nothing is left of a variable, and all else is in order. -/
theorem Settled.forget (settled : Settled hand a) (id : VarId) (registers : Registers hand a') (names : Names a')
    (vars : ∀ other, a'.var? other = if other = id then none else a.var? other)
    (grants : ∀ {home}, a.Grants home → a'.Grants home) : Settled hand a' where
  registers := registers
  names := names
  homes := settled.homes.forget vars grants
  fits {i w} found := by
    rw [vars] at found
    split at found
    · cases found
    · exact settled.fits found

theorem grants_forgotten {home : Home} (granted : a.Grants home) :
    (a.forgotten id v).Grants home := by
  rw [forgotten_eq]
  exact granted

theorem Body.forgotten (body : Body a) : Body (a.forgotten id v) := by
  refine body.congr ?_ depth_forgotten ?_ <;> rw [forgotten_eq]

end Allocator

namespace Alloc

open Allocator

variable {w w' : Work} {id : VarId} {hand : List Reg}

/-- A dropped variable is forgotten, once it is parted from its register if it is in one. -/
theorem ran_drop {x : Unit} (ran : Ran (drop id) w x w') :
    ∃ v, w.allocator.var? id = some v ∧
      ((v.storage.register? = none ∧ w' = on (fun a => a.forgotten id v) w) ∨
        ∃ r, v.storage = .register r ∧
          w' = on (fun a => (a.unbound id r v).forgotten id v.parted) w) := by
  unfold drop at ran
  simp only [ran_bind, ran_known] at ran
  obtain ⟨_, _, parted, u, mid, ⟨known, rfl⟩, ran⟩ := ran
  have forgets : w' = on (fun a => a.forgotten id u) mid := by
    cases isTemp : u.isTemp with
    | true =>
      simp only [isTemp, ↓reduceIte, ran_bind, removeTempName, ran_change] at ran
      obtain ⟨_, _, rfl, rfl⟩ := ran
      simp [on, Allocator.forgotten, isTemp]
    | false =>
      simp only [isTemp, Bool.false_eq_true, ↓reduceIte, ran_bind, ran_change] at ran
      obtain ⟨_, _, rfl, rfl⟩ := ran
      simp [on, Allocator.forgotten, isTemp]
  obtain ⟨v, found, ⟨away, rfl⟩ | ⟨r, there, rfl⟩⟩ := ran_unbind.1 parted
  · have same : u = v := Option.some.inj (known.symm.trans found)
    exact ⟨v, found, .inl ⟨away, same ▸ forgets⟩⟩
  · rw [allocator_on, var?_unbound found, if_pos rfl] at known
    cases known
    exact ⟨v, found, .inr ⟨r, there, forgets⟩⟩

theorem code_drop {x : Unit} (ran : Ran (drop id) w x w') : w'.code = w.code := by
  obtain ⟨v, -, ⟨-, rfl⟩ | ⟨r, -, rfl⟩⟩ := ran_drop ran <;> rfl

theorem drop_settled {x : Unit} (settled : Settled hand w.allocator) (ran : Ran (drop id) w x w') :
    Settled hand w'.allocator := by
  obtain ⟨v, found, ⟨away, rfl⟩ | ⟨r, there, rfl⟩⟩ := ran_drop ran
  · have away' : ∀ s, v.storage ≠ .register s := by
      intro s there
      rw [there] at away
      cases away
    refine settled.forget id (settled.registers.change_vars id ?_ (fun other apart => ?_)
      (fun u s found' => ?_) (fun u s found' => ?_) (fun other => ?_) ?_ ?_ ?_)
      (settled.names.forgotten found) (fun other => var?_forgotten) grants_forgotten
    · rw [allocator_on, forgotten_eq]
    · rw [allocator_on, var?_forgotten, if_neg apart]
    · rw [found] at found'
      cases found'
      exact away' s
    · rw [allocator_on, var?_forgotten, if_pos rfl] at found'
      cases found'
    · rw [allocator_on, forgotten_eq]
      refine Recency.mem_remove.trans (and_iff_right_of_imp ?_)
      rintro member rfl
      obtain ⟨s, owned⟩ := settled.registers.recent.1 member
      obtain ⟨u, found', there⟩ := settled.registers.owner.1 owned
      rw [found] at found'
      cases found'
      exact away' s there
    · rw [allocator_on, forgotten_eq]
    · rw [allocator_on, forgotten_eq]
    · rw [allocator_on, Allocator.parked, forgotten_eq]
      rfl
  · have owned : w.allocator.ownerOf r = some id := settled.registers.owner.2 ⟨v, found, there⟩
    have names : Names (w.allocator.unbound id r v) :=
      (settled.names.setVar found v.parted rfl rfl rfl).congr (fun _ => rfl) rfl rfl fun _ => rfl
    have found' : (w.allocator.unbound id r v).var? id = some v.parted := by
      rw [var?_unbound found, if_pos rfl]
    have vars : ∀ other, ((w.allocator.unbound id r v).forgotten id v.parted).var? other =
        if other = id then none else w.allocator.var? other := by
      intro other
      rw [var?_forgotten, var?_unbound found]
      by_cases here : other = id
      · rw [if_pos here, if_pos here]
      · rw [if_neg here, if_neg here, if_neg here]
    have owner : ∀ s, ((w.allocator.unbound id r v).forgotten id v.parted).ownerOf s =
        if s = r then none else w.allocator.ownerOf s := by
      intro s
      rw [forgotten_eq]
      have unbound : (w.allocator.unbound id r v).ownerOf s = _ := ownerOf_unbound
      exact unbound
    refine settled.forget id (settled.registers.released owned (settled.registers.toOwners.leave
      owned owner (fun other apart => (vars other).trans (if_neg apart)) (fun u s known => ?_)
      fun other => ?_) owner ?_ ?_ ?_) (names.forgotten found') vars
      (grants_forgotten (a := w.allocator.unbound id r v))
    · rw [allocator_on, vars, if_pos rfl] at known
      cases known
    · rw [allocator_on, forgotten_eq]
      change other ∈ ((w.allocator.recency.remove id).remove id).toList ↔ _
      rw [Recency.mem_remove, Recency.mem_remove]
      exact ⟨And.right, fun both => ⟨both.1, both⟩⟩
    · rw [allocator_on, forgotten_eq]
      rfl
    · rw [allocator_on, forgotten_eq]
      rfl
    · rw [allocator_on, Allocator.parked, forgotten_eq]
      rfl

theorem drop_sound {x : Unit} (sound : Sound hand w.allocator) (ran : Ran (drop id) w x w') :
    Sound hand w'.allocator := by
  refine ⟨drop_settled sound.toSettled ran, ?_⟩
  obtain ⟨v, -, ⟨-, rfl⟩ | ⟨r, -, rfl⟩⟩ := ran_drop ran
  · exact sound.body.forgotten
  · exact Body.forgotten (sound.body.congr rfl rfl rfl)

/-- Nothing is known about a dropped variable, and as much as before about the others. -/
theorem var?_drop {x : Unit} (ran : Ran (drop id) w x w') (other : VarId) :
    w'.allocator.var? other = if other = id then none else w.allocator.var? other := by
  obtain ⟨v, found, ⟨-, rfl⟩ | ⟨r, there, rfl⟩⟩ := ran_drop ran
  · exact var?_forgotten
  · rw [allocator_on, var?_forgotten, var?_unbound found]
    by_cases here : other = id
    · rw [if_pos here, if_pos here]
    · rw [if_neg here, if_neg here, if_neg here]

end Alloc

end SmallC
