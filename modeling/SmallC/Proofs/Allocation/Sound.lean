import SmallC.Proofs.Allocation.Directory
import SmallC.Proofs.Allocation.Registers

/-!
The state between two steps of the allocator. Registers are accounted for, names and homes are in order,
every variable fits its own storage, and what a function body found is kept for its end. Each elementary
change preserves this, so every operation does that is made of such changes.
-/
namespace SmallC

/-- What holds of a variable by itself: it is in no memory but its own, a named one has memory to go to,
and a pinned one is never in memory. -/
structure Variable.Fits (v : Variable) : Prop where
  memory : ∀ {home}, v.storage = .memory home → v.memory? = some home
  home : v.isTemp = false → v.memory?.isSome
  unpinned : v.isTemp = false → v.isPinned = false
  unsaved : v.isTemp = false → ∀ slot, v.storage ≠ .saved slot
  pinned : v.isPinned = true → ∀ home, v.storage ≠ .memory home

/-- A scalar that has a name has a home. -/
theorem Variable.Fits.home_of_scalar {v : Variable} (fits : v.Fits) (scalar : v.array = none) (isNamed : v.isTemp = false) :
    v.home.isSome = true := by
  have memory := fits.home isNamed
  rwa [Variable.memory?, scalar] at memory

/-- The registers outside of a function body are accounted for. -/
structure Outside.Accounted (o : Outside) : Prop where
  ids : (o.bindings.map Prod.fst).Nodup
  once : ∀ r, o.free.count r + (o.bindings.map fun b => b.2.1).count r ≤ 1
  pool : ∀ {r : Reg}, r.isPool → 1 ≤ o.free.count r + (o.bindings.map fun b => b.2.1).count r
  freePool : ∀ {r}, r ∈ o.free → r.isPool
  recent : ∀ {id}, id ∈ o.recency.toList ↔ id ∈ o.bindings.map Prod.fst

namespace Allocator

/-- Whether a home lies in memory that was handed out. -/
def Grants (a : Allocator) : Home → Prop
  | .global address => address < a.globals
  | .frame slot => ∃ size, a.frame = some size ∧ slot < size

/-- Homes lie in memory that was handed out, are the variable's own, and outlast the body of a function
where the variable does. -/
structure Homes (a : Allocator) : Prop where
  granted : ∀ {id v home}, a.var? id = some v → v.home = some home → a.Grants home
  apart : ∀ {id other v v' home}, a.var? id = some v → a.var? other = some v' →
    v.home = some home → v'.home = some home → id = other
  root : ∀ {id v home}, a.var? id = some v → v.isTemp = false → v.depth = 0 →
    v.home = some home → ∃ address, home = .global address

/-- Inside of a function body, and only there, are there a frame and registers to come back. -/
structure Body (a : Allocator) : Prop where
  frame : a.frame.isSome = a.outside.isSome
  level : a.frame.isSome → a.inner ≠ []
  outside : ∀ {o}, a.outside = some o → o.Accounted

/-- Variables are in order, with some registers in hand. -/
structure Settled (hand : List Reg) (a : Allocator) : Prop where
  registers : Registers hand a
  names : Names a
  homes : Homes a
  fits : ∀ {id v}, a.var? id = some v → v.Fits

/-- The state is in order, with some registers in hand. -/
structure Sound (hand : List Reg) (a : Allocator) : Prop extends Settled hand a where
  body : Body a

/-- The home that is handed out next. -/
def nextHome (a : Allocator) : Home :=
  match a.frame with
  | some slot => .frame slot
  | none => .global a.globals

/-- So many words of memory are handed out. -/
def grown (a : Allocator) (words : Nat) : Allocator :=
  { a with
    frame := a.frame.map fun slot => slot + words
    globals := if a.frame.isSome then a.globals else a.globals + words }

variable {hand hand' : List Reg} {a a' : Allocator} {id other : VarId} {r : Reg} {v v' : Variable}
  {home : Home}

theorem grown_zero (a : Allocator) : a.grown 0 = a := by
  cases frame : a.frame <;> simp [grown, frame] <;> rw [← frame]

theorem grants_grown (granted : a.Grants home) (words : Nat) : (a.grown words).Grants home := by
  cases home with
  | global address =>
    unfold grown Grants at *
    simp only
    split <;> omega
  | frame slot =>
    obtain ⟨size, found, inside⟩ := granted
    exact ⟨size + words, by simp [grown, found], Nat.lt_add_right words inside⟩

theorem grants_nextHome {words : Nat} (positive : 0 < words) :
    (a.grown words).Grants a.nextHome := by
  unfold nextHome
  cases found : a.frame with
  | none =>
    simp only [grown, Grants, found]
    exact Nat.lt_add_of_pos_right positive
  | some slot => exact ⟨slot + words, by simp [grown, found], Nat.lt_add_of_pos_right positive⟩

theorem not_grants_nextHome : ¬ a.Grants a.nextHome := by
  unfold nextHome
  cases found : a.frame with
  | none => exact Nat.lt_irrefl _
  | some slot =>
    rintro ⟨size, found', inside⟩
    rw [found] at found'
    cases found'
    exact Nat.lt_irrefl _ inside

namespace Homes

/-- Homes stay in order as memory is handed out, and one variable may get the home handed out next. -/
theorem change (homes : Homes a) (id : VarId) (grants : ∀ {home}, a.Grants home → a'.Grants home)
    (others : ∀ other, other ≠ id → a'.var? other = a.var? other)
    (own : ∀ {w home}, a'.var? id = some w → w.home = some home →
      ((∃ v, a.var? id = some v ∧ v.home = some home) ∨ home = a.nextHome) ∧ a'.Grants home)
    (root : ∀ {w home}, a'.var? id = some w → w.isTemp = false → w.depth = 0 →
      w.home = some home → ∃ address, home = .global address) : Homes a' where
  granted {i w h} found has := by
    by_cases here : i = id
    · subst here
      exact (own found has).2
    · rw [others i here] at found
      exact grants (homes.granted found has)
  apart {i j w w' h} found found' has has' := by
    have clash : ∀ {k : VarId} {x y : Variable}, k ≠ id → a'.var? k = some x → x.home = some h →
        a'.var? id = some y → y.home = some h → False := by
      intro k x y elsewhere found has found' has'
      rw [others k elsewhere] at found
      rcases (own found' has').1 with ⟨v, known, had⟩ | fresh
      · exact elsewhere (homes.apart found known has had)
      · rw [fresh] at has
        exact not_grants_nextHome (homes.granted found has)
    by_cases here : i = id
    · by_cases here' : j = id
      · rw [here, here']
      · subst here
        exact (clash here' found' has' found has).elim
    · by_cases here' : j = id
      · subst here'
        exact (clash here found has found' has').elim
      · rw [others i here] at found
        rw [others j here'] at found'
        exact homes.apart found found' has has'
  root {i w h} found isNamed depth has := by
    by_cases here : i = id
    · subst here
      exact root found isNamed depth has
    · rw [others i here] at found
      exact homes.root found isNamed depth has

/-- What is known about a variable changes, but not its home. -/
theorem setVar (homes : Homes a) (found : a.var? id = some v) (v' : Variable) (temp : v'.isTemp = v.isTemp)
    (depth : v'.depth = v.depth) (home : v'.home = v.home) : Homes (a.setVar id v') := by
  refine homes.change id (fun granted => granted) (fun other => var?_setVar_of_ne)
    (fun {w h} found' has => ?_) (fun {w h} found' isNamed shallow has => ?_)
  · rw [var?_setVar found, if_pos rfl] at found'
    cases found'
    rw [home] at has
    exact ⟨.inl ⟨v, found, has⟩, homes.granted found has⟩
  · rw [var?_setVar found, if_pos rfl] at found'
    cases found'
    exact homes.root found (temp ▸ isNamed) (depth ▸ shallow) (home ▸ has)

end Homes

namespace Body

/-- A change of levels that leaves their number alone, and of the frame that leaves it there. -/
theorem congr (body : Body a) (frame : a'.frame.isSome = a.frame.isSome) (depth : a'.depth = a.depth)
    (outside : a'.outside = a.outside) : Body a' := by
  refine ⟨by rw [frame, outside, body.frame], fun inside empty => ?_, fun {o} found => ?_⟩
  · rw [Allocator.depth, Allocator.depth, empty] at depth
    exact body.level (frame ▸ inside) (List.eq_nil_of_length_eq_zero depth.symm)
  · rw [outside] at found
    exact body.outside found

/-- At the root, memory that is handed out is global. -/
theorem root (body : Body a) (granted : a.Grants home) (shallow : a.depth = 0) :
    ∃ address, home = .global address := by
  cases home with
  | global address => exact ⟨address, rfl⟩
  | frame slot =>
    obtain ⟨size, frame, -⟩ := granted
    exact absurd (List.eq_nil_of_length_eq_zero shallow) (body.level (by rw [frame]; rfl))

end Body

namespace Settled

/-- A variable with memory to go to is parted from its register, unless it is pinned. -/
theorem unbound (settled : Settled hand a) (found : a.var? id = some v) (there : v.storage = .register r)
    (memory : v.memory? = some home) (unpinned : v.isPinned = false) :
    Settled hand (a.unbound id r v) := by
  have storage : v.parted.storage = .memory home := by simp [Variable.parted, memory]
  have fits := settled.fits found
  refine ⟨settled.registers.unbound found there ?_, ?_, ?_, fun {i w} found' => ?_⟩
  · rw [storage]
    exact nofun
  · exact (settled.names.setVar found v.parted rfl rfl rfl).congr (fun _ => rfl) rfl rfl
      fun _ => rfl
  · have homes := settled.homes.setVar found v.parted rfl rfl rfl
    exact ⟨homes.granted, homes.apart, homes.root⟩
  · rw [var?_unbound found] at found'
    split at found'
    · cases found'
      refine ⟨fun {h} there => ?_, fits.home, fits.unpinned, fun _ slot there => ?_,
        fun pinned => ?_⟩
      · rw [storage] at there
        cases there
        exact memory
      · rw [storage] at there
        cases there
      · rw [show v.parted.isPinned = v.isPinned from rfl, unpinned] at pinned
        cases pinned
    · exact settled.fits found'

end Settled

namespace Sound

/-- What is known about a variable changes, but neither its name nor where it is or belongs. -/
theorem setVar (sound : Sound hand a) (found : a.var? id = some v) (v' : Variable)
    (register : ∀ s, v'.storage = .register s ↔ v.storage = .register s) (name : v'.name = v.name)
    (temp : v'.isTemp = v.isTemp) (depth : v'.depth = v.depth) (home : v'.home = v.home)
    (fits : v'.Fits) : Sound hand (a.setVar id v') where
  registers := sound.registers.setVar found v' register
  names := sound.names.setVar found v' name temp depth
  homes := sound.homes.setVar found v' temp depth home
  fits {i w} found' := by
    rw [var?_setVar found] at found'
    split at found'
    · cases found'
      exact fits
    · exact sound.fits found'
  body := ⟨sound.body.frame, sound.body.level, sound.body.outside⟩

theorem withdrawn (sound : Sound hand a) (free : r ∈ a.free) :
    Sound (r :: hand) (a.withdrawn r) where
  registers := sound.registers.withdrawn free
  names := sound.names.congr (fun _ => rfl) rfl rfl fun _ => rfl
  homes := ⟨sound.homes.granted, sound.homes.apart, sound.homes.root⟩
  fits := sound.fits
  body := ⟨sound.body.frame, sound.body.level, sound.body.outside⟩

theorem unbound (sound : Sound hand a) (found : a.var? id = some v) (there : v.storage = .register r)
    (memory : v.memory? = some home) (unpinned : v.isPinned = false) :
    Sound hand (a.unbound id r v) :=
  ⟨sound.toSettled.unbound found there memory unpinned, sound.body.congr rfl rfl rfl⟩

/-- A variable comes to the register in hand. -/
theorem bound (sound : Sound (r :: hand) a) (found : a.var? id = some v)
    (away : ∀ s, v.storage ≠ .register s) : Sound hand (a.bound id r v) where
  registers := sound.registers.bound found away
  names := (sound.names.setVar found { v with storage := .register r } rfl rfl rfl).congr
    (fun _ => rfl) rfl rfl fun _ => rfl
  homes := by
    have homes := sound.homes.setVar found { v with storage := .register r } rfl rfl rfl
    exact ⟨homes.granted, homes.apart, homes.root⟩
  fits {i w} found' := by
    rw [var?_bound found] at found'
    split at found'
    · cases found'
      have fits := sound.fits found
      exact ⟨nofun, fits.home, fits.unpinned, fun _ _ => nofun, fun _ _ => nofun⟩
    · exact sound.fits found'
  body := ⟨sound.body.frame, sound.body.level, sound.body.outside⟩

/-- Memory that is handed out changes nothing else. -/
theorem grown (sound : Sound hand a) (words : Nat) : Sound hand (a.grown words) where
  registers := sound.registers.of_same_places ⟨sound.registers.owner, sound.registers.recent⟩
    (fun _ => rfl) (fun _ => sound.registers.freePool) (fun _ => sound.registers.reservedPool)
  names := sound.names.congr (fun _ => rfl) rfl rfl fun _ => rfl
  homes := ⟨fun found has => grants_grown (sound.homes.granted found has) words, sound.homes.apart,
    sound.homes.root⟩
  fits := sound.fits
  body := by
    have frame : (a.grown words).frame.isSome = a.frame.isSome := by simp [Allocator.grown]
    refine ⟨frame.trans sound.body.frame, fun inside => ?_, sound.body.outside⟩
    exact sound.body.level (frame ▸ inside)

/-- A temporary gets the home that is handed out next. -/
theorem giveHome (sound : Sound hand a) (found : a.var? id = some v) (isTemp : v.isTemp = true)
    (homeless : v.home = none) :
    Sound hand ((a.grown 1).setVar id { v with home := some a.nextHome }) where
  registers := (sound.grown 1).registers.setVar found _ fun _ => Iff.rfl
  names := (sound.grown 1).names.setVar found _ rfl rfl rfl
  homes := by
    refine sound.homes.change id (fun granted => grants_grown granted 1)
      (fun other apart => var?_setVar_of_ne (a := a.grown 1) apart) (fun {w h} found' has => ?_)
      (fun {w h} found' isNamed => ?_)
    · rw [var?_setVar (a := a.grown 1) found, if_pos rfl] at found'
      cases found'
      cases has
      exact ⟨.inr rfl, grants_nextHome Nat.one_pos⟩
    · rw [var?_setVar (a := a.grown 1) found, if_pos rfl] at found'
      cases found'
      rw [show _ = v.isTemp from rfl, isTemp] at isNamed
      cases isNamed
  fits {i w} found' := by
    rw [var?_setVar (a := a.grown 1) found] at found'
    split at found'
    · cases found'
      have fits := sound.fits found
      refine ⟨fun {h} there => ?_, ?_, ?_, ?_, fits.pinned⟩
      · have memory := fits.memory there
        unfold Variable.memory? at memory ⊢
        rw [homeless] at memory
        cases array : v.array with
        | none =>
          rw [array] at memory
          cases memory
        | some block =>
          rw [array] at memory
          exact memory
      all_goals
        intro isNamed
        rw [show _ = v.isTemp from rfl, isTemp] at isNamed
        cases isNamed
    · exact sound.fits found'
  body := ⟨(sound.grown 1).body.frame, (sound.grown 1).body.level, (sound.grown 1).body.outside⟩

/-- Holds, pushed words and the order of use are free to change, the last among the variables in
registers. -/
theorem congr (sound : Sound hand a)
    (recency : ∀ other, other ∈ a'.recency.toList ↔ other ∈ a.recency.toList)
    (same : a' = { a with held := a'.held, pushed := a'.pushed, recency := a'.recency }) :
    Sound hand a' := by
  rw [same]
  refine ⟨⟨?_, sound.names.congr (fun _ => rfl) rfl rfl fun _ => rfl,
    ⟨sound.homes.granted, sound.homes.apart, sound.homes.root⟩, sound.fits⟩,
    ⟨sound.body.frame, sound.body.level, sound.body.outside⟩⟩
  exact sound.registers.of_same_places
    ⟨sound.registers.owner, fun {other} => (recency other).trans sound.registers.recent⟩ (fun _ => rfl)
    (fun _ => sound.registers.freePool) (fun _ => sound.registers.reservedPool)

/-- A new named variable stands in the innermost level, and its home, if it has one, is the one that is
handed out next. -/
theorem addNamed {words : Nat} (sound : Sound hand a) (registers : Registers hand' a')
    (isNamed : v.isTemp = false) (depth : v.depth = a.depth)
    (unbound : a.current.names.lookup v.name = none) (positive : 0 < words)
    (home : ∀ {home}, v.home = some home → home = a.nextHome) (fits : v.Fits)
    (vars : ∀ other, a'.var? other = if other = a.vars.size then some v else a.var? other)
    (rest : a' = { (a.grown words).modifyCurrent (Level.addName v.name a.vars.size) with
      vars := a'.vars, owner := a'.owner, recency := a'.recency, held := a'.held, free := a'.free }) :
    Sound hand' a' := by
  have absent : a.var? a.vars.size = none := by simp [var?]
  have fields := modifyLevel_eq (a := a.grown words) (a.grown words).depth
    (Level.addName v.name a.vars.size)
  have level : a'.levels = a.levels.modify a.depth (Level.addName v.name a.vars.size) := by
    rw [rest]
    exact levels_modifyLevel (a := a.grown words) _ _
  have grants : ∀ {home}, (a.grown words).Grants home → a'.Grants home := by
    intro home granted
    rw [rest, modifyCurrent, fields]
    exact granted
  refine ⟨⟨registers, ?_, ?_, fun {i w} found => ?_⟩, ?_⟩
  · refine sound.names.addNamed absent isNamed depth unbound vars ?_ ?_ level
    · rw [rest, modifyCurrent, fields]
      rfl
    · rw [rest, modifyCurrent, fields]
      rfl
  · refine sound.homes.change a.vars.size (fun granted => grants (grants_grown granted words))
      (fun other apart => (vars other).trans (if_neg apart)) (fun {w h} found has => ?_)
      fun {w h} found _ shallow has => ?_
    · rw [vars, if_pos rfl] at found
      cases found
      rw [home has]
      exact ⟨.inr rfl, grants (grants_nextHome positive)⟩
    · rw [vars, if_pos rfl] at found
      cases found
      rw [home has]
      exact (sound.grown words).body.root (grants_nextHome positive) (depth.symm.trans shallow)
  · rw [vars] at found
    split at found
    · cases found
      exact fits
    · exact sound.fits found
  · refine sound.body.congr ?_ ?_ ?_
    · rw [rest, modifyCurrent, fields]
      exact Option.isSome_map
    · have length := congrArg List.length level
      rw [List.length_modify, length_levels, length_levels] at length
      exact Nat.succ.inj length
    · rw [rest, modifyCurrent, fields]
      rfl

/-- A new named variable comes to the register in hand, with the home that is handed out next. -/
theorem introduce (sound : Sound (r :: hand) a) (isNamed : v.isTemp = false) (depth : v.depth = a.depth)
    (unbound : a.current.names.lookup v.name = none) (home : v.home = some a.nextHome)
    (fits : v.Fits) (there : v.storage = .register r) :
    Sound hand ((((a.grown 1).addVar v).modifyCurrent (Level.addName v.name a.vars.size)).bound
      a.vars.size r v) := by
  have fields := modifyLevel_eq (a := (a.grown 1).addVar v) ((a.grown 1).addVar v).depth
    (Level.addName v.name a.vars.size)
  have same : { v with storage := .register r } = v := by rw [← there]
  refine sound.addNamed ?_ isNamed depth unbound Nat.one_pos
    (fun has => Option.some.inj (has.symm.trans home)) fits (fun other => ?_) ?_
  · refine ((sound.grown 1).registers.introduced (v := v)).congr ?_ ?_
      (fun _ => by rw [modifyCurrent, fields]; rfl) ?_ ?_ ?_ <;>
    · rw [modifyCurrent, fields]
      rfl
  · have found : ((a.grown 1).addVar v).var? a.vars.size = some v := by
      rw [var?_addVar]
      exact if_pos rfl
    rw [var?_bound (by rw [modifyCurrent, var?_modifyLevel, found]), same]
    split
    · rfl
    · next apart =>
      rw [modifyCurrent, var?_modifyLevel, var?_addVar]
      exact if_neg apart
  · rw [modifyCurrent_addVar]
    rfl

/-- A new named variable stands in the memory that is handed out next. -/
theorem declare {words : Nat} (sound : Sound hand a) (isNamed : v.isTemp = false)
    (depth : v.depth = a.depth) (unbound : a.current.names.lookup v.name = none)
    (positive : 0 < words) (home : ∀ {home}, v.home = some home → home = a.nextHome) (fits : v.Fits)
    (away : ∀ s, v.storage ≠ .register s) :
    Sound hand (((a.grown words).addVar v).modifyCurrent (Level.addName v.name a.vars.size)) := by
  have fields := modifyLevel_eq (a := (a.grown words).addVar v) ((a.grown words).addVar v).depth
    (Level.addName v.name a.vars.size)
  refine sound.addNamed ?_ isNamed depth unbound positive home fits (fun other => ?_) ?_
  · refine ((sound.grown words).registers.addVar away).congr ?_ ?_
      (fun _ => by rw [modifyCurrent, fields]) ?_ ?_ ?_ <;> rw [modifyCurrent, fields]
  · rw [modifyCurrent, var?_modifyLevel, var?_addVar]
    rfl
  · rw [modifyCurrent_addVar]
    rfl

/-- A new temporary comes to the register in hand. -/
theorem introduceTemp (sound : Sound (r :: hand) a) (isTemp : v.isTemp = true)
    (name : v.name = Alloc.tempName a.nextTemp) (homeless : v.home = none) (fits : v.Fits)
    (there : v.storage = .register r) :
    Sound hand (({ a.addVar v with
      nextTemp := a.nextTemp + 1
      temps := Level.without v.name a.temps ++ [(v.name, a.vars.size)] }).bound a.vars.size r v) := by
  have absent : a.var? a.vars.size = none := by simp [var?]
  have same : { v with storage := .register r } = v := by rw [← there]
  have vars : ∀ other, (({ a.addVar v with
      nextTemp := a.nextTemp + 1
      temps := Level.without v.name a.temps ++ [(v.name, a.vars.size)] } : Allocator).bound
        a.vars.size r v).var? other = if other = a.vars.size then some v else a.var? other := by
    intro other
    have found : (a.addVar v).var? a.vars.size = some v := by
      rw [var?_addVar]
      exact if_pos rfl
    refine (var?_bound (a := a.addVar v) found other).trans ?_
    rw [same, var?_addVar]
    split
    · rfl
    · rfl
  refine ⟨⟨?_, ?_, ?_, fun {i w} found => ?_⟩, ?_⟩
  · exact (sound.registers.introduced (v := v)).congr rfl rfl (fun _ => Iff.rfl) rfl rfl rfl
  · refine sound.names.addTemp absent isTemp name vars ?_ rfl rfl
    rw [name]
    rfl
  · refine sound.homes.change a.vars.size (fun granted => granted)
      (fun other apart => (vars other).trans (if_neg apart)) (fun {w h} found has => ?_)
      fun {w h} found isNamed => ?_
    · rw [vars, if_pos rfl] at found
      cases found
      rw [homeless] at has
      cases has
    · rw [vars, if_pos rfl] at found
      cases found
      rw [isTemp] at isNamed
      cases isNamed
  · rw [vars] at found
    split at found
    · cases found
      exact fits
    · exact sound.fits found
  · exact sound.body.congr rfl rfl rfl

/-- A variable is something else from now on, under another name and with another home. -/
theorem change (sound : Sound hand a) (found : a.var? id = some v) (registers : Registers hand a')
    (names : Names a')
    (vars : ∀ other, a'.var? other = if other = id then some v' else a.var? other)
    (grants : ∀ {home}, a.Grants home → a'.Grants home)
    (own : ∀ {home}, v'.home = some home →
      (v.home = some home ∨ home = a.nextHome) ∧ a'.Grants home)
    (root : ∀ {home}, v'.isTemp = false → v'.depth = 0 → v'.home = some home →
      ∃ address, home = .global address)
    (fits : v'.Fits) (body : Body a') : Sound hand a' where
  registers := registers
  names := names
  homes := by
    refine sound.homes.change id grants (fun other apart => (vars other).trans (if_neg apart))
      (fun {w h} found' has => ?_) fun {w h} found' => ?_
    · rw [vars, if_pos rfl] at found'
      cases found'
      exact ⟨(own has).1.imp_left fun has => ⟨v, found, has⟩, (own has).2⟩
    · rw [vars, if_pos rfl] at found'
      cases found'
      exact root
  fits {i w} found' := by
    rw [vars] at found'
    split at found'
    · cases found'
      exact fits
    · exact sound.fits found'
  body := body

/-- A variable in a register is used. -/
theorem touched (sound : Sound hand a) (found : a.var? id = some v) (there : v.storage = .register r) :
    Sound hand { a with recency := a.recency.touch id } := by
  refine sound.congr (fun other => ?_) rfl
  rw [Recency.mem_touch, or_iff_right_of_imp]
  rintro rfl
  exact sound.registers.recent.2 ⟨r, sound.registers.owner.2 ⟨v, found, there⟩⟩

theorem used (sound : Sound hand a) (found : a.var? id = some v) (there : v.storage = .register r) :
    Sound hand (a.used id r) :=
  (sound.touched found there).congr (fun _ => Iff.rfl) rfl

/-- Where registers are is of no concern to names, homes and function bodies. -/
theorem of_registers (sound : Sound hand a) (registers : Registers hand' a')
    (same : a' = { a with
      owner := a'.owner, free := a'.free, reserved := a'.reserved, recency := a'.recency,
      held := a'.held, calls := a'.calls }) : Sound hand' a' where
  registers := registers
  names := by
    rw [same]
    exact sound.names.congr (fun _ => rfl) rfl rfl fun _ => rfl
  homes := by
    rw [same]
    exact ⟨sound.homes.granted, sound.homes.apart, sound.homes.root⟩
  fits {i w} found := by
    rw [same] at found
    exact sound.fits found
  body := by
    rw [same]
    exact sound.body.congr rfl rfl rfl

/-- The variable in a register goes to the register in hand instead. -/
theorem move {target : Reg} (sound : Sound (target :: hand) a) (found : a.var? id = some v)
    (there : v.storage = .register r) :
    Sound (r :: hand) ((a.setOwner r none).bound id target v) where
  registers := sound.registers.move found there
  names := (sound.names.setVar found { v with storage := .register target } rfl rfl
    rfl).congr (fun _ => rfl) rfl rfl fun _ => rfl
  homes := by
    have homes := sound.homes.setVar found { v with storage := .register target } rfl rfl rfl
    exact ⟨homes.granted, homes.apart, homes.root⟩
  fits {i w} found' := by
    rw [var?_bound (a := a.setOwner r none) found] at found'
    split at found'
    · cases found'
      have fits := sound.fits found
      exact ⟨nofun, fits.home, fits.unpinned, fun _ _ => nofun, fun _ _ => nofun⟩
    · exact sound.fits found'
  body := sound.body.congr rfl rfl rfl

end Sound

end Allocator

end SmallC
