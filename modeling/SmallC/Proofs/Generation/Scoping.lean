import SmallC.Proofs.Generation.Sources
import SmallC.Proofs.Generation.Storing

/-!
Scopes of what is meant and levels of the allocator. Between two statements the levels stand for the scopes one by
one: a level has the names of its scope, and the number of a name is the value of the variable that stands under it.
Variables of different names or different levels are different ones, so that an assignment to one of them changes one
number of one scope.
-/
namespace SmallC

open Allocator Machine

namespace Allocator

/-- The levels, the innermost first. -/
def scopes (a : Allocator) : List Level := a.inner ++ [a.root]

/-- A named variable of a level with a number. -/
structure Stores (a : Allocator) (last : VarId → Option Word) (name : String) (depth : Nat) (x : Number)
    (id : VarId) : Prop where
  known : ∃ v, a.var? id = some v ∧ v.isTemp = false ∧ v.name = name ∧ v.depth = depth ∧ v.kind = x.kind
  value : last id = some x.word

end Allocator

/-- A level has the names of a scope, and their numbers are those of the variables. -/
def Level.Shows (a : Allocator) (last : VarId → Option Word) (depth : Nat) (scope : List (String × Number))
    (l : Level) : Prop :=
  ∀ name, (scope.lookup name = none ∧ l.names.lookup name = none) ∨
    ∃ x id, scope.lookup name = some x ∧ l.names.lookup name = some id ∧ a.Stores last name depth x id

/-- Levels show scopes, the innermost first. -/
inductive Reflects (a : Allocator) (last : VarId → Option Word) : Env → List Level → Prop where
  | nil : Reflects a last [] []
  | cons {scope : List (String × Number)} {l : Level} {env : Env} {outer : List Level}
      (shows : l.Shows a last outer.length scope) (rest : Reflects a last env outer) :
      Reflects a last (scope :: env) (l :: outer)

/-- The variables that stand in some levels. -/
def InScopes (ls : List Level) (id : VarId) : Prop := ∃ l ∈ ls, ∃ name, l.names.lookup name = some id

/-- The variable that a name stands for in some levels, the innermost first. -/
def resolveIn (ls : List Level) (name : String) : Option VarId := ls.findSome? fun l => l.names.lookup name

/-- The state between two statements: it is in order, all variables are numbers, no call is pending, no temporary is
alive, and the names of every level are those of its variables. -/
structure Allocator.Clear (a : Allocator) : Prop where
  sound : Sound [] a
  idle : a.calls = []
  ready : a.shape.Ready
  empty : a.shape.alive = 0
  numeric : a.Numeric
  plain : ∀ l ∈ a.scopes, l.aliases = [] ∧ l.hidesOuter = false

variable {S : Site} {K : VarId → Prop} {kept : List Reg} {p p' : Progress} {a a' : Allocator}
  {last last' : VarId → Option Word} {env : Env} {scope : List (String × Number)} {l : Level} {ls outer : List Level}
  {name : String} {depth : Nat} {x y : Number} {id : VarId}

namespace Allocator

theorem levels_eq (a : Allocator) : a.levels = a.scopes.reverse := by simp [levels, scopes]

theorem scopes_eq (a : Allocator) : a.scopes = a.current :: a.scopes.tail := by
  unfold scopes current
  cases a.inner <;> rfl

theorem scopes_congr (root : a'.root = a.root) (inner : a'.inner = a.inner) : a'.scopes = a.scopes := by
  rw [scopes, scopes, root, inner]

/-- What stands in a level is a named variable of the level's depth. -/
theorem var?_of_lookup {before : List Level} (names : Names a) (parts : a.scopes = before ++ l :: outer)
    (found : l.names.lookup name = some id) :
    ∃ v, a.var? id = some v ∧ v.isTemp = false ∧ v.name = name ∧ v.depth = outer.length := by
  have level : a.levels[outer.length]? = some l := by
    rw [levels_eq, parts, List.reverse_append, List.reverse_cons, List.append_assoc]
    simp
  exact names.namedIs level ((Level.lookup_eq_some (names.levelOnce level)).1 found)

end Allocator

theorem InScopes.known (names : Names a) (inScope : InScopes a.scopes id) : a.Known id := by
  obtain ⟨l, member, name, found⟩ := inScope
  obtain ⟨before, outer, parts⟩ := List.append_of_mem member
  obtain ⟨v, known, -⟩ := var?_of_lookup names parts found
  exact var?_lt known

theorem InScopes.mono {more : List Level} (inScope : InScopes ls id) (within : ls ⊆ more) : InScopes more id := by
  obtain ⟨l, member, found⟩ := inScope
  exact ⟨l, within member, found⟩

theorem inScopes_of_resolveIn (found : resolveIn ls name = some id) : InScopes ls id := by
  obtain ⟨l, member, here⟩ := List.exists_of_findSome?_eq_some found
  exact ⟨l, member, name, here⟩

/-! ### Where values are is of no concern -/

/-- Some variables have the names, depths and kinds in one state that they have in another. -/
def Allocator.Alike (K : VarId → Prop) (a a' : Allocator) : Prop :=
  ∀ {id v}, K id → a.var? id = some v → ∃ v', a'.var? id = some v' ∧ v'.isTemp = v.isTemp ∧ v'.name = v.name ∧
    v'.depth = v.depth ∧ v'.kind = v.kind

theorem Allocator.Stands.alike (stands : Stands K a a') : Alike K a a' := fun counts found => by
  obtain ⟨v', found', stays⟩ := stands.stays counts found
  exact ⟨v', found', stays.isTemp, stays.name, stays.depth, stays.kind⟩

theorem Allocator.Stands.alike_back (stands : Stands K a a') : Alike K a' a := fun counts found => by
  obtain ⟨v, found', stays⟩ := stands.old counts found
  exact ⟨v, found', stays.isTemp.symm, stays.name.symm, stays.depth.symm, stays.kind.symm⟩

theorem Allocator.Stores.congr (stores : a.Stores last name depth x id) (alike : Alike K a a') (counts : K id)
    (same : last' id = last id) : a'.Stores last' name depth x id := by
  obtain ⟨⟨v, found, isNamed, own, deep, kind⟩, value⟩ := stores
  obtain ⟨v', found', isTemp, name, depth, kind'⟩ := alike counts found
  exact ⟨⟨v', found', isTemp.trans isNamed, name.trans own, depth.trans deep, kind'.trans kind⟩, same.trans value⟩

namespace Level.Shows

theorem congr (shows : l.Shows a last depth scope) (alike : Alike K a a')
    (within : ∀ {name id}, l.names.lookup name = some id → K id) (same : ∀ {id}, K id → last' id = last id) :
    l.Shows a' last' depth scope := by
  intro name
  apply (shows name).imp_right
  rintro ⟨x, id, number, found, stores⟩
  exact ⟨x, id, number, found, stores.congr alike (within found) (same (within found))⟩

/-- What is shown under a name. -/
theorem stores (shows : l.Shows a last depth scope) (found : l.names.lookup name = some id) :
    ∃ x, scope.lookup name = some x ∧ a.Stores last name depth x id := by
  rcases shows name with ⟨-, absent⟩ | ⟨x, id', number, found', stores⟩
  · cases found.symm.trans absent
  · cases found.symm.trans found'
    exact ⟨x, number, stores⟩

end Level.Shows

namespace Reflects

theorem congr (reflects : Reflects a last env ls) (alike : Alike K a a') (within : ∀ {id}, InScopes ls id → K id)
    (same : ∀ {id}, K id → last' id = last id) : Reflects a' last' env ls := by
  induction reflects with
  | nil => exact .nil
  | cons shows rest ih =>
    refine .cons (shows.congr alike (fun found => within ⟨_, List.mem_cons_self, _, found⟩) same) (ih fun inScope => ?_)
    exact within (inScope.mono (List.subset_cons_self _ _))

theorem tail (reflects : Reflects a last env ls) : Reflects a last env.tail ls.tail := by
  cases reflects with
  | nil => exact .nil
  | cons shows rest => exact rest

theorem drop (reflects : Reflects a last env ls) (n : Nat) : Reflects a last (env.drop n) (ls.drop n) := by
  induction n with
  | zero => exact reflects
  | succ n ih =>
    rw [← List.tail_drop, ← List.tail_drop]
    exact ih.tail

/-- What stands in some levels stands in one of them, under one name, and at a depth below their number. -/
theorem stores (reflects : Reflects a last env ls) (inScope : InScopes ls id) :
    ∃ name depth x, depth < ls.length ∧ a.Stores last name depth x id := by
  induction reflects with
  | nil =>
    obtain ⟨l, member, -⟩ := inScope
    cases member
  | @cons scope l env outer shows rest ih =>
    obtain ⟨l', member, name, found⟩ := inScope
    rcases List.mem_cons.1 member with rfl | member
    · obtain ⟨x, -, stores⟩ := shows.stores found
      exact ⟨name, outer.length, x, Nat.lt_succ_self _, stores⟩
    · obtain ⟨name', depth, x, deep, stores⟩ := ih ⟨l', member, name, found⟩
      exact ⟨name', depth, x, Nat.lt_succ_of_lt deep, stores⟩

/-- A name that has a number is that of a variable. -/
theorem resolves (reflects : Reflects a last env ls) (number : env.find? name = some x) :
    ∃ id depth, resolveIn ls name = some id ∧ a.Stores last name depth x id := by
  induction reflects with
  | nil => cases number
  | @cons scope l env outer shows rest ih =>
    rw [Env.find?, List.findSome?_cons] at number
    rw [resolveIn, List.findSome?_cons]
    rcases shows name with ⟨absent, absent'⟩ | ⟨y, id, value, found, stores⟩
    · rw [absent] at number
      rw [absent']
      exact ih number
    · rw [value] at number
      cases number
      rw [found]
      exact ⟨id, _, rfl, stores⟩

end Reflects

theorem Allocator.Stores.unique {name' : String} {depth' : Nat} (stores : a.Stores last name depth x id)
    (stores' : a.Stores last' name' depth' y id) : name = name' ∧ depth = depth' := by
  obtain ⟨v, found, -, own, deep, -⟩ := stores.known
  obtain ⟨v', found', -, own', deep', -⟩ := stores'.known
  cases found.symm.trans found'
  exact ⟨own.symm.trans own', deep.symm.trans deep'⟩

/-! ### Assignments -/

/-- One variable gets another number of the same kind. -/
theorem Level.Shows.other (shows : l.Shows a last depth scope) (absent : ∀ {name}, l.names.lookup name ≠ some id)
    (others : ∀ {i}, i ≠ id → last' i = last i) : l.Shows a last' depth scope := by
  intro name
  apply (shows name).imp_right
  rintro ⟨x, i, number, found, stores⟩
  refine ⟨x, i, number, found, stores.known, (others ?_).trans stores.value⟩
  rintro rfl
  exact absent found

theorem Reflects.other (reflects : Reflects a last env ls) (absent : ¬ InScopes ls id)
    (others : ∀ {i}, i ≠ id → last' i = last i) : Reflects a last' env ls := by
  induction reflects with
  | nil => exact .nil
  | cons shows rest ih =>
    refine .cons (shows.other (fun found => absent ⟨_, List.mem_cons_self, _, found⟩) others) (ih fun inScope => ?_)
    exact absent (inScope.mono (List.subset_cons_self _ _))

theorem lookup_replace (scope : List (String × Number)) (name other : String) (y : Number) :
    (scope.map fun entry => if entry.1 = name then (name, y) else entry).lookup other =
      if other = name then (scope.lookup name).map fun _ => y else scope.lookup other := by
  induction scope with
  | nil => simp
  | cons entry rest ih =>
    obtain ⟨own, z⟩ := entry
    by_cases here : own = name
    · subst here
      by_cases same : other = own
      · subst same
        simp
      · simp [List.lookup_cons, same, ih, beq_false_of_ne same]
    · by_cases same : other = own
      · subst same
        simp [here]
      · simp only [List.map_cons, if_neg here, List.lookup_cons, beq_false_of_ne same, ih,
          beq_false_of_ne (Ne.symm here)]

/-- An assignment to a variable is one to its number. -/
theorem Reflects.set (reflects : Reflects a last env ls) (resolved : resolveIn ls name = some id)
    (number : env.find? name = some x) (kind : y.kind = x.kind) (written : last' id = some y.word)
    (others : ∀ {i}, i ≠ id → last' i = last i) : Reflects a last' (env.set name y) ls := by
  induction reflects with
  | nil => cases resolved
  | @cons scope l env outer shows rest ih =>
    rw [resolveIn, List.findSome?_cons] at resolved
    rw [Env.find?, List.findSome?_cons] at number
    rw [Env.set]
    rcases shows name with ⟨absent, absent'⟩ | ⟨z, i, value, found, stores⟩
    · rw [absent'] at resolved
      rw [absent] at number
      rw [absent]
      refine .cons (shows.other (fun {n} found => ?_) others) (ih resolved number)
      -- the variable stands at another depth
      obtain ⟨w, -, stores⟩ := shows.stores found
      obtain ⟨n', depth, w', deep, stores'⟩ := rest.stores (inScopes_of_resolveIn resolved)
      exact Nat.lt_irrefl _ ((stores.unique stores').2 ▸ deep)
    · rw [found] at resolved
      rw [value] at number
      cases resolved
      cases number
      rw [value]
      refine .cons (fun other => ?_) (rest.other (fun inScope => ?_) others)
      · rw [lookup_replace]
        by_cases same : other = name
        · subst same
          obtain ⟨v, known, isNamed, own, deep, kind'⟩ := stores.known
          refine .inr ⟨y, id, by rw [if_pos rfl, value]; rfl, found, ⟨v, known, isNamed, own, deep, ?_⟩, written⟩
          rw [kind', kind]
        · rw [if_neg same]
          apply (shows other).imp_right
          rintro ⟨w, i, value', found', stores'⟩
          refine ⟨w, i, value', found', stores'.known, (others ?_).trans stores'.value⟩
          rintro rfl
          exact same (stores'.unique stores).1
      · obtain ⟨n', depth, w', deep, stores'⟩ := rest.stores inScope
        exact Nat.lt_irrefl _ ((stores.unique stores').2 ▸ deep)

/-! ### Definitions -/

theorem lookup_addName (absent : l.names.lookup name = none) (id : VarId) (other : String) :
    (l.addName name id).names.lookup other = if other = name then some id else l.names.lookup other := by
  have kept : Level.without name l.names = l.names := List.filter_eq_self.2 fun entry member =>
    decide_eq_true (Level.lookup_eq_none.1 absent entry member)
  rw [Level.addName, kept, List.lookup_append]
  by_cases same : other = name
  · subst same
    simp [absent]
  · rw [if_neg same, List.lookup_cons, beq_false_of_ne same, List.lookup_nil, Option.or_none]

/-- A variable comes to a level as its number comes to the scope. -/
theorem Level.Shows.add (shows : l.Shows a last depth scope) (absent : l.names.lookup name = none)
    (stores : a.Stores last name depth x id) : (l.addName name id).Shows a last depth ((name, x) :: scope) := by
  intro other
  rw [lookup_addName absent, List.lookup_cons]
  by_cases same : other = name
  · subst same
    rw [if_pos rfl, beq_self_eq_true]
    exact .inr ⟨x, id, rfl, rfl, stores⟩
  · rw [if_neg same, beq_false_of_ne same]
    exact shows other

/-! ### The state between two statements -/

/-- Names are looked up level by level. -/
theorem findFrom_eq {root : Level} {inner : List Level}
    (plain : ∀ l ∈ inner ++ [root], l.aliases = [] ∧ l.hidesOuter = false) :
    findFrom root name inner = resolveIn (inner ++ [root]) name := by
  have own : ∀ {l : Level}, l.aliases = [] → l.find? name = l.names.lookup name := fun none => by
    rw [Level.find?, none]
    rfl
  induction inner with
  | nil =>
    rw [findFrom, own (plain root (List.mem_singleton_self _)).1, List.nil_append, resolveIn, List.findSome?_cons]
    cases root.names.lookup name <;> rfl
  | cons level outer ih =>
    obtain ⟨none, shown⟩ := plain level List.mem_cons_self
    rw [findFrom, own none, shown, List.cons_append, resolveIn, List.findSome?_cons]
    cases level.names.lookup name with
    | some id => rfl
    | none => exact ih fun l member => plain l (List.mem_cons_of_mem level member)

namespace Allocator.Clear

theorem atShape (clear : a.Clear) : At a.shape a := ⟨clear.sound, clear.idle, rfl⟩

theorem temps (clear : a.Clear) : a.temps = [] :=
  List.map_eq_nil_iff.1 ((Multiset.coe_eq_zero _).1 clear.empty)

theorem find? (clear : a.Clear) (name : String) : a.find? name = resolveIn a.scopes name := by
  rw [Allocator.find?, clear.temps]
  exact findFrom_eq clear.plain

theorem covers (clear : a.Clear) : Covers a.Known a := by
  intro name id found
  rw [findFrom_eq clear.plain] at found
  exact (inScopes_of_resolveIn found).known clear.sound.names

theorem orderly (clear : p.allocator.Clear) : p.Orderly p.allocator.Known [] :=
  ⟨clear.sound, ⟨fun known => known, clear.numeric, nofun⟩, nofun⟩

/-- A state between two statements is led to another one, if the shape of the state is what it was. -/
theorem along (clear : p.allocator.Clear) (along : Along K kept p p') (after : At p.allocator.shape p'.allocator) :
    p'.allocator.Clear where
  sound := after.sound
  idle := after.idle
  ready := by
    rw [after.shape]
    exact clear.ready
  empty := by
    rw [after.shape]
    exact clear.empty
  numeric := along.orderly.calm.numeric
  plain := by
    rw [scopes_congr along.root along.inner]
    exact clear.plain

end Allocator.Clear

theorem Reflects.shows (reflects : Reflects a last env a.scopes) (clear : a.Clear) : Shows env a last := by
  intro name x named number
  obtain ⟨id, depth, resolved, stores⟩ := reflects.resolves number
  obtain ⟨v, found, isNamed, -, -, kind⟩ := stores.known
  exact ⟨id, v, (clear.find? name).trans resolved, found, kind, stores.value, .inl ⟨named, isNamed⟩⟩

end SmallC
