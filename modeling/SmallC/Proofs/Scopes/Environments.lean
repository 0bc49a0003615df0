import SmallC.ScopeTree
import SmallC.Proofs.Entries
import Mathlib.Data.Option.Basic

/-!
Scopes are a stack of environments. A tree keeps every scope that was ever opened, and new scopes come to stand
between those that are open: the open ones are those on the path from the current scope outward, and along this path
the tree declares what the stack does.
-/
namespace SmallC

/-- What can be done to declarations in scope. -/
inductive ScopeStep where
  | enter
  | leave
  | add (name : String) (symbol : Symbol)
  | touch (name : String)

/-- What the names of one scope are declared as. -/
abbrev Environment := String → Option Symbol

/-- A stack of environments. There is always an innermost one. -/
structure Environments where
  innermost : Environment
  outer : List Environment

/-- What happens from the opening of a scope until it is left, with the scopes inside of it that are left before. -/
inductive Inside where
  | done
  | add (name : String) (symbol : Symbol) (next : Inside)
  | touch (name : String) (next : Inside)
  | scope (inner next : Inside)

/-- The steps that happen, the first one first. -/
def Inside.steps : Inside → List ScopeStep
  | .done => []
  | .add name symbol next => .add name symbol :: next.steps
  | .touch name next => .touch name :: next.steps
  | .scope inner next => .enter :: (inner.steps ++ .leave :: next.steps)

/-- What can be asked about declarations in scope. -/
structure Lookups where
  find : Environment
  findLocal : Environment
  depth : Nat
  isRoot : Bool

namespace Environments

/-- Nothing is declared. -/
def root : Environments := ⟨fun _ => none, []⟩

def enter (e : Environments) : Environments := ⟨fun _ => none, e.innermost :: e.outer⟩

/-- The last environment stays. -/
def leave (e : Environments) : Environments :=
  match e.outer with
  | [] => e
  | next :: outer => ⟨next, outer⟩

def add (e : Environments) (name : String) (symbol : Symbol) : Environments :=
  { e with innermost := Function.update e.innermost name (some symbol) }

/-- What a name is declared as in the first environment that declares it. -/
def find? (e : Environments) (name : String) : Option Symbol :=
  (e.innermost :: e.outer).findSome? fun environment => environment name

/-- What becomes of the environments. Occurrences declare nothing. -/
def step (e : Environments) : ScopeStep → Environments
  | .enter => e.enter
  | .leave => e.leave
  | .add name symbol => e.add name symbol
  | .touch _ => e

/-- The environments after several steps, the first one first. -/
def run (steps : List ScopeStep) : Environments := steps.foldl step root

def lookups (e : Environments) : Lookups := ⟨e.find?, e.innermost, e.outer.length, e.outer.isEmpty⟩

theorem leave_of_outer {e e' : Environments} (outer : e'.outer = e.innermost :: e.outer) : e'.leave = e := by
  rw [leave, outer]

/-- What happens inside a scope leaves the environments around it as they are. -/
theorem outer_inside (inside : Inside) (e : Environments) : (inside.steps.foldl step e).outer = e.outer := by
  induction inside generalizing e with
  | done => rfl
  | add name symbol next ih => exact ih (e.add name symbol)
  | touch name next ih => exact ih e
  | scope inner next inner_ih next_ih =>
    rw [Inside.steps, List.foldl_cons, List.foldl_append, List.foldl_cons, next_ih]
    exact congrArg outer (leave_of_outer (inner_ih e.enter))

/-- Nothing is left of a scope that was opened and left again. -/
theorem run_left (steps : List ScopeStep) (inside : Inside) (after : List ScopeStep) :
    run (steps ++ .enter :: (inside.steps ++ .leave :: after)) = run (steps ++ after) := by
  rw [run, run, List.foldl_append, List.foldl_cons, List.foldl_append, List.foldl_cons, List.foldl_append]
  exact congrArg (after.foldl step) (leave_of_outer (outer_inside inside _))

end Environments

namespace Scopes

/-- What becomes of declarations in scope. -/
def step (s : Scopes) : ScopeStep → Scopes
  | .enter => s.enter
  | .leave => s.leave
  | .add name symbol => s.add name symbol
  | .touch name => (s.touch name).1

/-- The declarations in scope after several steps, the first one first. -/
def run (steps : List ScopeStep) : Scopes := steps.foldl step root

def lookups (s : Scopes) : Lookups := ⟨s.find?, s.findLocal?, s.depth, s.isRoot⟩

end Scopes

namespace ScopeTree

/-- What becomes of a tree of scopes. -/
def step (t : ScopeTree) : ScopeStep → ScopeTree
  | .enter => t.enter
  | .leave => t.leave
  | .add name symbol => t.add name symbol
  | .touch name => (t.touch name).1

/-- The tree after several steps, the first one first. -/
def run (steps : List ScopeStep) : ScopeTree := steps.foldl step root

def lookups (t : ScopeTree) : Lookups := ⟨t.find?, t.findLocal?, t.depth, t.isRoot⟩

/-- The scopes on the way from one scope outward, each with as many scopes around it as its depth says. -/
inductive Path (scopes : Array Scope) : Nat → List Nat → Prop
  | outermost {i : Nat} {scope : Scope} (found : scopes[i]? = some scope) (last : scope.around = none)
      (depth : scope.depth = 0) : Path scopes i [i]
  | inside {i o : Nat} {scope : Scope} {path : List Nat} (found : scopes[i]? = some scope)
      (around : scope.around = some o) (depth : scope.depth = path.length) (rest : Path scopes o path) :
      Path scopes i (i :: path)

variable {t : ScopeTree} {scopes scopes' : Array Scope} {i j o : Nat} {path : List Nat} {scope : Scope} {name : String}

theorem Path.depth_eq (way : Path scopes i path) (found : scopes[i]? = some scope) :
    path.length = scope.depth + 1 := by
  cases way with
  | outermost found' last depth =>
    cases found.symm.trans found'
    rw [depth, List.length_singleton]
  | inside found' around depth rest =>
    cases found.symm.trans found'
    rw [depth, List.length_cons]

/-- The way outward is the same wherever scopes lie as they did. -/
theorem Path.mono (way : Path scopes i path)
    (still : ∀ {j : Nat} {scope : Scope}, scopes[j]? = some scope →
      ∃ scope', scopes'[j]? = some scope' ∧ scope'.around = scope.around ∧ scope'.depth = scope.depth) :
    Path scopes' i path := by
  induction way with
  | outermost found last depth =>
    obtain ⟨scope', found', around', depth'⟩ := still found
    exact .outermost found' (around'.trans last) (depth'.trans depth)
  | inside found around depth rest ih =>
    obtain ⟨scope', found', around', depth'⟩ := still found
    exact .inside found' (around'.trans around) (depth'.trans depth) ih

theorem Path.push (way : Path scopes i path) (scope : Scope) : Path (scopes.push scope) i path :=
  way.mono fun {j known} found => by
    have below : j < scopes.size := (Array.getElem?_eq_some_iff.1 found).1
    exact ⟨known, by rw [Array.getElem?_push_lt below, ← found, Array.getElem?_eq_getElem below], rfl, rfl⟩

theorem Path.modify (way : Path scopes i path) {f : Scope → Scope}
    (still : ∀ s, (f s).around = s.around ∧ (f s).depth = s.depth) : Path (scopes.modify j f) i path :=
  way.mono fun {k known} found => by
    rw [Array.getElem?_modify, found]
    split
    · exact ⟨f known, rfl, still known⟩
    · exact ⟨known, rfl, rfl, rfl⟩

theorem Path.mem_le (way : Path t.scopes i path) : ∀ k ∈ path, k ≤ i := by
  induction way with
  | outermost => simp
  | inside found around depth rest ih =>
    have below := t.outward found around
    intro k there
    rcases List.mem_cons.1 there with rfl | there
    · exact Nat.le_refl _
    · exact Nat.le_trans (ih k there) (Nat.le_of_lt below)

/-- The scopes around a scope were opened before it. -/
theorem Path.around_lt (way : Path t.scopes i (j :: path)) : j = i ∧ ∀ k ∈ path, k < i := by
  cases way with
  | outermost => simp
  | inside found around depth rest =>
    exact ⟨rfl, fun k there => Nat.lt_of_le_of_lt (rest.mem_le k there) (t.outward found around)⟩

theorem Path.mem_lt (way : Path scopes i path) : ∀ k ∈ path, k < scopes.size := by
  induction way with
  | outermost found => simpa using (Array.getElem?_eq_some_iff.1 found).1
  | inside found around depth rest ih =>
    exact List.forall_mem_cons.2 ⟨(Array.getElem?_eq_some_iff.1 found).1, ih⟩

theorem Path.nodup (way : Path t.scopes i path) : path.Nodup := by
  induction way with
  | outermost => exact List.nodup_singleton _
  | inside found around depth rest ih =>
    have once := (Path.inside found around depth rest).around_lt.2
    exact List.nodup_cons.2 ⟨fun again => Nat.lt_irrefl _ (once _ again), ih⟩

/-- A name is looked for on the way outward. -/
theorem Path.declaringFrom?_eq (way : Path t.scopes i path) (name : String) :
    t.declaringFrom? name i = path.find? fun k => (t.symbolAt? k name).isSome := by
  induction way with
  | outermost found last depth =>
    rw [declaringFrom?, List.find?_cons]
    split
    · next declares => rw [declares]
    · next missing =>
      rw [Bool.eq_false_iff.2 missing]
      split
      · rfl
      · next found' =>
        cases found.symm.trans found'
        split
        · rfl
        · next around => cases last.symm.trans around
  | inside found around depth rest ih =>
    rw [declaringFrom?, List.find?_cons]
    split
    · next declares => rw [declares]
    · next missing =>
      rw [Bool.eq_false_iff.2 missing, ← ih]
      split
      · next none' => cases found.symm.trans none'
      · next found' =>
        cases found.symm.trans found'
        split
        · next last => cases around.symm.trans last
        · next around' => cases around.symm.trans around'; rfl

/-- The first member that a partial function takes to something, taken there. -/
theorem find?_isSome_bind {α β : Type} (f : α → Option β) (members : List α) :
    (members.find? fun a => (f a).isSome).bind f = members.findSome? f := by
  induction members with
  | nil => rfl
  | cons a rest ih =>
    rw [List.find?_cons, List.findSome?_cons]
    cases taken : f a with
    | none => exact ih
    | some b => exact taken

theorem Path.find?_eq (way : Path t.scopes t.current path) (name : String) :
    t.find? name = path.findSome? fun k => t.symbolAt? k name := by
  rw [← find?_isSome_bind, ← way.declaringFrom?_eq name]
  rfl

/-- The scopes that are open in a tree declare what a stack of environments does. -/
def Spells (t : ScopeTree) (e : Environments) : Prop :=
  ∃ path, Path t.scopes t.current path ∧ path.map t.symbolAt? = e.innermost :: e.outer

variable {e : Environments}

theorem found_innermost (t : ScopeTree) : t.scopes[t.current]? = some t.innermost :=
  Array.getElem?_eq_getElem t.opened

/-- Trees answer from the scopes that are open. -/
theorem Spells.lookups_eq (spells : t.Spells e) : t.lookups = e.lookups := by
  obtain ⟨path, way, declared⟩ := spells
  have finds : t.find? = e.find? := by
    funext name
    rw [way.find?_eq, Environments.find?, ← declared, List.findSome?_map]
    rfl
  have long : t.depth = e.outer.length := by
    have := way.depth_eq t.found_innermost
    have := congrArg List.length declared
    rw [List.length_map, List.length_cons] at this
    rw [depth]
    omega
  have here : t.findLocal? = e.innermost := by
    cases way with
    | outermost => exact (List.cons.inj declared).1
    | inside => exact (List.cons.inj declared).1
  rw [lookups, Environments.lookups, finds, here, isRoot, long]
  congr 1
  cases e.outer <;> rfl

theorem spells_root : root.Spells .root :=
  ⟨[0], .outermost rfl rfl rfl, rfl⟩

theorem symbolAt?_of (found : t.scopes[i]? = some scope) : t.symbolAt? i = fun name => scope.symbols.lookup name := by
  funext name
  rw [symbolAt?, found]
  rfl

theorem symbolAt?_congr {t' : ScopeTree} (same : t'.scopes[j]? = t.scopes[i]?) : t'.symbolAt? j = t.symbolAt? i := by
  funext name
  rw [symbolAt?, symbolAt?, same]

theorem scopes_enter_of_ne (other : i ≠ t.scopes.size) : t.enter.scopes[i]? = t.scopes[i]? := by
  rw [enter, Array.getElem?_push, if_neg other]

theorem scopes_enter_size (t : ScopeTree) :
    t.enter.scopes[t.scopes.size]? = some (.blank (some t.current) (t.depth + 1)) := by
  rw [enter, Array.getElem?_push, if_pos rfl]

theorem leave_of_none (last : t.innermost.around = none) : t.leave = t := by
  rw [leave]
  split
  · rfl
  · next around => cases last.symm.trans around

theorem leave_of_some (around : t.innermost.around = some o) :
    t.leave.scopes = t.scopes ∧ t.leave.current = o ∧ t.leave.occurrences = t.occurrences := by
  rw [leave]
  split
  · next last => cases last.symm.trans around
  · next around' =>
    cases around.symm.trans around'
    exact ⟨rfl, rfl, rfl⟩

theorem scopes_add_of_ne {symbol : Symbol} (other : i ≠ t.current) :
    (t.add name symbol).scopes[i]? = t.scopes[i]? := by
  rw [add, modify, Array.getElem?_modify, if_neg (Ne.symm other)]

theorem scopes_add_current (t : ScopeTree) (name : String) (symbol : Symbol) :
    (t.add name symbol).scopes[t.current]? = some (t.innermost.declare name symbol) := by
  rw [add, modify, Array.getElem?_modify, if_pos rfl, found_innermost]
  rfl

theorem touch_of_none (undeclared : t.declaring? name = none) :
    (t.touch name).1 = { t with occurrences := t.occurrences.push .lastUse } := by
  rw [touch, undeclared]

/-- A new occurrence of a declared name is kept by the scope that declares it, which knew the one before. -/
theorem touch_of_some (declares : t.declaring? name = some i) :
    (t.touch name).1.scopes = t.scopes.modify i (Scope.renew name t.occurrences.size) ∧
      (t.touch name).1.current = t.current ∧
      (t.touch name).1.occurrences = ((t.newestAt? i name).elim t.occurrences fun previous =>
        t.occurrences.setIfInBounds previous .live).push .lastUse := by
  rw [touch, declares]
  refine ⟨rfl, rfl, ?_⟩
  dsimp only
  cases t.newestAt? i name <;> rfl

/-- An occurrence declares nothing. -/
theorem symbolAt?_touch (t : ScopeTree) (name : String) : (t.touch name).1.symbolAt? = t.symbolAt? := by
  cases declares : t.declaring? name with
  | none => rw [touch_of_none declares]; rfl
  | some i =>
    funext j other
    rw [symbolAt?, symbolAt?, (touch_of_some declares).1, Array.getElem?_modify]
    split
    · cases t.scopes[j]? <;> rfl
    · rfl

theorem Path.enter (way : Path t.scopes t.current path) :
    Path t.enter.scopes t.enter.current (t.scopes.size :: path) :=
  .inside t.scopes_enter_size rfl (way.depth_eq t.found_innermost).symm (way.push _)

/-- Either there is no way outward and the scope is not left, or the first step outward is taken. -/
theorem Path.leave (way : Path t.scopes t.current path) :
    (∃ i, path = [i]) ∧ t.leave = t ∨
      ∃ i rest, path = i :: rest ∧ rest ≠ [] ∧ t.leave.scopes = t.scopes ∧ t.leave.occurrences = t.occurrences ∧
        Path t.leave.scopes t.leave.current rest := by
  cases way with
  | outermost found last depth =>
    cases found.symm.trans t.found_innermost
    exact .inl ⟨⟨_, rfl⟩, leave_of_none last⟩
  | inside found around depth rest =>
    cases found.symm.trans t.found_innermost
    obtain ⟨scopes, current, occurrences⟩ := leave_of_some around
    refine .inr ⟨_, _, rfl, ?_, scopes, occurrences, by rwa [scopes, current]⟩
    rintro rfl
    cases rest

theorem Path.add (way : Path t.scopes t.current path) (name : String) (symbol : Symbol) :
    Path (t.add name symbol).scopes (t.add name symbol).current path :=
  way.modify fun _ => ⟨rfl, rfl⟩

theorem Path.touch (way : Path t.scopes t.current path) (name : String) :
    Path (t.touch name).1.scopes (t.touch name).1.current path := by
  cases declares : t.declaring? name with
  | none => rw [touch_of_none declares]; exact way
  | some i =>
    obtain ⟨scopes, current, -⟩ := touch_of_some declares
    rw [scopes, current]
    exact way.modify fun _ => ⟨rfl, rfl⟩

theorem Spells.enter (spells : t.Spells e) : t.enter.Spells e.enter := by
  obtain ⟨path, way, declared⟩ := spells
  refine ⟨t.scopes.size :: path, way.enter, ?_⟩
  rw [List.map_cons, symbolAt?_of t.scopes_enter_size, Environments.enter, ← declared]
  refine congrArg₂ _ rfl (List.map_congr_left fun k there => ?_)
  exact symbolAt?_congr (scopes_enter_of_ne (Nat.ne_of_lt (way.mem_lt k there)))

theorem Spells.leave (spells : t.Spells e) : t.leave.Spells e.leave := by
  obtain ⟨path, way, declared⟩ := spells
  obtain ⟨⟨i, rfl⟩, still⟩ | ⟨i, rest, rfl, further, scopes, -, way'⟩ := way.leave
  · have only : e.outer = [] := (List.cons.inj declared).2.symm
    rw [still, Environments.leave, only]
    exact ⟨[i], way, by rw [declared, only]⟩
  · have outer : rest.map t.symbolAt? = e.outer := (List.cons.inj declared).2
    have same : t.leave.symbolAt? = t.symbolAt? := funext fun i => symbolAt?_congr (by rw [scopes])
    refine ⟨rest, way', ?_⟩
    rw [same, outer, Environments.leave]
    cases eq : e.outer with
    | nil => exact absurd (List.map_eq_nil_iff.1 (outer.trans eq)) further
    | cons next outer => rfl

theorem Spells.add (spells : t.Spells e) (name : String) (symbol : Symbol) :
    (t.add name symbol).Spells (e.add name symbol) := by
  obtain ⟨path, way, declared⟩ := spells
  refine ⟨path, way.add name symbol, ?_⟩
  cases path with
  | nil => cases way
  | cons head path =>
    obtain ⟨rfl, below⟩ := way.around_lt
    obtain ⟨innermost, outer⟩ := List.cons.inj declared
    rw [symbolAt?_of t.found_innermost] at innermost
    rw [List.map_cons, symbolAt?_of (t.scopes_add_current name symbol), Environments.add, ← outer, ← innermost]
    refine congrArg₂ _ (lookup_replaced _ _ _) (List.map_congr_left fun k there => ?_)
    exact symbolAt?_congr (scopes_add_of_ne (Nat.ne_of_lt (below k there)))

theorem Spells.touch (spells : t.Spells e) (name : String) : (t.touch name).1.Spells e := by
  obtain ⟨path, way, declared⟩ := spells
  exact ⟨path, way.touch name, by rw [symbolAt?_touch, declared]⟩

/-- Whatever happens to the scopes, the tree goes on to declare what the stack does. -/
theorem Spells.step (spells : t.Spells e) (step : ScopeStep) : (t.step step).Spells (e.step step) := by
  cases step with
  | enter => exact spells.enter
  | leave => exact spells.leave
  | add name symbol => exact spells.add name symbol
  | touch name => exact spells.touch name

theorem Spells.foldl_step (spells : t.Spells e) (steps : List ScopeStep) :
    (steps.foldl ScopeTree.step t).Spells (steps.foldl Environments.step e) := by
  induction steps generalizing t e with
  | nil => exact spells
  | cons step rest ih => exact ih (spells.step step)

theorem spells_run (steps : List ScopeStep) : (run steps).Spells (.run steps) :=
  spells_root.foldl_step steps

end ScopeTree

end SmallC
