import SmallC.Scope

/-!
Declarations in a tree of scopes. Every scope that was ever opened has a number and stays where it is; it knows the
scope around it, which was opened before it. The scopes that are open are the current one and those around it, and
leaving a scope makes the one around it the current one. For each of its names a scope also remembers the newest
occurrence, so that a new occurrence can mark the one before as live.
-/
namespace SmallC

/-- A scope of the tree. -/
structure ScopeTree.Scope where
  /-- The number of the scope around it; there is none around the outermost scope. -/
  around : Option Nat
  /-- How many scopes lie around it. -/
  depth : Nat
  symbols : List (String × Symbol)
  /-- The newest occurrence of each name that it declares, as far as there is any. -/
  newest : List (String × Nat)

/-- All scopes that were opened, and the occurrences of names so far. -/
structure ScopeTree where
  scopes : Array ScopeTree.Scope
  /-- The number of the innermost open scope. -/
  current : Nat
  /-- The liveness of every occurrence, by its number. -/
  occurrences : Array Liveness
  opened : current < scopes.size
  /-- The scope around another one was opened before it. -/
  outward : ∀ {i o : Nat} {scope : ScopeTree.Scope}, scopes[i]? = some scope → scope.around = some o → o < i

namespace ScopeTree

/-- A scope with nothing declared. -/
def Scope.blank (around : Option Nat) (depth : Nat) : Scope := ⟨around, depth, [], []⟩

/-- Declares a name, in place of what it was declared as, and forgets its occurrences. -/
def Scope.declare (name : String) (symbol : Symbol) (s : Scope) : Scope :=
  { s with
    symbols := (name, symbol) :: s.symbols.filter fun entry => entry.1 ≠ name
    newest := s.newest.filter fun entry => entry.1 ≠ name }

/-- Makes an occurrence the newest one of a name. -/
def Scope.renew (name : String) (occurrence : Nat) (s : Scope) : Scope :=
  { s with newest := (name, occurrence) :: s.newest.filter fun entry => entry.1 ≠ name }

/-- The outermost scope alone, with nothing declared. -/
def root : ScopeTree where
  scopes := #[.blank none 0]
  current := 0
  occurrences := #[]
  opened := Nat.zero_lt_one
  outward {i o scope} found around := by
    cases i with
    | zero =>
      cases found
      cases around
    | succ i => cases found

/-- The innermost open scope. -/
def innermost (t : ScopeTree) : Scope :=
  have := t.opened
  t.scopes[t.current]

/-- How many scopes lie around the innermost open one. -/
def depth (t : ScopeTree) : Nat := t.innermost.depth

/-- Whether the innermost open scope is the outermost one. -/
def isRoot (t : ScopeTree) : Bool := t.depth = 0

/-- Opens a scope. -/
def enter (t : ScopeTree) : ScopeTree where
  scopes := t.scopes.push (.blank (some t.current) (t.depth + 1))
  current := t.scopes.size
  occurrences := t.occurrences
  opened := by simp
  outward {i o scope} found around := by
    rw [Array.getElem?_push] at found
    split at found
    · cases found
      cases around
      have := t.opened
      omega
    · exact t.outward found around

/-- Leaves the innermost scope; the outermost one is never left. -/
def leave (t : ScopeTree) : ScopeTree :=
  match around : t.innermost.around with
  | none => t
  | some o => { t with
    current := o
    opened := Nat.lt_trans (t.outward (Array.getElem?_eq_getElem t.opened) around) t.opened }

/-- Changes a scope, but not where it lies. -/
def modify (t : ScopeTree) (i : Nat) (f : Scope → Scope)
    (still : ∀ s, (f s).around = s.around ∧ (f s).depth = s.depth) : ScopeTree :=
  { t with
    scopes := t.scopes.modify i f
    opened := by simpa using t.opened
    outward := fun {j o scope} found around => by
      rw [Array.getElem?_modify] at found
      split at found
      · obtain ⟨s, known, rfl⟩ := Option.map_eq_some_iff.1 found
        exact t.outward known ((still s).1.symm.trans around)
      · exact t.outward found around }

/-- Declares a name in the innermost scope, in place of what it was declared as there. -/
def add (t : ScopeTree) (name : String) (symbol : Symbol) : ScopeTree :=
  t.modify t.current (Scope.declare name symbol) fun _ => ⟨rfl, rfl⟩

/-- What a name is declared as in a scope. -/
def symbolAt? (t : ScopeTree) (i : Nat) (name : String) : Option Symbol := do (← t.scopes[i]?).symbols.lookup name

/-- The newest occurrence of a name that a scope declares. -/
def newestAt? (t : ScopeTree) (i : Nat) (name : String) : Option Nat := do (← t.scopes[i]?).newest.lookup name

/-- The first scope that declares a name, from one scope outward. -/
def declaringFrom? (t : ScopeTree) (name : String) (i : Nat) : Option Nat :=
  if (t.symbolAt? i name).isSome then some i
  else
    match _ : t.scopes[i]? with
    | none => none
    | some scope =>
      match _ : scope.around with
      | none => none
      | some o => t.declaringFrom? name o
termination_by i
decreasing_by exact t.outward ‹_› ‹_›

/-- The innermost open scope that declares a name. -/
def declaring? (t : ScopeTree) (name : String) : Option Nat := t.declaringFrom? name t.current

/-- What a name is declared as in the innermost scope. -/
def findLocal? (t : ScopeTree) (name : String) : Option Symbol := t.symbolAt? t.current name

/-- What a name is declared as in the innermost open scope that declares it. -/
def find? (t : ScopeTree) (name : String) : Option Symbol := do t.symbolAt? (← t.declaring? name) name

/-- Numbers a new occurrence of a name. The occurrence before it, of the same declaration, is live from now on. -/
def touch (t : ScopeTree) (name : String) : ScopeTree × Nat :=
  let occurrence := t.occurrences.size
  match t.declaring? name with
  | none => ({ t with occurrences := t.occurrences.push .lastUse }, occurrence)
  | some i =>
    let occurrences :=
      match t.newestAt? i name with
      | some previous => t.occurrences.setIfInBounds previous .live
      | none => t.occurrences
    ({ t.modify i (Scope.renew name occurrence) fun _ => ⟨rfl, rfl⟩ with occurrences := occurrences.push .lastUse },
      occurrence)

end ScopeTree

end SmallC
