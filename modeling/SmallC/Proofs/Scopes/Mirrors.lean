import SmallC.Proofs.Scopes.Environments
import Mathlib.Data.List.Find

/-!
The list of declarations in scope mirrors a tree of scopes. From the innermost scope outward the list falls into the
declarations of each open scope, and for each name the first of them says what the scope of the tree says: what the
name is declared as and which occurrence is the newest.
-/
namespace SmallC

/-- What is known about the names of one scope: what they are declared as and their newest occurrences. -/
abbrev Entries := String → Option (Symbol × Option Nat)

namespace ScopeTree

/-- What a scope knows about its names. -/
def Scope.entries (s : Scope) : Entries := fun name =>
  (s.symbols.lookup name).map fun symbol => (symbol, s.newest.lookup name)

/-- What the scope of a number knows about its names. -/
def entriesAt (t : ScopeTree) (i : Nat) : Entries := (t.scopes[i]?).elim (fun _ => none) Scope.entries

variable {t t' : ScopeTree} {i j : Nat} {path : List Nat} {name : String} {scope : Scope} {x : Symbol × Option Nat}

theorem Scope.entries_declare (s : Scope) (name : String) (symbol : Symbol) :
    (s.declare name symbol).entries = Function.update s.entries name (some (symbol, none)) := by
  funext other
  by_cases same : other = name
  · subst same
    rw [Function.update_self, entries, declare, List.lookup_cons, beq_self_eq_true]
    exact congrArg some (Prod.ext rfl (lookup_dropped _ _))
  · rw [Function.update_of_ne same, entries, declare, List.lookup_cons, beq_false_of_ne same]
    dsimp only
    rw [lookup_dropped_of_ne _ same, lookup_dropped_of_ne _ same]
    rfl

/-- A new occurrence leaves what a name is declared as. -/
theorem Scope.entries_renew (s : Scope) (known : s.entries name = some x) (occurrence : Nat) :
    (s.renew name occurrence).entries = Function.update s.entries name (some (x.1, some occurrence)) := by
  funext other
  by_cases same : other = name
  · subst same
    obtain ⟨symbol, declared, rfl⟩ := Option.map_eq_some_iff.1 known
    rw [Function.update_self, entries, renew, List.lookup_cons, beq_self_eq_true, declared]
    rfl
  · rw [Function.update_of_ne same, entries, renew, List.lookup_cons, beq_false_of_ne same]
    dsimp only
    rw [lookup_dropped_of_ne _ same]
    rfl

theorem entriesAt_of (found : t.scopes[i]? = some scope) : t.entriesAt i = scope.entries := by
  rw [entriesAt, found]
  rfl

theorem entriesAt_congr (same : t'.scopes[j]? = t.scopes[i]?) : t'.entriesAt j = t.entriesAt i := by
  rw [entriesAt, entriesAt, same]

theorem symbolAt?_eq (t : ScopeTree) (i : Nat) (name : String) :
    t.symbolAt? i name = (t.entriesAt i name).map Prod.fst := by
  rw [symbolAt?, entriesAt]
  cases t.scopes[i]? with
  | none => rfl
  | some scope =>
    rw [Option.elim_some, Scope.entries, Option.map_map]
    exact Option.map_id'.symm

theorem newestAt?_eq (known : t.entriesAt i name = some x) : t.newestAt? i name = x.2 := by
  rw [newestAt?]
  rw [entriesAt] at known
  cases found : t.scopes[i]? with
  | none =>
    rw [found] at known
    cases known
  | some scope =>
    rw [found] at known
    obtain ⟨symbol, -, rfl⟩ := Option.map_eq_some_iff.1 known
    rfl

theorem entriesAt_touch (first : t.declaring? name = some i) (known : t.entriesAt i name = some x) :
    (t.touch name).1.entriesAt i = Function.update (t.entriesAt i) name (some (x.1, some t.occurrences.size)) := by
  cases found : t.scopes[i]? with
  | none =>
    rw [entriesAt, found] at known
    cases known
  | some scope =>
    rw [entriesAt_of found] at known ⊢
    rw [← scope.entries_renew known]
    refine entriesAt_of ?_
    rw [(touch_of_some first).1, Array.getElem?_modify, if_pos rfl, found]
    rfl

theorem entriesAt_touch_of_ne (first : t.declaring? name = some i) (other : j ≠ i) :
    (t.touch name).1.entriesAt j = t.entriesAt j := by
  refine entriesAt_congr ?_
  rw [(touch_of_some first).1, Array.getElem?_modify, if_neg (Ne.symm other)]

end ScopeTree

namespace Scopes

/-- What is known about a name from the first declaration of it. -/
def known? (ds : List Declaration) (name : String) : Option (Symbol × Option Nat) :=
  (ds.find? fun d => d.name = name).map fun d => (d.symbol, d.newest)

/-- The declarations of several scopes, one scope after another. The depth of each is the number of the scopes behind
it. -/
def Declares (entries : Nat → Entries) : List Nat → List Declaration → Prop
  | [], ds => ds = []
  | i :: path, ds => ∃ own outer, ds = own ++ outer ∧ (∀ d ∈ own, d.depth = path.length) ∧ known? own = entries i ∧
      Declares entries path outer

variable {entries entries' : Nat → Entries} {path : List Nat} {ds own outer : List Declaration} {name : String}
  {occurrence i : Nat} {x : Symbol × Option Nat}

theorem known?_cons (d : Declaration) (ds : List Declaration) :
    known? (d :: ds) = Function.update (known? ds) d.name (some (d.symbol, d.newest)) := by
  funext name
  rw [known?, List.find?_cons]
  by_cases same : name = d.name
  · rw [same, Function.update_self, decide_eq_true rfl]
    rfl
  · rw [Function.update_of_ne same, decide_eq_false (Ne.symm same)]
    rfl

theorem known?_append (own outer : List Declaration) (name : String) :
    known? (own ++ outer) name = (known? own name).or (known? outer name) := by
  rw [known?, List.find?_append, Option.map_or]
  rfl

theorem Declares.depth_lt (declares : Declares entries path ds) : ∀ d ∈ ds, d.depth < path.length := by
  induction path generalizing ds with
  | nil =>
    cases declares
    simp
  | cons i path ih =>
    obtain ⟨own, outer, rfl, deep, -, rest⟩ := declares
    intro d there
    rw [List.length_cons]
    rcases List.mem_append.1 there with there | there
    · have := deep d there
      omega
    · have := ih rest d there
      omega

theorem Declares.congr (declares : Declares entries path ds) (same : ∀ i ∈ path, entries' i = entries i) :
    Declares entries' path ds := by
  induction path generalizing ds with
  | nil => exact declares
  | cons i path ih =>
    obtain ⟨own, outer, split, deep, known, rest⟩ := declares
    have ⟨here, further⟩ := List.forall_mem_cons.1 same
    exact ⟨own, outer, split, deep, known.trans here.symm, ih rest further⟩

/-- A name is found in the first scope that knows it. -/
theorem Declares.known?_eq (declares : Declares entries path ds) (name : String) :
    known? ds name = path.findSome? fun i => entries i name := by
  induction path generalizing ds with
  | nil =>
    cases declares
    rfl
  | cons i path ih =>
    obtain ⟨own, outer, rfl, -, known, rest⟩ := declares
    rw [known?_append, known, ih rest, List.findSome?_cons]
    cases entries i name <;> rfl

/-- The declarations behind those of the innermost scope are others. -/
theorem Declares.filter_own (rest : Declares entries path outer) (deep : ∀ d ∈ own, d.depth = path.length) :
    (own ++ outer).filter (fun d => d.depth ≠ path.length) = outer := by
  rw [List.filter_append, List.filter_eq_nil_iff.2, List.filter_eq_self.2, List.nil_append]
  · exact fun d there => decide_eq_true (Nat.ne_of_lt (rest.depth_lt d there))
  · exact fun d there => by simpa using deep d there

theorem known?_none (missing : known? ds name = none) : ∀ d ∈ ds, d.name ≠ name := by
  rw [known?, Option.map_eq_none_iff, List.find?_eq_none] at missing
  exact fun d there => by simpa using missing d there

theorem update_known?_filter (own : List Declaration) (name : String) (x : Option (Symbol × Option Nat)) :
    Function.update (known? (own.filter fun d => d.name ≠ name)) name x = Function.update (known? own) name x := by
  funext other
  by_cases same : other = name
  · rw [same, Function.update_self, Function.update_self]
  · rw [Function.update_of_ne same, Function.update_of_ne same, known?, known?, List.find?_filter]
    refine congrArg (Option.map _) (List.find?_congr fun d _ => ?_)
    by_cases it : d.name = other <;> simp [it, same]

/-- A new occurrence of a name changes none of the scopes that do not know it. -/
theorem renew_append_of_none (missing : known? own name = none) :
    renew name occurrence (own ++ outer) =
      (own ++ (renew name occurrence outer).1, (renew name occurrence outer).2) := by
  have others := known?_none missing
  clear missing
  induction own with
  | nil => rfl
  | cons d rest ih =>
    obtain ⟨other, further⟩ := List.forall_mem_cons.1 others
    rw [List.cons_append, renew, if_neg other, ih further]
    rfl

theorem renew_of_none (missing : known? ds name = none) : renew name occurrence ds = (ds, none) := by
  rw [← List.append_nil ds, renew_append_of_none missing, renew]

/-- The first declaration of a name comes to know the new occurrence. -/
theorem renew_append_of_some (known : known? own name = some x) :
    ∃ own', renew name occurrence (own ++ outer) = (own' ++ outer, x.2) ∧
      own'.map Declaration.depth = own.map Declaration.depth ∧
      known? own' = Function.update (known? own) name (some (x.1, some occurrence)) := by
  induction own with
  | nil => cases known
  | cons d rest ih =>
    rw [known?_cons] at known
    rw [List.cons_append, renew]
    by_cases same : d.name = name
    · subst same
      rw [Function.update_self] at known
      cases known
      refine ⟨{ d with newest := some occurrence } :: rest, if_pos rfl, rfl, ?_⟩
      rw [known?_cons, known?_cons, Function.update_idem]
    · rw [Function.update_of_ne (Ne.symm same)] at known
      obtain ⟨own', renewed, deep, entries⟩ := ih known
      refine ⟨d :: own', ?_, by rw [List.map_cons, deep, List.map_cons], ?_⟩
      · rw [if_neg same, renewed]
        rfl
      · rw [known?_cons, entries, known?_cons, Function.update_comm (Ne.symm same)]

/-- The first scope that knows a name comes to know the new occurrence, and it knew the one before. -/
theorem Declares.renew (declares : Declares entries path ds) (once : path.Nodup)
    (first : path.find? (fun k => (entries k name).isSome) = some i) (known : entries i name = some x)
    (renewed : entries' i = Function.update (entries i) name (some (x.1, some occurrence)))
    (still : ∀ k ≠ i, entries' k = entries k) :
    Declares entries' path (Scopes.renew name occurrence ds).1 ∧ (Scopes.renew name occurrence ds).2 = x.2 := by
  induction path generalizing ds with
  | nil => cases first
  | cons j path ih =>
    obtain ⟨own, outer, rfl, deep, own_eq, rest⟩ := declares
    obtain ⟨absent, once⟩ := List.nodup_cons.1 once
    rw [List.find?_cons] at first
    cases here : entries j name with
    | none =>
      rw [here] at first
      have other : j ≠ i := by
        rintro rfl
        cases here.symm.trans known
      obtain ⟨declares', replaced⟩ := ih rest once first
      rw [renew_append_of_none ((congrFun own_eq name).trans here)]
      exact ⟨⟨own, _, rfl, deep, own_eq.trans (still j other).symm, declares'⟩, replaced⟩
    | some y =>
      rw [here] at first
      cases first
      cases here.symm.trans known
      obtain ⟨own', eq, deep', own_eq'⟩ := renew_append_of_some ((congrFun own_eq name).trans known)
      rw [eq]
      refine ⟨⟨own', outer, rfl, fun d there => ?_, ?_, rest.congr fun k there => still k fun same => ?_⟩, rfl⟩
      · obtain ⟨d', there', same⟩ := List.mem_map.1 (deep' ▸ List.mem_map_of_mem (f := Declaration.depth) there)
        rw [← same, deep d' there']
      · rw [own_eq', own_eq, renewed]
      · exact absent (same ▸ there)

/-- A list of declarations mirrors a tree of scopes with the given ones open. -/
structure Mirrors (s : Scopes) (t : ScopeTree) (path : List Nat) : Prop where
  way : ScopeTree.Path t.scopes t.current path
  declares : Declares t.entriesAt path s.declared
  depth : s.depth + 1 = path.length
  occurrences : s.occurrences = t.occurrences

variable {s : Scopes} {t : ScopeTree}

theorem symbol_known? (ds : List Declaration) (name : String) :
    (ds.find? fun d => d.name = name).map Declaration.symbol = (known? ds name).map Prod.fst := by
  rw [known?, Option.map_map]
  rfl

theorem Mirrors.find?_eq (mirrors : s.Mirrors t path) (name : String) : s.find? name = t.find? name := by
  rw [mirrors.way.find?_eq, find?, symbol_known?, mirrors.declares.known?_eq, List.map_findSome?]
  exact congrArg (List.findSome? · path) (funext fun k => (t.symbolAt?_eq k name).symm)

theorem Mirrors.findLocal?_eq (mirrors : s.Mirrors t path) (name : String) : s.findLocal? name = t.findLocal? name := by
  cases path with
  | nil => cases mirrors.way
  | cons i path =>
    obtain ⟨rfl, -⟩ := mirrors.way.around_lt
    obtain ⟨own, outer, split, deep, known, rest⟩ := mirrors.declares
    have here : s.depth = path.length := Nat.succ.inj mirrors.depth
    have behind : outer.find? (s.isLocal name) = none := List.find?_eq_none.2 fun d there => by
      have := rest.depth_lt d there
      simp only [isLocal, Bool.and_eq_true, decide_eq_true_eq, not_and]
      omega
    have first : own.find? (s.isLocal name) = own.find? fun d => d.name = name := List.find?_congr fun d there => by
      rw [isLocal, here, deep d there, decide_eq_true rfl, Bool.and_true]
    rw [findLocal?, split, List.find?_append, behind, Option.or_none, first, symbol_known?, known,
      ScopeTree.findLocal?, t.symbolAt?_eq]

theorem Mirrors.depth_eq (mirrors : s.Mirrors t path) : s.depth = t.depth :=
  Nat.succ.inj (mirrors.depth.trans (mirrors.way.depth_eq t.found_innermost))

/-- The list answers as the tree does. -/
theorem Mirrors.lookups_eq (mirrors : s.Mirrors t path) : s.lookups = t.lookups := by
  rw [lookups, ScopeTree.lookups, funext mirrors.find?_eq, funext mirrors.findLocal?_eq, isRoot, ScopeTree.isRoot,
    mirrors.depth_eq]

theorem Mirrors.enter (mirrors : s.Mirrors t path) : s.enter.Mirrors t.enter (t.scopes.size :: path) where
  way := mirrors.way.enter
  declares := by
    refine ⟨[], s.declared, rfl, by simp, ?_, mirrors.declares.congr fun k there => ?_⟩
    · rw [ScopeTree.entriesAt_of t.scopes_enter_size]
      rfl
    · exact ScopeTree.entriesAt_congr (ScopeTree.scopes_enter_of_ne (Nat.ne_of_lt (mirrors.way.mem_lt k there)))
  depth := congrArg Nat.succ mirrors.depth
  occurrences := mirrors.occurrences

theorem Mirrors.leave (mirrors : s.Mirrors t path) : ∃ rest, s.leave.Mirrors t.leave rest := by
  have long := mirrors.depth
  obtain ⟨⟨i, rfl⟩, still⟩ | ⟨i, rest, rfl, further, scopes, occurrences, way⟩ := mirrors.way.leave
  · rw [List.length_singleton] at long
    rw [Scopes.leave, if_pos (by omega), still]
    exact ⟨[i], mirrors⟩
  · rw [List.length_cons] at long
    have deep : s.depth = rest.length := by omega
    have inside : rest.length ≠ 0 := fun none => further (List.length_eq_zero_iff.1 none)
    obtain ⟨own, outer, split, own_depth, -, declares⟩ := mirrors.declares
    rw [Scopes.leave, if_neg (by omega)]
    refine ⟨rest, way, ?_, ?_, mirrors.occurrences.trans occurrences.symm⟩
    · rw [split, deep, declares.filter_own own_depth]
      exact declares.congr fun k _ => ScopeTree.entriesAt_congr (by rw [scopes])
    · dsimp only
      omega

theorem Mirrors.add (mirrors : s.Mirrors t path) (name : String) (symbol : Symbol) :
    (s.add name symbol).Mirrors (t.add name symbol) path where
  way := mirrors.way.add name symbol
  declares := by
    cases path with
    | nil => cases mirrors.way
    | cons i path =>
      obtain ⟨rfl, below⟩ := mirrors.way.around_lt
      obtain ⟨own, outer, split, deep, known, rest⟩ := mirrors.declares
      have here : s.depth = path.length := Nat.succ.inj mirrors.depth
      have mine : own.filter (fun d => !s.isLocal name d) = own.filter fun d => d.name ≠ name :=
        List.filter_congr fun d there => by simp [isLocal, here, deep d there]
      have others : outer.filter (fun d => !s.isLocal name d) = outer := List.filter_eq_self.2 fun d there => by
        have := rest.depth_lt d there
        simp only [isLocal, Bool.not_and, Bool.or_eq_true, Bool.not_eq_true', decide_eq_false_iff_not]
        omega
      refine ⟨⟨name, symbol, s.depth, none⟩ :: own.filter (fun d => d.name ≠ name), outer, ?_, ?_, ?_, ?_⟩
      · rw [Scopes.add, split, List.filter_append, mine, others]
        rfl
      · exact List.forall_mem_cons.2 ⟨here, fun d there => deep d (List.mem_of_mem_filter there)⟩
      · rw [known?_cons, update_known?_filter, known, ScopeTree.entriesAt_of (t.scopes_add_current name symbol),
          ScopeTree.Scope.entries_declare, ScopeTree.entriesAt_of t.found_innermost]
      · exact rest.congr fun k there =>
          ScopeTree.entriesAt_congr (ScopeTree.scopes_add_of_ne (Nat.ne_of_lt (below k there)))
  depth := mirrors.depth
  occurrences := mirrors.occurrences

theorem occurrences_touch (s : Scopes) (name : String) :
    (s.touch name).1.occurrences =
      ((Scopes.renew name s.occurrences.size s.declared).2.elim s.occurrences fun previous =>
        s.occurrences.setIfInBounds previous .live).push .lastUse := by
  rw [Scopes.touch]
  dsimp only
  cases (Scopes.renew name s.occurrences.size s.declared).2 <;> rfl

theorem Mirrors.touch (mirrors : s.Mirrors t path) (name : String) :
    (s.touch name).1.Mirrors (t.touch name).1 path := by
  have find_eq : t.declaring? name = path.find? fun k => (t.entriesAt k name).isSome := by
    rw [ScopeTree.declaring?, mirrors.way.declaringFrom?_eq]
    exact congrArg (List.find? · path) (funext fun k => by rw [t.symbolAt?_eq, Option.isSome_map])
  cases first : t.declaring? name with
  | none =>
    rw [first] at find_eq
    have missing : known? s.declared name = none := by
      rw [mirrors.declares.known?_eq, ← ScopeTree.find?_isSome_bind, ← find_eq]
      rfl
    have touched : (s.touch name).1 = { s with occurrences := s.occurrences.push .lastUse } := by
      rw [Scopes.touch, renew_of_none missing]
    rw [touched, ScopeTree.touch_of_none first]
    exact ⟨mirrors.way, mirrors.declares, mirrors.depth, congrArg (Array.push · .lastUse) mirrors.occurrences⟩
  | some i =>
    rw [first] at find_eq
    have declared := List.find?_some find_eq.symm
    obtain ⟨⟨symbol, newest⟩, known⟩ := Option.isSome_iff_exists.1 declared
    obtain ⟨-, -, occurrences⟩ := ScopeTree.touch_of_some first
    have newest_eq : t.newestAt? i name = newest := ScopeTree.newestAt?_eq known
    have same : s.occurrences.size = t.occurrences.size := congrArg Array.size mirrors.occurrences
    obtain ⟨declares, replaced⟩ := mirrors.declares.renew mirrors.way.nodup find_eq.symm known
      (ScopeTree.entriesAt_touch first known) fun k other => ScopeTree.entriesAt_touch_of_ne first other
    rw [← same] at declares replaced
    refine ⟨mirrors.way.touch name, declares, mirrors.depth, ?_⟩
    rw [occurrences, newest_eq, ← mirrors.occurrences, occurrences_touch, replaced]

theorem mirrors_root : root.Mirrors .root [0] where
  way := .outermost rfl rfl rfl
  declares := ⟨[], [], rfl, by simp, rfl, rfl⟩
  depth := rfl
  occurrences := rfl

/-- Whatever happens to the scopes, the list goes on to mirror the tree. -/
theorem Mirrors.step (mirrors : s.Mirrors t path) (step : ScopeStep) :
    ∃ path', (s.step step).Mirrors (t.step step) path' := by
  cases step with
  | enter => exact ⟨_, mirrors.enter⟩
  | leave => exact mirrors.leave
  | add name symbol => exact ⟨_, mirrors.add name symbol⟩
  | touch name => exact ⟨_, mirrors.touch name⟩

theorem Mirrors.foldl_step (mirrors : s.Mirrors t path) (steps : List ScopeStep) :
    ∃ path', (steps.foldl Scopes.step s).Mirrors (steps.foldl ScopeTree.step t) path' := by
  induction steps generalizing s t path with
  | nil => exact ⟨_, mirrors⟩
  | cons step rest ih =>
    obtain ⟨path', mirrors'⟩ := mirrors.step step
    exact ih mirrors'

/-- The declarations in scope mirror the tree after the same steps. -/
theorem mirrors_run (steps : List ScopeStep) : ∃ path, (run steps).Mirrors (.run steps) path :=
  mirrors_root.foldl_step steps

end Scopes

/-- Declarations in scope answer as a plain stack of environments does, whatever happens to the scopes, whether they are
kept in one list or in a tree in which no scope is ever dropped: what a name is declared as, in any open scope or in the
innermost one, and how many scopes lie around that one. What was declared in a scope that was opened and left again is
never seen afterwards. -/
theorem scopes_answer_as_environments (steps : List ScopeStep) :
    (Scopes.run steps).lookups = (Environments.run steps).lookups ∧
      (ScopeTree.run steps).lookups = (Environments.run steps).lookups ∧
      ∀ (inside : Inside) (after : List ScopeStep),
        (Scopes.run (steps ++ .enter :: (inside.steps ++ .leave :: after))).lookups =
            (Scopes.run (steps ++ after)).lookups ∧
          (ScopeTree.run (steps ++ .enter :: (inside.steps ++ .leave :: after))).lookups =
            (ScopeTree.run (steps ++ after)).lookups := by
  have tree (steps : List ScopeStep) : (ScopeTree.run steps).lookups = (Environments.run steps).lookups :=
    (ScopeTree.spells_run steps).lookups_eq
  have list (steps : List ScopeStep) : (Scopes.run steps).lookups = (Environments.run steps).lookups := by
    obtain ⟨path, mirrors⟩ := Scopes.mirrors_run steps
    rw [mirrors.lookups_eq, tree]
  refine ⟨list steps, tree steps, fun inside after => ?_⟩
  rw [list, list, tree, tree, Environments.run_left]
  exact ⟨rfl, rfl⟩

end SmallC
