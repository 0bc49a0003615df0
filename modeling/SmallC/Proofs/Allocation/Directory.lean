import SmallC.Proofs.Allocation.Views

/-!
Names and homes of variables. Every variable stands under its name in the level of its depth, every
temporary under its name among the temporaries, and what stands there is alive. No two variables share
a home, and every home lies in memory that was handed out.
-/
namespace SmallC

namespace Level

variable {name : String} {names : List (String × VarId)} {entry : String × VarId} {id : VarId}

theorem mem_without : entry ∈ without name names ↔ entry ∈ names ∧ entry.1 ≠ name := by
  simp [without]

theorem without_sublist : (without name names).Sublist names := List.filter_sublist

theorem nodup_without (once : (names.map Prod.fst).Nodup) :
    ((without name names).map Prod.fst).Nodup :=
  once.sublist (without_sublist.map Prod.fst)

theorem nodup_without_append (once : (names.map Prod.fst).Nodup) :
    ((without name names ++ [(name, id)]).map Prod.fst).Nodup := by
  rw [List.map_append, List.nodup_append]
  refine ⟨nodup_without once, by simp, ?_⟩
  intro n member n' member' same
  obtain ⟨entry, inside, rfl⟩ := List.mem_map.1 member
  rw [List.mem_singleton.1 member'] at same
  exact (mem_without.1 inside).2 same

/-- What stands under a name is what is looked up under it. -/
theorem lookup_eq_some (once : (names.map Prod.fst).Nodup) :
    names.lookup name = some id ↔ (name, id) ∈ names := lookup_eq_some_of_once once

theorem lookup_eq_none : names.lookup name = none ↔ ∀ entry ∈ names, entry.1 ≠ name := lookup_eq_none_iff_absent

/-- What stands in a list under its own name is all that does. -/
theorem eq_of_mem (once : (names.map Prod.fst).Nodup) {id' : VarId} (first : (name, id) ∈ names)
    (second : (name, id') ∈ names) : id = id' := by
  rw [← lookup_eq_some once] at first second
  rw [first] at second
  exact Option.some.inj second

end Level

namespace Allocator

variable {a a' : Allocator} {id other : VarId} {v v' : Variable}

/-- The levels, the root first. -/
def levels (a : Allocator) : List Level := a.root :: a.inner.reverse

@[simp]
theorem length_levels (a : Allocator) : a.levels.length = a.depth + 1 := by simp [levels, depth]

theorem reverse_modify {α : Type} (xs : List α) (f : α → α) {k : Nat} (inside : k < xs.length) :
    (xs.modify (xs.length - (k + 1)) f).reverse = xs.reverse.modify k f := by
  apply List.ext_getElem?
  intro i
  by_cases beyond : i < xs.length
  · rw [List.getElem?_reverse (by simpa using beyond), List.length_modify]
    by_cases same : k = i
    · subst same
      rw [List.getElem?_modify_eq, List.getElem?_reverse beyond, show xs.length - 1 - k =
        xs.length - (k + 1) by omega, List.getElem?_modify_eq]
    · rw [List.getElem?_modify_ne _ _ same, List.getElem?_modify_ne _ _ (by omega),
        List.getElem?_reverse beyond]
  · rw [List.getElem?_eq_none (by simp; omega), List.getElem?_eq_none (by simp; omega)]

theorem levels_modifyLevel (d : Nat) (f : Level → Level) :
    (a.modifyLevel d f).levels = a.levels.modify d f := by
  unfold modifyLevel
  cases d with
  | zero => rfl
  | succ k =>
    rw [if_neg (Nat.succ_ne_zero k)]
    split
    · next inside =>
      simp only [levels, List.modify_succ_cons, reverse_modify _ _ inside]
    · next outside =>
      simp only [levels, List.modify_succ_cons]
      rw [List.modify_eq_self (by simp; omega)]

theorem current_level : a.levels[a.depth]? = some a.current := by
  unfold levels depth current
  cases inner : a.inner with
  | nil => rfl
  | cons level outer => simp

/-- Only the levels change with a level. -/
theorem modifyLevel_eq (d : Nat) (f : Level → Level) :
    a.modifyLevel d f =
      { a with root := (a.modifyLevel d f).root, inner := (a.modifyLevel d f).inner } := by
  unfold modifyLevel
  split
  · rfl
  · split <;> rfl

@[simp]
theorem var?_modifyLevel (d : Nat) (f : Level → Level) :
    (a.modifyLevel d f).var? id = a.var? id := by
  rw [modifyLevel_eq]
  rfl

theorem modifyCurrent_addVar (f : Level → Level) :
    (a.addVar v).modifyCurrent f = (a.modifyCurrent f).addVar v := by
  have deep : (a.addVar v).depth = a.depth := rfl
  have inside : a.depth ≤ a.inner.length := Nat.le_refl _
  rw [modifyCurrent, modifyCurrent, deep, modifyLevel, modifyLevel]
  by_cases root : a.depth = 0
  · rw [if_pos root, if_pos root]
    rfl
  · rw [if_neg root, if_neg root, if_pos inside]
    exact if_pos inside

theorem depth_modifyLevel (d : Nat) (f : Level → Level) : (a.modifyLevel d f).depth = a.depth := by
  have length := congrArg List.length (levels_modifyLevel (a := a) d f)
  rw [List.length_modify, length_levels, length_levels] at length
  exact Nat.succ.inj length

@[simp]
theorem held_modifyLevel (d : Nat) (f : Level → Level) : (a.modifyLevel d f).held = a.held := by
  rw [modifyLevel_eq]

@[simp]
theorem recency_modifyLevel (d : Nat) (f : Level → Level) :
    (a.modifyLevel d f).recency = a.recency := by
  rw [modifyLevel_eq]

@[simp]
theorem vars_modifyLevel (d : Nat) (f : Level → Level) : (a.modifyLevel d f).vars = a.vars := by
  rw [modifyLevel_eq]

@[simp]
theorem temps_modifyLevel (d : Nat) (f : Level → Level) : (a.modifyLevel d f).temps = a.temps := by
  rw [modifyLevel_eq]

@[simp]
theorem nextTemp_modifyLevel (d : Nat) (f : Level → Level) :
    (a.modifyLevel d f).nextTemp = a.nextTemp := by
  rw [modifyLevel_eq]

/-- The level at a depth once one level is changed. -/
theorem level_modify {levels : List Level} {d e : Nat} {f : Level → Level} {l : Level} :
    (levels.modify d f)[e]? = some l ↔
      ∃ old, levels[e]? = some old ∧ l = if d = e then f old else old := by
  rw [List.getElem?_modify]
  exact Option.map_eq_some_iff.trans (by simp only [eq_comm])

/-- Variables stand under their names, and only they do. -/
structure Names (a : Allocator) : Prop where
  temp : ∀ {id v}, a.var? id = some v → v.isTemp = true → (v.name, id) ∈ a.temps
  tempIs : ∀ {name id}, (name, id) ∈ a.temps →
    ∃ v, a.var? id = some v ∧ v.isTemp = true ∧ v.name = name
  tempOnce : (a.temps.map Prod.fst).Nodup
  tempNumber : ∀ {name id}, (name, id) ∈ a.temps → ∃ k < a.nextTemp, name = Alloc.tempName k
  named : ∀ {id v}, a.var? id = some v → v.isTemp = false →
    ∃ l : Level, a.levels[v.depth]? = some l ∧ (v.name, id) ∈ l.names
  namedIs : ∀ {d : Nat} {l : Level} {name id}, a.levels[d]? = some l → (name, id) ∈ l.names →
    ∃ v, a.var? id = some v ∧ v.isTemp = false ∧ v.name = name ∧ v.depth = d
  levelOnce : ∀ {d : Nat} {l : Level}, a.levels[d]? = some l → (l.names.map Prod.fst).Nodup

/-- The numbers of two temporaries' names differ as the names do. -/
theorem tempName_inj {k n : Nat} (same : Alloc.tempName k = Alloc.tempName n) : k = n := by
  have digits := congrArg String.toList same
  simp only [Alloc.tempName, String.toList_append, Nat.toList_repr, toString] at digits
  have digits := List.append_cancel_left digits
  rw [← Nat.ofDigitChars_ten_toDigits (n := k), digits, Nat.ofDigitChars_ten_toDigits]

namespace Names

/-- What is known about a variable changes, but not its name and its place among the names. -/
theorem setVar (names : Names a) (found : a.var? id = some v) (v' : Variable) (name : v'.name = v.name)
    (temp : v'.isTemp = v.isTemp) (depth : v'.depth = v.depth) : Names (a.setVar id v') where
  temp {i w} found' isTemp := by
    rw [var?_setVar found] at found'
    split at found'
    · next here =>
      cases found'
      subst here
      rw [name]
      exact names.temp found (temp ▸ isTemp)
    · exact names.temp found' isTemp
  tempIs {n i} member := by
    obtain ⟨w, found', isTemp, own⟩ := names.tempIs member
    rw [var?_setVar found]
    by_cases here : i = id
    · subst here
      rw [found] at found'
      cases found'
      exact ⟨v', if_pos rfl, temp.trans isTemp, name.trans own⟩
    · exact ⟨w, (if_neg here).trans found', isTemp, own⟩
  tempOnce := names.tempOnce
  tempNumber := names.tempNumber
  named {i w} found' isNamed := by
    rw [var?_setVar found] at found'
    split at found'
    · next here =>
      cases found'
      subst here
      rw [name, depth]
      exact names.named found (temp ▸ isNamed)
    · exact names.named found' isNamed
  namedIs {d l n i} level member := by
    obtain ⟨w, found', isNamed, own, at'⟩ := names.namedIs level member
    rw [var?_setVar found]
    by_cases here : i = id
    · subst here
      rw [found] at found'
      cases found'
      exact ⟨v', if_pos rfl, temp.trans isNamed, name.trans own, depth.trans at'⟩
    · exact ⟨w, (if_neg here).trans found', isNamed, own, at'⟩
  levelOnce := names.levelOnce

/-- A variable becomes known under a name that the innermost level does not hold. -/
theorem addNamed (names : Names a) (absent : a.var? id = none) (isNamed : v.isTemp = false)
    (depth : v.depth = a.depth) (unbound : a.current.names.lookup v.name = none)
    (vars : ∀ other, a'.var? other = if other = id then some v else a.var? other)
    (temps : a'.temps = a.temps) (next : a'.nextTemp = a.nextTemp)
    (levels : a'.levels = a.levels.modify a.depth (Level.addName v.name id)) : Names a' where
  temp {i w} found isTemp := by
    rw [vars] at found
    rw [temps]
    split at found
    · cases found
      rw [isNamed] at isTemp
      cases isTemp
    · exact names.temp found isTemp
  tempIs {n i} member := by
    rw [temps] at member
    obtain ⟨w, found, isTemp, own⟩ := names.tempIs member
    refine ⟨w, ?_, isTemp, own⟩
    rw [vars, if_neg, found]
    rintro rfl
    rw [absent] at found
    cases found
  tempOnce := by
    rw [temps]
    exact names.tempOnce
  tempNumber member := by
    rw [temps] at member
    rw [next]
    exact names.tempNumber member
  named {i w} found isNamed' := by
    rw [levels]
    rw [vars] at found
    split at found
    · next here =>
      cases found
      subst here
      refine ⟨_, level_modify.2 ⟨a.current, depth ▸ current_level, rfl⟩, ?_⟩
      rw [if_pos depth.symm]
      exact List.mem_append_right _ (List.mem_singleton_self _)
    · obtain ⟨l, level, member⟩ := names.named found isNamed'
      refine ⟨_, level_modify.2 ⟨l, level, rfl⟩, ?_⟩
      split
      · next here =>
        rw [← here, current_level] at level
        cases level
        refine List.mem_append_left _ (Level.mem_without.2 ⟨member, ?_⟩)
        exact Level.lookup_eq_none.1 unbound _ member
      · exact member
  namedIs {d l n i} level member := by
    rw [levels] at level
    obtain ⟨old, level', rfl⟩ := level_modify.1 level
    have before : (n, i) ∈ old.names →
        ∃ w, a'.var? i = some w ∧ w.isTemp = false ∧ w.name = n ∧ w.depth = d := by
      intro member
      obtain ⟨w, found, isNamed', own, at'⟩ := names.namedIs level' member
      refine ⟨w, ?_, isNamed', own, at'⟩
      rw [vars, if_neg, found]
      rintro rfl
      rw [absent] at found
      cases found
    split at member
    · next here =>
      rcases List.mem_append.1 member with member | new
      · exact before (Level.mem_without.1 member).1
      · cases List.mem_singleton.1 new
        exact ⟨v, by rw [vars, if_pos rfl], isNamed, rfl, depth.trans here⟩
    · exact before member
  levelOnce {d l} level := by
    rw [levels] at level
    obtain ⟨old, level', rfl⟩ := level_modify.1 level
    have once := names.levelOnce level'
    split
    · exact Level.nodup_without_append once
    · exact once

/-- The next name for a temporary is none that is in use. -/
theorem tempName_fresh (names : Names a) : ∀ entry ∈ a.temps,
    entry.1 ≠ Alloc.tempName a.nextTemp := by
  rintro ⟨n, i⟩ member same
  obtain ⟨k, before, rfl⟩ := names.tempNumber member
  rw [tempName_inj same] at before
  exact Nat.lt_irrefl _ before

/-- The temporaries once there is a new one. -/
theorem mem_addTemp (names : Names a) {entry : String × VarId} :
    entry ∈ Level.without (Alloc.tempName a.nextTemp) a.temps ++ [(Alloc.tempName a.nextTemp, id)] ↔
      entry ∈ a.temps ∨ entry = (Alloc.tempName a.nextTemp, id) := by
  rw [List.mem_append, Level.mem_without, List.mem_singleton]
  refine or_congr_left ⟨And.left, fun member => ⟨member, names.tempName_fresh _ member⟩⟩

/-- A temporary becomes known under the next name. -/
theorem addTemp (names : Names a) (absent : a.var? id = none) (isTemp : v.isTemp = true)
    (name : v.name = Alloc.tempName a.nextTemp)
    (vars : ∀ other, a'.var? other = if other = id then some v else a.var? other)
    (temps : a'.temps = Level.without (Alloc.tempName a.nextTemp) a.temps ++
      [(Alloc.tempName a.nextTemp, id)])
    (next : a'.nextTemp = a.nextTemp + 1) (levels : a'.levels = a.levels) : Names a' where
  temp {i w} found isTemp' := by
    rw [temps, names.mem_addTemp]
    rw [vars] at found
    split at found
    · next here =>
      cases found
      rw [name, here]
      exact .inr rfl
    · exact .inl (names.temp found isTemp')
  tempIs {n i} member := by
    rw [temps, names.mem_addTemp] at member
    rcases member with member | new
    · obtain ⟨w, found, isTemp', own⟩ := names.tempIs member
      refine ⟨w, ?_, isTemp', own⟩
      rw [vars, if_neg, found]
      rintro rfl
      rw [absent] at found
      cases found
    · cases new
      exact ⟨v, by rw [vars, if_pos rfl], isTemp, name⟩
  tempOnce := by
    rw [temps]
    exact Level.nodup_without_append names.tempOnce
  tempNumber {n i} member := by
    rw [temps, names.mem_addTemp] at member
    rw [next]
    rcases member with member | new
    · obtain ⟨k, before, own⟩ := names.tempNumber member
      exact ⟨k, Nat.lt_succ_of_lt before, own⟩
    · cases new
      exact ⟨a.nextTemp, Nat.lt_succ_self _, rfl⟩
  named {i w} found isNamed := by
    rw [vars] at found
    rw [levels]
    split at found
    · cases found
      rw [isTemp] at isNamed
      cases isNamed
    · exact names.named found isNamed
  namedIs {d l n i} level member := by
    rw [levels] at level
    obtain ⟨w, found, isNamed, own, at'⟩ := names.namedIs level member
    refine ⟨w, ?_, isNamed, own, at'⟩
    rw [vars, if_neg, found]
    rintro rfl
    rw [absent] at found
    cases found
  levelOnce level := by
    rw [levels] at level
    exact names.levelOnce level

/-- Nothing is left of a temporary. -/
theorem forgetTemp (names : Names a) (found : a.var? id = some v) (isTemp : v.isTemp = true)
    (vars : ∀ other, a'.var? other = if other = id then none else a.var? other)
    (temps : a'.temps = Level.without v.name a.temps) (next : a'.nextTemp = a.nextTemp)
    (levels : a'.levels = a.levels) : Names a' where
  temp {i w} found' isTemp' := by
    rw [vars] at found'
    rw [temps]
    split at found'
    · cases found'
    · next other =>
      have member := names.temp found' isTemp'
      refine Level.mem_without.2 ⟨member, fun same => other ?_⟩
      simp only at same
      rw [same] at member
      exact Level.eq_of_mem names.tempOnce member (names.temp found isTemp)
  tempIs {n i} member := by
    rw [temps] at member
    obtain ⟨member, other⟩ := Level.mem_without.1 member
    obtain ⟨w, found', isTemp', own⟩ := names.tempIs member
    refine ⟨w, ?_, isTemp', own⟩
    rw [vars, if_neg, found']
    rintro rfl
    rw [found] at found'
    cases found'
    exact other own.symm
  tempOnce := by
    rw [temps]
    exact Level.nodup_without names.tempOnce
  tempNumber member := by
    rw [temps] at member
    rw [next]
    exact names.tempNumber (Level.mem_without.1 member).1
  named {i w} found' isNamed := by
    rw [vars] at found'
    rw [levels]
    split at found'
    · cases found'
    · exact names.named found' isNamed
  namedIs {d l n i} level member := by
    rw [levels] at level
    obtain ⟨w, found', isNamed, own, at'⟩ := names.namedIs level member
    refine ⟨w, ?_, isNamed, own, at'⟩
    rw [vars, if_neg, found']
    rintro rfl
    rw [found] at found'
    cases found'
    rw [isTemp] at isNamed
    cases isNamed
  levelOnce level := by
    rw [levels] at level
    exact names.levelOnce level

/-- Nothing is left of a named variable. -/
theorem forgetNamed (names : Names a) (found : a.var? id = some v) (isNamed : v.isTemp = false)
    {f : Level → Level} (removes : ∀ l, a.levels[v.depth]? = some l →
      (f l).names = Level.without v.name l.names)
    (vars : ∀ other, a'.var? other = if other = id then none else a.var? other)
    (temps : a'.temps = a.temps) (next : a'.nextTemp = a.nextTemp)
    (levels : a'.levels = a.levels.modify v.depth f) : Names a' where
  temp {i w} found' isTemp := by
    rw [vars] at found'
    rw [temps]
    split at found'
    · cases found'
    · exact names.temp found' isTemp
  tempIs {n i} member := by
    rw [temps] at member
    obtain ⟨w, found', isTemp, own⟩ := names.tempIs member
    refine ⟨w, ?_, isTemp, own⟩
    rw [vars, if_neg, found']
    rintro rfl
    rw [found] at found'
    cases found'
    rw [isTemp] at isNamed
    cases isNamed
  tempOnce := by
    rw [temps]
    exact names.tempOnce
  tempNumber member := by
    rw [temps] at member
    rw [next]
    exact names.tempNumber member
  named {i w} found' isNamed' := by
    rw [vars] at found'
    rw [levels]
    split at found'
    · cases found'
    · next other =>
      obtain ⟨l, level, member⟩ := names.named found' isNamed'
      refine ⟨_, level_modify.2 ⟨l, level, rfl⟩, ?_⟩
      split
      · next here =>
        rw [← here] at level
        rw [removes l level, Level.mem_without]
        refine ⟨member, fun same => other ?_⟩
        simp only at same
        obtain ⟨l', level', member'⟩ := names.named found isNamed
        rw [level] at level'
        cases level'
        rw [same] at member
        exact Level.eq_of_mem (names.levelOnce level) member member'
      · exact member
  namedIs {d l n i} level member := by
    rw [levels] at level
    obtain ⟨old, level', rfl⟩ := level_modify.1 level
    have kept : (n, i) ∈ old.names ∧ (v.depth = d → n ≠ v.name) := by
      split at member
      · next here =>
        rw [← here] at level'
        rw [removes old level', Level.mem_without] at member
        exact ⟨member.1, fun _ => member.2⟩
      · next other => exact ⟨member, fun same => absurd same other⟩
    obtain ⟨w, found', isNamed', own, at'⟩ := names.namedIs level' kept.1
    refine ⟨w, ?_, isNamed', own, at'⟩
    rw [vars, if_neg, found']
    rintro rfl
    rw [found] at found'
    cases found'
    exact kept.2 at' own.symm
  levelOnce {d l} level := by
    rw [levels] at level
    obtain ⟨old, level', rfl⟩ := level_modify.1 level
    split
    · next here =>
      rw [← here] at level'
      rw [removes old level']
      exact Level.nodup_without (names.levelOnce level')
    · exact names.levelOnce level'

/-- Names stay as they are as long as what they stand for, and the levels, do. -/
theorem congr (names : Names a) (vars : ∀ other, a'.var? other = a.var? other)
    (temps : a'.temps = a.temps) (next : a'.nextTemp = a.nextTemp)
    (levels : ∀ d : Nat, (a'.levels[d]?).map Level.names = (a.levels[d]?).map Level.names) :
    Names a' := by
  have level : ∀ {d : Nat} {l : Level}, a'.levels[d]? = some l →
      ∃ l', a.levels[d]? = some l' ∧ l'.names = l.names := by
    intro d l found
    have same := levels d
    rw [found] at same
    exact Option.map_eq_some_iff.1 same.symm
  refine ⟨fun {i w} found isTemp => ?_, fun {n i} member => ?_, ?_, fun {n i} member => ?_,
    fun {i w} found isNamed => ?_, fun {d l n i} found member => ?_, fun {d l} found => ?_⟩
  · rw [vars] at found
    rw [temps]
    exact names.temp found isTemp
  · rw [temps] at member
    rw [vars]
    exact names.tempIs member
  · rw [temps]
    exact names.tempOnce
  · rw [temps] at member
    rw [next]
    exact names.tempNumber member
  · rw [vars] at found
    obtain ⟨l, found', member⟩ := names.named found isNamed
    have same := levels w.depth
    rw [found'] at same
    obtain ⟨l', found'', same⟩ := Option.map_eq_some_iff.1 same
    exact ⟨l', found'', same ▸ member⟩
  · obtain ⟨l', found', same⟩ := level found
    rw [vars]
    exact names.namedIs found' (same ▸ member)
  · obtain ⟨l', found', same⟩ := level found
    rw [← same]
    exact names.levelOnce found'

end Names

end Allocator

end SmallC
