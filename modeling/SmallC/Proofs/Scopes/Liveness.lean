import SmallC.Proofs.Scopes.Mirrors
import Mathlib.Data.List.Induction

/-!
Which occurrences of names are live. An occurrence of a declared name is awaited by the scope that declares the name:
it is the newest one there. The next occurrence of the same declaration makes it live for good, and a new declaration
in its place makes the scope forget it, so that it stays as it is.
-/
namespace SmallC

/-- How many occurrences of names there are. -/
def touches (steps : List ScopeStep) : Nat :=
  steps.countP fun
    | .touch _ => true
    | _ => false

namespace ScopeTree

/-- After the given steps there is an occurrence of a name that belongs to the declaration of the name in a scope: the
name is found in this scope then, and is not declared there again before. -/
def Recurs (t : ScopeTree) (name : String) (scope : Nat) (steps : List ScopeStep) : Prop :=
  ∃ between after, steps = between ++ .touch name :: after ∧
    (between.foldl step t).declaring? name = some scope ∧
    ∀ before symbol rest, between = before ++ .add name symbol :: rest → (before.foldl step t).current ≠ scope

/-- The newest occurrences have numbers, and no two names of scopes have the same one. -/
structure Numbered (t : ScopeTree) : Prop where
  known : ∀ {i : Nat} {name : String} {node : Nat}, t.newestAt? i name = some node → node < t.occurrences.size
  once : ∀ {i j : Nat} {name other : String} {node : Nat}, t.newestAt? i name = some node →
    t.newestAt? j other = some node → i = j ∧ name = other

/-- No scope knows an occurrence as the newest one of a name. -/
structure Forgets (t : ScopeTree) (node : Nat) : Prop where
  known : node < t.occurrences.size
  newest : ∀ i name, t.newestAt? i name ≠ some node

variable {t : ScopeTree} {i j node scope : Nat} {name other : String} {steps : List ScopeStep} {symbol : Symbol}

theorem newestAt?_congr {t' : ScopeTree} (same : t'.scopes[j]? = t.scopes[i]?) : t'.newestAt? j = t.newestAt? i := by
  funext name
  rw [newestAt?, newestAt?, same]

theorem scopes_leave (t : ScopeTree) : t.leave.scopes = t.scopes ∧ t.leave.occurrences = t.occurrences := by
  cases around : t.innermost.around with
  | none =>
    rw [leave_of_none around]
    exact ⟨rfl, rfl⟩
  | some o =>
    obtain ⟨scopes, -, occurrences⟩ := leave_of_some around
    exact ⟨scopes, occurrences⟩

/-- Names have no occurrences in a scope that was just opened. -/
theorem newestAt?_enter (t : ScopeTree) : t.enter.newestAt? = t.newestAt? := by
  funext i
  by_cases fresh : i = t.scopes.size
  · subst fresh
    funext name
    have absent : t.scopes[t.scopes.size]? = none := Array.getElem?_eq_none (Nat.le_refl _)
    rw [newestAt?, newestAt?, scopes_enter_size, absent]
    rfl
  · exact newestAt?_congr (scopes_enter_of_ne fresh)

theorem newestAt?_leave (t : ScopeTree) : t.leave.newestAt? = t.newestAt? :=
  funext fun i => newestAt?_congr (by rw [t.scopes_leave.1])

/-- A declaration begins without an occurrence. -/
theorem newestAt?_add (t : ScopeTree) (name : String) (symbol : Symbol) (i : Nat) (other : String) :
    (t.add name symbol).newestAt? i other = if i = t.current ∧ other = name then none else t.newestAt? i other := by
  by_cases here : i = t.current
  · subst here
    rw [newestAt?, scopes_add_current, newestAt?, found_innermost]
    by_cases same : other = name
    · rw [if_pos ⟨rfl, same⟩, same]
      exact lookup_dropped _ _
    · rw [if_neg fun it => same it.2]
      exact lookup_dropped_of_ne _ same
  · rw [if_neg fun it => here it.1, newestAt?_congr (scopes_add_of_ne here)]

theorem isSome_of_declaringFrom? (found : t.declaringFrom? name j = some i) : (t.symbolAt? i name).isSome := by
  fun_induction t.declaringFrom? name j with
  | case1 j declared =>
    cases found
    exact declared
  | case2 => cases found
  | case3 => cases found
  | case4 j _ scope _ o _ ih => exact ih found

/-- An occurrence becomes the newest one of its name in the scope that declares it. -/
theorem newestAt?_touch (declares : t.declaring? name = some i) (j : Nat) (other : String) :
    (t.touch name).1.newestAt? j other =
      if j = i ∧ other = name then some t.occurrences.size else t.newestAt? j other := by
  rw [newestAt?, newestAt?, (touch_of_some declares).1, Array.getElem?_modify]
  by_cases here : j = i
  · subst here
    rw [if_pos rfl]
    cases found : t.scopes[j]? with
    | none =>
      have declared := isSome_of_declaringFrom? declares
      rw [symbolAt?, found] at declared
      cases declared
    | some scope =>
      by_cases same : other = name
      · subst same
        rw [if_pos ⟨rfl, rfl⟩]
        exact List.lookup_cons_self
      · rw [if_neg fun it => same it.2]
        show List.lookup other ((name, t.occurrences.size) :: scope.newest.filter fun entry => entry.1 ≠ name) = _
        rw [List.lookup_cons, beq_false_of_ne same]
        exact lookup_dropped_of_ne _ same
  · rw [if_neg (Ne.symm here), if_neg fun it => here it.1]

theorem newestAt?_touch_of_none (undeclared : t.declaring? name = none) :
    (t.touch name).1.newestAt? = t.newestAt? := by
  rw [touch_of_none undeclared]
  rfl

/-- Occurrences are numbered one after another. -/
theorem number_touch (t : ScopeTree) (name : String) : (t.touch name).2 = t.occurrences.size := by
  rw [touch]
  cases t.declaring? name <;> rfl

theorem size_touch (t : ScopeTree) (name : String) : (t.touch name).1.occurrences.size = t.occurrences.size + 1 := by
  cases declares : t.declaring? name with
  | none =>
    rw [touch_of_none declares]
    exact Array.size_push _
  | some i =>
    rw [(touch_of_some declares).2.2, Array.size_push]
    cases t.newestAt? i name with
    | none => rfl
    | some previous => exact congrArg Nat.succ Array.size_setIfInBounds

/-- A new occurrence is not live. -/
theorem occurrences_touch_size (t : ScopeTree) (name : String) :
    (t.touch name).1.occurrences[t.occurrences.size]? = some .lastUse := by
  cases declares : t.declaring? name with
  | none =>
    rw [touch_of_none declares]
    exact Array.getElem?_push_size
  | some i =>
    rw [(touch_of_some declares).2.2]
    cases t.newestAt? i name with
    | none => exact Array.getElem?_push_size
    | some previous =>
      rw [Option.elim_some]
      have same : (t.occurrences.setIfInBounds previous .live).size = t.occurrences.size := Array.size_setIfInBounds
      rw [← same]
      exact Array.getElem?_push_size

/-- The occurrence before becomes live. -/
theorem occurrences_touch_newest (declares : t.declaring? name = some i) (newest : t.newestAt? i name = some node)
    (known : node < t.occurrences.size) : (t.touch name).1.occurrences[node]? = some .live := by
  rw [(touch_of_some declares).2.2, newest, Option.elim_some, Array.getElem?_push_lt (by simpa using known)]
  simp

/-- All other occurrences stay as they are. -/
theorem occurrences_touch_of_ne (known : node < t.occurrences.size)
    (others : ∀ i, t.declaring? name = some i → t.newestAt? i name ≠ some node) :
    (t.touch name).1.occurrences[node]? = t.occurrences[node]? := by
  cases declares : t.declaring? name with
  | none => rw [touch_of_none declares, Array.getElem?_push, if_neg (Nat.ne_of_lt known)]
  | some i =>
    have other := others i declares
    rw [(touch_of_some declares).2.2]
    cases newest : t.newestAt? i name with
    | none => rw [Option.elim_none, Array.getElem?_push, if_neg (Nat.ne_of_lt known)]
    | some previous =>
      rw [newest] at other
      rw [Option.elim_some, Array.getElem?_push, Array.size_setIfInBounds, if_neg (Nat.ne_of_lt known),
        Array.getElem?_setIfInBounds_ne fun same => other (congrArg some same)]

theorem size_step (t : ScopeTree) (step : ScopeStep) : t.occurrences.size ≤ (t.step step).occurrences.size := by
  cases step with
  | enter => exact Nat.le_refl _
  | leave => exact Nat.le_of_eq (congrArg Array.size t.scopes_leave.2.symm)
  | add name symbol => exact Nat.le_refl _
  | touch name => exact (Nat.le_succ _).trans_eq (t.size_touch name).symm

/-- Behind a step, an occurrence was the newest one of its name before, or the step is the occurrence. -/
theorem newestAt?_of_step {step : ScopeStep} (newest : (t.step step).newestAt? i name = some node) :
    t.newestAt? i name = some node ∨
      step = .touch name ∧ t.declaring? name = some i ∧ node = t.occurrences.size := by
  cases step with
  | enter => exact .inl (t.newestAt?_enter ▸ newest)
  | leave => exact .inl (t.newestAt?_leave ▸ newest)
  | add declared symbol =>
    rw [step, newestAt?_add] at newest
    split at newest
    · cases newest
    · exact .inl newest
  | touch touched =>
    rw [step] at newest
    cases declares : t.declaring? touched with
    | none => exact .inl (newestAt?_touch_of_none declares ▸ newest)
    | some k =>
      rw [newestAt?_touch declares] at newest
      split at newest
      · next it =>
        cases newest
        exact .inr ⟨by rw [it.2], by rw [it.1, it.2]; exact declares, rfl⟩
      · exact .inl newest

/-- An occurrence changes only when there is one after it. -/
theorem occurrences_step {step : ScopeStep} (known : node < t.occurrences.size)
    (others : ∀ name i, step = .touch name → t.declaring? name = some i → t.newestAt? i name ≠ some node) :
    (t.step step).occurrences[node]? = t.occurrences[node]? := by
  cases step with
  | enter => rfl
  | leave => exact congrArg (·[node]?) t.scopes_leave.2
  | add name symbol => rfl
  | touch name => exact occurrences_touch_of_ne known fun i => others name i rfl

theorem numbered_root : root.Numbered where
  known {i name node} newest := by
    cases i <;> cases newest
  once {i j name other node} newest := by
    cases i <;> cases newest

theorem Numbered.step (numbered : t.Numbered) (step : ScopeStep) : (t.step step).Numbered where
  known newest := by
    rcases newestAt?_of_step newest with before | ⟨rfl, -, rfl⟩
    · exact Nat.lt_of_lt_of_le (numbered.known before) (t.size_step step)
    · exact Nat.lt_of_lt_of_eq (Nat.lt_succ_self _) (t.size_touch _).symm
  once first second := by
    rcases newestAt?_of_step first with first | ⟨rfl, here, rfl⟩
    · rcases newestAt?_of_step second with second | ⟨-, -, rfl⟩
      · exact numbered.once first second
      · exact absurd (numbered.known first) (Nat.lt_irrefl _)
    · rcases newestAt?_of_step second with second | ⟨same, there, -⟩
      · exact absurd (numbered.known second) (Nat.lt_irrefl _)
      · cases same
        exact ⟨Option.some.inj (here.symm.trans there), rfl⟩

theorem Numbered.foldl_step (numbered : t.Numbered) (steps : List ScopeStep) :
    (steps.foldl ScopeTree.step t).Numbered := by
  induction steps generalizing t with
  | nil => exact numbered
  | cons step rest ih => exact ih (numbered.step step)

/-- What is live stays live. -/
theorem live_step {step : ScopeStep} (live : t.occurrences[node]? = some .live) :
    (t.step step).occurrences[node]? = some .live := by
  have known : node < t.occurrences.size := (Array.getElem?_eq_some_iff.1 live).1
  by_cases renewed : ∃ name i, step = .touch name ∧ t.declaring? name = some i ∧ t.newestAt? i name = some node
  · obtain ⟨name, i, rfl, declares, newest⟩ := renewed
    exact occurrences_touch_newest declares newest known
  · rw [occurrences_step known fun name i it declares newest => renewed ⟨name, i, it, declares, newest⟩]
    exact live

theorem live_foldl_step (live : t.occurrences[node]? = some .live) (steps : List ScopeStep) :
    (steps.foldl ScopeTree.step t).occurrences[node]? = some .live := by
  induction steps generalizing t with
  | nil => exact live
  | cons step rest ih => exact ih (live_step live)

theorem Forgets.step (forgets : t.Forgets node) (step : ScopeStep) : (t.step step).Forgets node where
  known := Nat.lt_of_lt_of_le forgets.known (t.size_step step)
  newest i name newest := by
    rcases newestAt?_of_step newest with before | ⟨-, -, rfl⟩
    · exact forgets.newest i name before
    · exact absurd forgets.known (Nat.lt_irrefl _)

/-- What is forgotten stays as it is. -/
theorem Forgets.foldl_step (forgets : t.Forgets node) (steps : List ScopeStep) :
    (steps.foldl ScopeTree.step t).occurrences[node]? = t.occurrences[node]? := by
  induction steps generalizing t with
  | nil => rfl
  | cons step rest ih =>
    rw [List.foldl_cons, ih (forgets.step step)]
    exact occurrences_step forgets.known fun name i _ _ => forgets.newest i name

/-- An occurrence that is the newest one of its name is renewed by the next step, or forgotten, or it is still the
newest one. -/
theorem newest_step (numbered : t.Numbered) (newest : t.newestAt? scope name = some node) (step : ScopeStep) :
    (step = .touch name ∧ t.declaring? name = some scope) ∨
      ((∃ symbol, step = .add name symbol) ∧ t.current = scope ∧ (t.step step).Forgets node) ∨
      (¬ (step = .touch name ∧ t.declaring? name = some scope) ∧
        (∀ symbol, step = .add name symbol → t.current ≠ scope) ∧
        (t.step step).newestAt? scope name = some node) := by
  cases step with
  | enter => exact .inr (.inr ⟨by simp, by simp, t.newestAt?_enter ▸ newest⟩)
  | leave => exact .inr (.inr ⟨by simp, by simp, t.newestAt?_leave ▸ newest⟩)
  | add declared symbol =>
    by_cases same : scope = t.current ∧ name = declared
    · obtain ⟨rfl, rfl⟩ := same
      refine .inr (.inl ⟨⟨symbol, rfl⟩, rfl, numbered.known newest, fun i other there => ?_⟩)
      rw [ScopeTree.step, newestAt?_add] at there
      split at there
      · cases there
      · next apart => exact apart (numbered.once there newest)
    · refine .inr (.inr ⟨by simp, ?_, ?_⟩)
      · rintro symbol it rfl
        cases it
        exact same ⟨rfl, rfl⟩
      · rw [ScopeTree.step, newestAt?_add, if_neg same, newest]
  | touch touched =>
    by_cases same : ScopeStep.touch touched = .touch name ∧ t.declaring? name = some scope
    · exact .inl same
    · refine .inr (.inr ⟨same, by simp, ?_⟩)
      rw [ScopeTree.step]
      cases declares : t.declaring? touched with
      | none => rw [newestAt?_touch_of_none declares, newest]
      | some k =>
        rw [newestAt?_touch declares, if_neg, newest]
        rintro ⟨rfl, rfl⟩
        exact same ⟨rfl, declares⟩

/-- The first step is the occurrence that is looked for, or it is no declaration in its way. -/
theorem recurs_cons {step : ScopeStep} : t.Recurs name scope (step :: steps) ↔
    (step = .touch name ∧ t.declaring? name = some scope) ∨
      (∀ symbol, step = .add name symbol → t.current ≠ scope) ∧ (t.step step).Recurs name scope steps := by
  constructor
  · rintro ⟨between, after, split, declares, free⟩
    cases between with
    | nil =>
      cases split
      exact .inl ⟨rfl, declares⟩
    | cons first between =>
      cases split
      refine .inr ⟨fun symbol it => free [] symbol between (by rw [it]; rfl), between, after, rfl, declares, ?_⟩
      rintro before symbol rest rfl
      exact free (_ :: before) symbol rest rfl
  · rintro (⟨rfl, declares⟩ | ⟨first, between, after, rfl, declares, free⟩)
    · refine ⟨[], steps, rfl, declares, fun before symbol rest none => ?_⟩
      cases List.append_eq_nil_iff.1 none.symm |>.2
    · refine ⟨step :: between, after, rfl, declares, fun before symbol rest split => ?_⟩
      cases before with
      | nil =>
        cases split
        exact first symbol rfl
      | cons head before =>
        cases split
        exact free before symbol rest rfl

theorem not_recurs_nil : ¬ t.Recurs name scope [] := by
  rintro ⟨between, after, split, -⟩
  cases List.append_eq_nil_iff.1 split.symm |>.2

/-- The newest occurrence of a name becomes live exactly by another one of the same declaration. -/
theorem live_iff_recurs (numbered : t.Numbered) (newest : t.newestAt? scope name = some node)
    (last : t.occurrences[node]? = some .lastUse) (steps : List ScopeStep) :
    (steps.foldl step t).occurrences[node]? = some .live ∧ t.Recurs name scope steps ∨
      (steps.foldl step t).occurrences[node]? = some .lastUse ∧ ¬ t.Recurs name scope steps := by
  induction steps generalizing t with
  | nil => exact .inr ⟨last, not_recurs_nil⟩
  | cons first rest ih =>
    have known := numbered.known newest
    rw [List.foldl_cons, recurs_cons]
    rcases newest_step numbered newest first with
      ⟨rfl, declares⟩ | ⟨⟨symbol, rfl⟩, here, forgets⟩ | ⟨other, free, newest'⟩
    · exact .inl ⟨live_foldl_step (occurrences_touch_newest declares newest known) rest, .inl ⟨rfl, declares⟩⟩
    · refine .inr ⟨(forgets.foldl_step rest).trans last, ?_⟩
      rintro (⟨it, -⟩ | ⟨free, -⟩)
      · cases it
      · exact free symbol rfl here
    · have last' : (t.step first).occurrences[node]? = some .lastUse := by
        rw [occurrences_step known, last]
        rintro touched i rfl declares there
        obtain ⟨rfl, rfl⟩ := numbered.once there newest
        exact other ⟨rfl, declares⟩
      rw [or_iff_right other, and_iff_right free]
      exact ih (numbered.step first) newest' last'

theorem numbered_run (steps : List ScopeStep) : (run steps).Numbered := numbered_root.foldl_step steps

theorem size_run (steps : List ScopeStep) : (run steps).occurrences.size = touches steps := by
  induction steps using List.reverseRecOn with
  | nil => rfl
  | append_singleton steps step ih =>
    rw [run, List.foldl_concat, ← run, touches, List.countP_append, ← touches, ← ih]
    cases step with
    | enter => rfl
    | leave => exact congrArg Array.size (run steps).scopes_leave.2
    | add name symbol => rfl
    | touch name => exact size_touch _ name

/-- Some occurrence of a name after a given one belongs to the same declaration: the name is found in the same scope,
and is not declared there again in between. -/
def Renewed (earlier : List ScopeStep) (name : String) (later : List ScopeStep) : Prop :=
  ∃ scope, (run earlier).declaring? name = some scope ∧ (run (earlier ++ [.touch name])).Recurs name scope later

/-- An occurrence is live if there is another one of the same declaration behind it, else the last use. -/
theorem mark_of_renewed (earlier : List ScopeStep) (name : String) (later : List ScopeStep) :
    (run (earlier ++ .touch name :: later)).occurrences[touches earlier]? = some .live ∧ Renewed earlier name later ∨
      (run (earlier ++ .touch name :: later)).occurrences[touches earlier]? = some .lastUse ∧
        ¬ Renewed earlier name later := by
  have touched : run (earlier ++ [.touch name]) = ((run earlier).touch name).1 := by
    rw [run, List.foldl_concat]
    rfl
  have onward : run (earlier ++ .touch name :: later) = later.foldl step (run (earlier ++ [.touch name])) := by
    rw [run, run, List.append_cons, List.foldl_append]
  have last : (run (earlier ++ [.touch name])).occurrences[touches earlier]? = some .lastUse := by
    rw [touched, ← size_run]
    exact occurrences_touch_size _ _
  rw [onward]
  cases declares : (run earlier).declaring? name with
  | none =>
    have forgets : (run (earlier ++ [.touch name])).Forgets (touches earlier) := by
      rw [touched, ← size_run]
      refine ⟨Nat.lt_of_lt_of_eq (Nat.lt_succ_self _) (size_touch _ _).symm, fun i other newest => ?_⟩
      rw [newestAt?_touch_of_none declares] at newest
      exact absurd ((numbered_run earlier).known newest) (Nat.lt_irrefl _)
    refine .inr ⟨(forgets.foldl_step later).trans last, ?_⟩
    rintro ⟨scope, there, -⟩
    cases declares.symm.trans there
  | some scope =>
    have newest : (run (earlier ++ [.touch name])).newestAt? scope name = some (touches earlier) := by
      rw [touched, newestAt?_touch declares, if_pos ⟨rfl, rfl⟩, size_run]
    have only : Renewed earlier name later ↔ (run (earlier ++ [.touch name])).Recurs name scope later := by
      constructor
      · rintro ⟨other, there, recurs⟩
        cases declares.symm.trans there
        exact recurs
      · exact fun recurs => ⟨scope, declares, recurs⟩
    rw [only]
    exact live_iff_recurs (numbered_run _) newest last later

end ScopeTree

/-- After any steps there is a mark for every occurrence of a name, by its number. An occurrence is marked as live if
and only if some later occurrence of the name belongs to the same declaration: it finds the name in the same scope,
where the name was not declared again in between. All others are marked as last uses. Declarations in one list number
and mark occurrences alike. -/
theorem live_iff_renewed (earlier : List ScopeStep) (name : String) (later : List ScopeStep) :
    let steps := earlier ++ .touch name :: later
    ((ScopeTree.run earlier).touch name).2 = touches earlier ∧
      ((Scopes.run earlier).touch name).2 = touches earlier ∧
      (ScopeTree.run steps).occurrences.size = touches steps ∧
      ((ScopeTree.run steps).occurrences[touches earlier]? = some .live ↔ ScopeTree.Renewed earlier name later) ∧
      ((ScopeTree.run steps).occurrences[touches earlier]? = some .lastUse ↔ ¬ ScopeTree.Renewed earlier name later) ∧
      (Scopes.run steps).occurrences = (ScopeTree.run steps).occurrences := by
  intro steps
  obtain ⟨path, mirrors⟩ := Scopes.mirrors_run steps
  obtain ⟨before, mirrors_before⟩ := Scopes.mirrors_run earlier
  have number : ((ScopeTree.run earlier).touch name).2 = touches earlier :=
    (ScopeTree.number_touch _ _).trans (ScopeTree.size_run earlier)
  have alike : ((Scopes.run earlier).touch name).2 = touches earlier := by
    rw [← ScopeTree.size_run, ← mirrors_before.occurrences]
    rfl
  refine ⟨number, alike, ScopeTree.size_run steps, ?_, ?_, mirrors.occurrences⟩
  · rcases ScopeTree.mark_of_renewed earlier name later with ⟨live, renewed⟩ | ⟨last, other⟩
    · exact iff_of_true live renewed
    · exact iff_of_false (by rw [last]; simp) other
  · rcases ScopeTree.mark_of_renewed earlier name later with ⟨live, renewed⟩ | ⟨last, other⟩
    · exact iff_of_false (by rw [live]; simp) (not_not_intro renewed)
    · exact iff_of_true last other

end SmallC
