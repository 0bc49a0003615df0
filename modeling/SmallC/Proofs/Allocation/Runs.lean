import SmallC.Proofs.Allocation.Views

/-!
Runs of allocator operations that end without a fault. A run of a compound operation is taken apart into
runs of its parts, and a run of a basic operation into what it reads and what it leaves behind.
-/
namespace SmallC.Alloc

variable {α β : Type} {w w' : Work}

/-- An operation succeeds with an answer and leaves this work behind. -/
def Ran (act : Alloc α) (w : Work) (x : α) (w' : Work) : Prop := act.run w = .ok x w'

/-- Work whose allocator is changed. -/
def on (f : Allocator → Allocator) (w : Work) : Work := { w with allocator := f w.allocator }

@[simp]
theorem allocator_on (f : Allocator → Allocator) (w : Work) :
    (on f w).allocator = f w.allocator := rfl

@[simp]
theorem code_on (f : Allocator → Allocator) (w : Work) : (on f w).code = w.code := rfl

/-- Work with one more instruction. -/
def push (i : MachineInstr) (w : Work) : Work := { w with code := w.code.push i }

@[simp]
theorem allocator_push (i : MachineInstr) (w : Work) : (push i w).allocator = w.allocator := rfl

@[simp]
theorem code_push (i : MachineInstr) (w : Work) : (push i w).code = w.code.push i := rfl

/-- A run has one outcome. -/
theorem Ran.unique {act : Alloc α} {x y : α} {w₁ w₂ : Work} (first : Ran act w x w₁)
    (second : Ran act w y w₂) : x = y ∧ w₁ = w₂ := by
  rw [Ran, first] at second
  cases second
  exact ⟨rfl, rfl⟩

@[simp]
theorem ran_pure {x y : α} : Ran (pure x) w y w' ↔ y = x ∧ w' = w := by
  constructor
  · intro ran
    cases ran
    exact ⟨rfl, rfl⟩
  · rintro ⟨rfl, rfl⟩
    rfl

@[simp]
theorem ran_bind {act : Alloc α} {f : α → Alloc β} {y : β} :
    Ran (act >>= f) w y w' ↔ ∃ x mid, Ran act w x mid ∧ Ran (f x) mid y w' := by
  change EStateM.bind act f w = _ ↔ ∃ x mid, act w = _ ∧ f x mid = _
  unfold EStateM.bind
  constructor
  · intro ran
    split at ran
    · next x mid first => exact ⟨x, mid, first, ran⟩
    · cases ran
  · rintro ⟨x, mid, first, second⟩
    rw [first]
    exact second

@[simp]
theorem ran_map {act : Alloc α} {f : α → β} {y : β} :
    Ran (f <$> act) w y w' ↔ ∃ x, Ran act w x w' ∧ y = f x := by
  rw [← bind_pure_comp, ran_bind]
  constructor
  · rintro ⟨x, mid, first, second⟩
    obtain ⟨rfl, rfl⟩ := ran_pure.1 second
    exact ⟨x, first, rfl⟩
  · rintro ⟨x, first, rfl⟩
    exact ⟨x, w', first, ran_pure.2 ⟨rfl, rfl⟩⟩

@[simp]
theorem ran_throw {e : AllocatorFault} {x : α} : Ran (throw e) w x w' ↔ False :=
  ⟨fun ran => (by cases ran), False.elim⟩

@[simp]
theorem ran_look {f : Allocator → α} {x : α} : Ran (look f) w x w' ↔ x = f w.allocator ∧ w' = w := by
  constructor
  · intro ran
    cases ran
    exact ⟨rfl, rfl⟩
  · rintro ⟨rfl, rfl⟩
    rfl

@[simp]
theorem ran_change {f : Allocator → Allocator} {x : Unit} :
    Ran (change f) w x w' ↔ w' = on f w := by
  constructor
  · intro ran
    cases ran
    rfl
  · rintro rfl
    rfl

@[simp]
theorem ran_emit {i : MachineInstr} {x : Unit} : Ran (emit i) w x w' ↔ w' = push i w := by
  constructor
  · intro ran
    cases ran
    rfl
  · rintro rfl
    rfl

@[simp]
theorem ran_known {id : VarId} {v : Variable} :
    Ran (known id) w v w' ↔ w.allocator.var? id = some v ∧ w' = w := by
  unfold known
  rw [ran_bind]
  constructor
  · rintro ⟨x, mid, looked, ran⟩
    obtain ⟨rfl, rfl⟩ := ran_look.1 looked
    split at ran
    · next found =>
      obtain ⟨rfl, rfl⟩ := ran_pure.1 ran
      exact ⟨found, rfl⟩
    · exact (ran_throw.1 ran).elim
  · rintro ⟨found, rfl⟩
    refine ⟨_, w', ran_look.2 ⟨rfl, rfl⟩, ?_⟩
    rw [found]
    exact ran_pure.2 ⟨rfl, rfl⟩

@[simp]
theorem ran_update {id : VarId} {f : Variable → Variable} {x : Unit} :
    Ran (update id f) w x w' ↔
      ∃ v, w.allocator.var? id = some v ∧ w' = on (fun a => a.setVar id (f v)) w := by
  unfold update
  simp only [ran_bind, ran_known, ran_change]
  constructor
  · rintro ⟨v, mid, ⟨found, rfl⟩, rfl⟩
    exact ⟨v, found, rfl⟩
  · rintro ⟨v, found, rfl⟩
    exact ⟨v, w, ⟨found, rfl⟩, rfl⟩

@[simp]
theorem ran_resolve {name : String} {id : VarId} :
    Ran (resolve name) w id w' ↔ w.allocator.find? name = some id ∧ w' = w := by
  unfold resolve
  rw [ran_bind]
  constructor
  · rintro ⟨x, mid, looked, ran⟩
    obtain ⟨rfl, rfl⟩ := ran_look.1 looked
    split at ran
    · next found =>
      obtain ⟨rfl, rfl⟩ := ran_pure.1 ran
      exact ⟨found, rfl⟩
    · exact (ran_throw.1 ran).elim
  · rintro ⟨found, rfl⟩
    refine ⟨_, w', ran_look.2 ⟨rfl, rfl⟩, ?_⟩
    rw [found]
    exact ran_pure.2 ⟨rfl, rfl⟩

theorem ran_checkUnbound {name : String} {x : Unit} :
    Ran (checkUnbound name) w x w' ↔
      w.allocator.current.names.lookup name = none ∧ w' = w := by
  unfold checkUnbound
  simp only [ran_bind, ran_look]
  constructor
  · rintro ⟨_, _, ⟨rfl, rfl⟩, ran⟩
    split at ran
    · exact (ran_throw.1 ran).elim
    · next unbound => exact ⟨Option.not_isSome_iff_eq_none.1 unbound, (ran_pure.1 ran).2⟩
  · rintro ⟨unbound, rfl⟩
    refine ⟨_, _, ⟨rfl, rfl⟩, ?_⟩
    rw [unbound]
    exact ran_pure.2 ⟨rfl, rfl⟩

@[simp]
theorem ran_ite {c : Prop} [Decidable c] {act other : Alloc α} {x : α} :
    Ran (if c then act else other) w x w' ↔ (c ∧ Ran act w x w') ∨ (¬ c ∧ Ran other w x w') := by
  by_cases holds : c <;> simp [holds]

@[simp]
theorem ran_forM_nil {f : α → Alloc Unit} {x : Unit} :
    Ran (List.forM [] f) w x w' ↔ w' = w := by
  constructor
  · intro ran
    exact (ran_pure.1 ran).2
  · rintro rfl
    exact ran_pure.2 ⟨rfl, rfl⟩

theorem ran_forM_cons {f : α → Alloc Unit} {head : α} {rest : List α} {x : Unit} :
    Ran (List.forM (head :: rest) f) w x w' ↔
      ∃ mid, Ran (f head) w () mid ∧ Ran (List.forM rest f) mid () w' := by
  change Ran (f head >>= fun _ => rest.forM f) w x w' ↔ _
  rw [ran_bind]
  exact ⟨fun ⟨_, mid, first, rest⟩ => ⟨mid, first, rest⟩,
    fun ⟨mid, first, rest⟩ => ⟨(), mid, first, rest⟩⟩

theorem ran_mapM_nil {f : α → Alloc β} {ys : List β} :
    Ran (List.mapM f []) w ys w' ↔ ys = [] ∧ w' = w := by
  rw [List.mapM_nil, ran_pure]

theorem ran_mapM_cons {f : α → Alloc β} {head : α} {rest : List α} {ys : List β} :
    Ran (List.mapM f (head :: rest)) w ys w' ↔
      ∃ y mid ys', Ran (f head) w y mid ∧ Ran (rest.mapM f) mid ys' w' ∧ ys = y :: ys' := by
  simp only [List.mapM_cons, ran_bind, ran_pure]
  constructor
  · rintro ⟨y, mid, first, ys', last, second, rfl, rfl⟩
    exact ⟨y, mid, ys', first, second, rfl⟩
  · rintro ⟨y, mid, ys', first, second, rfl⟩
    exact ⟨y, mid, first, ys', w', second, rfl, rfl⟩

/-- What every pass of a loop preserves, the loop preserves. -/
theorem Ran.forM {f : α → Alloc Unit} {xs : List α} {x : Unit} {P : Work → Prop}
    (ran : Ran (xs.forM f) w x w') (start : P w)
    (pass : ∀ a ∈ xs, ∀ w w', P w → Ran (f a) w () w' → P w') : P w' := by
  induction xs generalizing w with
  | nil =>
    rw [ran_forM_nil.1 ran]
    exact start
  | cons head rest ih =>
    obtain ⟨mid, first, second⟩ := ran_forM_cons.1 ran
    exact ih second (pass head List.mem_cons_self _ _ start first)
      fun a member => pass a (List.mem_cons_of_mem _ member)

/-- What every pass of a loop that collects answers preserves, the loop preserves. -/
theorem Ran.mapM {f : α → Alloc β} {xs : List α} {ys : List β} {P : Work → Prop}
    (ran : Ran (xs.mapM f) w ys w') (start : P w)
    (pass : ∀ a ∈ xs, ∀ w y w', P w → Ran (f a) w y w' → P w') : P w' := by
  induction xs generalizing w ys with
  | nil =>
    rw [(ran_mapM_nil.1 ran).2]
    exact start
  | cons head rest ih =>
    obtain ⟨y, mid, ys', first, second, -⟩ := ran_mapM_cons.1 ran
    exact ih second (pass head List.mem_cons_self _ _ _ start first)
      fun a member => pass a (List.mem_cons_of_mem _ member)

end SmallC.Alloc
