import SmallC.Proofs.Allocation.Runs
import SmallC.Proofs.Allocation.Sound

/-!
What the traffic between registers and memory does to the state. Each operation is inverted once into
the change it makes and the instruction it emits; from there on only the changes count. Taking a register
leaves everything in place but the variable that gives way, and that is never one in a held register.
-/
namespace SmallC

namespace Alloc

variable {w w' : Work} {id : VarId} {r : Reg} {home : Home}

@[simp]
theorem ran_hold {x : Unit} :
    Ran (hold r) w x w' ↔
      w' = on (fun a => { a with held := if r ∈ a.held then a.held else r :: a.held }) w :=
  ran_change

@[simp]
theorem ran_withdraw {x : Unit} : Ran (withdraw r) w x w' ↔ w' = on (fun a => a.withdrawn r) w :=
  ran_change

@[simp]
theorem ran_setOwner {owner : Option VarId} {x : Unit} :
    Ran (setOwner r owner) w x w' ↔ w' = on (fun a => a.setOwner r owner) w :=
  ran_change

@[simp]
theorem ran_touch {x : Unit} :
    Ran (touch id) w x w' ↔ w' = on (fun a => { a with recency := a.recency.touch id }) w :=
  ran_change

@[simp]
theorem ran_release {x : Unit} : Ran (release r) w x w' ↔ w' = on (fun a => a.released r) w := by
  have same : on (fun a => if r.isPool ∧ r ∉ a.reserved ∧ r ∉ a.free
      then { a with free := a.free ++ [r] } else a) (on (fun a => a.setOwner r none) w) =
      on (fun a => a.released r) w := by
    by_cases back : r.isPool ∧ r ∉ w.allocator.reserved ∧ r ∉ w.allocator.free
    · simp [on, Allocator.released, Allocator.setOwner, back]
    · simp [on, Allocator.released, Allocator.setOwner, back]
  unfold release
  simp only [ran_bind, ran_setOwner, ran_change]
  constructor
  · rintro ⟨_, _, rfl, rfl⟩
    exact same
  · rintro rfl
    exact ⟨(), _, rfl, same.symm⟩

theorem ran_bindTo {x : Unit} :
    Ran (bindTo id r) w x w' ↔
      ∃ v, w.allocator.var? id = some v ∧ w' = on (fun a => a.bound id r v) w := by
  unfold bindTo
  simp only [ran_bind, ran_setOwner, ran_update, ran_touch, ran_hold]
  constructor
  · rintro ⟨_, _, rfl, _, _, ⟨v, found, rfl⟩, _, _, rfl, rfl⟩
    exact ⟨v, found, rfl⟩
  · rintro ⟨v, found, rfl⟩
    exact ⟨(), _, rfl, (), _, ⟨v, found, rfl⟩, (), _, rfl, rfl⟩

theorem ran_unbind {x : Unit} :
    Ran (unbind id) w x w' ↔ ∃ v, w.allocator.var? id = some v ∧
      ((v.storage.register? = none ∧ w' = w) ∨
        ∃ r, v.storage = .register r ∧ w' = on (fun a => a.unbound id r v) w) := by
  unfold unbind
  simp only [ran_bind, ran_known]
  constructor
  · rintro ⟨v, _, ⟨found, rfl⟩, ran⟩
    refine ⟨v, found, ?_⟩
    cases storage : v.storage with
    | register r =>
      simp only [storage, Storage.register?, ran_bind, ran_change, ran_release, ran_update] at ran
      obtain ⟨_, _, rfl, _, _, rfl, v', found', rfl⟩ := ran
      have same : v' = v := Option.some.inj (found'.symm.trans found)
      exact .inr ⟨r, rfl, by rw [same]; rfl⟩
    | memory | saved =>
      simp only [storage, Storage.register?, ran_pure] at ran
      exact .inl ⟨rfl, ran.2⟩
  · rintro ⟨v, found, ⟨away, rfl⟩ | ⟨r, there, rfl⟩⟩
    · refine ⟨v, w', ⟨found, rfl⟩, ?_⟩
      simp only [away, ran_pure, and_self]
    · refine ⟨v, w, ⟨found, rfl⟩, ?_⟩
      simp only [there, Storage.register?, ran_bind, ran_change, ran_release, ran_update]
      exact ⟨(), _, rfl, (), _, rfl, v, found, rfl⟩

/-- The address of a home, as far as code can form it. -/
def address? (a : Allocator) : Home → Option Address
  | .global address => some ⟨Reg.zero, address⟩
  | .frame slot => if a.inFunction then some ⟨Reg.stackPointer, a.pushed + slot⟩ else none

@[simp]
theorem ran_addressOf {address : Address} :
    Ran (addressOf home) w address w' ↔ address? w.allocator home = some address ∧ w' = w := by
  cases home with
  | global x =>
    simp only [addressOf, address?, ran_pure, Option.some.injEq]
    exact and_congr_left fun _ => eq_comm
  | frame slot =>
    simp only [addressOf, address?, ran_bind, ran_look]
    constructor
    · rintro ⟨_, _, ⟨rfl, rfl⟩, ran⟩
      split at ran
      · next inside =>
        obtain ⟨_, _, looked, ran⟩ := ran_bind.1 ran
        obtain ⟨rfl, rfl⟩ := ran_look.1 looked
        obtain ⟨rfl, rfl⟩ := ran_pure.1 ran
        rw [if_pos inside]
        exact ⟨rfl, rfl⟩
      · exact (ran_throw.1 ran).elim
    · rintro ⟨known, rfl⟩
      refine ⟨_, _, ⟨rfl, rfl⟩, ?_⟩
      split at known
      · next inside =>
        cases known
        rw [if_pos inside]
        exact ran_bind.2 ⟨_, _, ran_look.2 ⟨rfl, rfl⟩, ran_pure.2 ⟨rfl, rfl⟩⟩
      · cases known

@[simp]
theorem ran_allocHome {words : Nat} :
    Ran (allocHome words) w home w' ↔
      home = w.allocator.nextHome ∧ w' = on (fun a => a.grown words) w := by
  unfold allocHome
  simp only [ran_bind, ran_look]
  cases frame : w.allocator.frame with
  | none =>
    have grown : on (fun a => a.grown words) w =
        on (fun a => { a with globals := a.globals + words }) w := by
      simp [on, Allocator.grown, frame]
    rw [grown, Allocator.nextHome, frame]
    constructor
    · rintro ⟨_, _, ⟨rfl, rfl⟩, ran⟩
      simp only [ran_bind, ran_look, ran_change, ran_pure] at ran
      obtain ⟨_, _, ⟨rfl, rfl⟩, _, _, rfl, rfl, rfl⟩ := ran
      exact ⟨rfl, rfl⟩
    · rintro ⟨rfl, rfl⟩
      refine ⟨_, _, ⟨rfl, rfl⟩, ?_⟩
      simp only [ran_bind, ran_look, ran_change, ran_pure]
      exact ⟨_, _, ⟨rfl, rfl⟩, (), _, rfl, rfl, rfl⟩
  | some slot =>
    have grown : on (fun a => a.grown words) w =
        on (fun a => { a with frame := some (slot + words) }) w := by
      simp [on, Allocator.grown, frame]
    rw [grown, Allocator.nextHome, frame]
    constructor
    · rintro ⟨_, _, ⟨rfl, rfl⟩, ran⟩
      simp only [ran_bind, ran_change, ran_pure] at ran
      obtain ⟨_, _, rfl, rfl, rfl⟩ := ran
      exact ⟨rfl, rfl⟩
    · rintro ⟨rfl, rfl⟩
      refine ⟨_, _, ⟨rfl, rfl⟩, ?_⟩
      simp only [ran_bind, ran_change, ran_pure]
      exact ⟨(), _, rfl, trivial, rfl⟩

theorem ran_writeBack {x : Unit} :
    Ran (writeBack id r) w x w' ↔ ∃ v home address, w.allocator.var? id = some v ∧
      v.home = some home ∧ address? w.allocator home = some address ∧
      w' = on (fun a => a.setVar id { v with isDirty := false })
        (push (.sw r address.base address.offset) w) := by
  unfold writeBack
  simp only [ran_bind, ran_known]
  constructor
  · rintro ⟨v, _, ⟨found, rfl⟩, ran⟩
    cases has : v.home with
    | none =>
      rw [has] at ran
      exact (ran_throw.1 ran).elim
    | some home =>
      simp only [has, ran_bind, ran_addressOf, ran_emit, ran_update] at ran
      obtain ⟨address, _, ⟨known, rfl⟩, _, _, rfl, v', found', rfl⟩ := ran
      have same : v' = v := Option.some.inj (found'.symm.trans found)
      exact ⟨v, home, address, found, has, known, by rw [same]⟩
  · rintro ⟨v, home, address, found, has, known, rfl⟩
    refine ⟨v, w, ⟨found, rfl⟩, ?_⟩
    cases v
    cases has
    simp only [ran_bind, ran_addressOf, ran_emit, ran_update]
    exact ⟨address, _, ⟨known, rfl⟩, (), _, rfl, _, found, rfl⟩

theorem ran_ensureHome {x : Unit} :
    Ran (ensureHome id) w x w' ↔ ∃ v, w.allocator.var? id = some v ∧
      ((v.home.isSome ∧ w' = w) ∨ (v.home = none ∧
        w' = on (fun a => (a.grown 1).setVar id { v with home := some a.nextHome }) w)) := by
  unfold ensureHome
  simp only [ran_bind, ran_known]
  constructor
  · rintro ⟨v, _, ⟨found, rfl⟩, ran⟩
    refine ⟨v, found, ?_⟩
    cases has : v.home with
    | none =>
      simp only [has, Option.isNone_none, ↓reduceIte, ran_bind, ran_allocHome, ran_update] at ran
      obtain ⟨_, _, ⟨rfl, rfl⟩, v', found', rfl⟩ := ran
      have same : v' = v := Option.some.inj (found'.symm.trans found)
      exact .inr ⟨rfl, by rw [same]; rfl⟩
    | some home =>
      simp only [has, Option.isNone_some, Bool.false_eq_true, ↓reduceIte, ran_pure] at ran
      exact .inl ⟨rfl, ran.2⟩
  · rintro ⟨v, found, ⟨has, rfl⟩ | ⟨homeless, rfl⟩⟩
    · refine ⟨v, w', ⟨found, rfl⟩, ?_⟩
      obtain ⟨home, has⟩ := Option.isSome_iff_exists.1 has
      simp [has]
    · refine ⟨v, w, ⟨found, rfl⟩, ?_⟩
      simp only [homeless, Option.isNone_none, ↓reduceIte, ran_bind, ran_allocHome, ran_update]
      exact ⟨_, _, ⟨rfl, rfl⟩, v, found, rfl⟩

/-- What taking a register from a variable comes to: the variable goes home if it has to, and is then
parted from the register, which is free for no one. -/
theorem ran_evict (ran : Ran (evict id) w r w') :
    ∃ v mid last, w.allocator.var? id = some v ∧ v.storage = .register r ∧ v.isPinned = false ∧
      ((v.isTemp = true ∧ ∃ housed, Ran (ensureHome id) w () housed ∧
          Ran (writeBack id r) housed () mid) ∨
        (v.isTemp = false ∧ v.isDirty = true ∧ Ran (writeBack id r) w () mid) ∨
        (v.isTemp = false ∧ v.isDirty = false ∧ mid = w)) ∧
      Ran (unbind id) mid () last ∧ w' = on (fun a => a.withdrawn r) last := by
  unfold evict at ran
  simp only [ran_bind, ran_known] at ran
  obtain ⟨v, _, ⟨found, rfl⟩, ran⟩ := ran
  cases storage : v.storage with
  | memory | saved =>
    simp only [storage, Storage.register?] at ran
    exact (ran_throw.1 ran).elim
  | register s =>
    simp only [storage, Storage.register?, ran_bind, ran_ite, ran_throw, ran_pure, ran_withdraw,
      false_and, exists_false, and_false, false_or] at ran
    rcases ran with ⟨unpinned, ⟨isTemp, _, housed, first, _, mid, second, _, last, parted, _, _, rfl,
      rfl, rfl⟩ | ⟨isNamed, -, ⟨dirty, _, mid, wrote, _, last, parted, _, _, rfl, rfl, rfl⟩ |
      ⟨clean, _, last, parted, _, _, rfl, rfl, rfl⟩⟩⟩
    · exact ⟨v, mid, last, found, storage, eq_false_of_ne_true unpinned,
        .inl ⟨isTemp, housed, first, second⟩, parted, rfl⟩
    · exact ⟨v, mid, last, found, storage, eq_false_of_ne_true unpinned,
        .inr (.inl ⟨eq_false_of_ne_true isNamed, dirty, wrote⟩), parted, rfl⟩
    · exact ⟨v, _, last, found, storage, eq_false_of_ne_true unpinned,
        .inr (.inr ⟨eq_false_of_ne_true isNamed, eq_false_of_ne_true clean, rfl⟩), parted, rfl⟩

/-- Where a register that was taken came from: it was free, or it was that of a variable that is in no
held register. -/
theorem ran_take (ran : Ran take w r w') :
    (r ∈ w.allocator.free ∧ r ∉ w.allocator.held ∧ w' = on (fun a => a.withdrawn r) w) ∨
    ∃ id, Ran (evict id) w r w' ∧ r.isPool ∧ r ∉ w.allocator.held := by
  unfold take at ran
  simp only [ran_bind, ran_look] at ran
  obtain ⟨_, w, ⟨rfl, rfl⟩, ran⟩ := ran
  split at ran
  · next s free =>
    simp only [ran_bind, ran_withdraw, ran_pure] at ran
    obtain ⟨_, _, rfl, rfl, rfl⟩ := ran
    exact .inl ⟨List.mem_of_find?_eq_some free, by simpa using List.find?_some free, rfl⟩
  · simp only [ran_bind, ran_look] at ran
    obtain ⟨_, w, ⟨rfl, rfl⟩, ran⟩ := ran
    split at ran
    · next id chosen =>
      obtain ⟨v, -, -, found, there, -⟩ := ran_evict ran
      have eligible : ∃ p, Alloc.victim? w.allocator p = some id := by
        simp only [chooseVictim?, Option.orElse_eq_orElse, Option.orElse_eq_or] at chosen
        rcases Option.or_eq_some_iff.1 chosen with first | ⟨-, second⟩
        · exact ⟨_, first⟩
        · exact ⟨_, second⟩
      obtain ⟨p, victim⟩ := eligible
      have suits := List.find?_some victim
      simp only [found, Option.any_some, Bool.and_eq_true, there, Storage.register?,
        decide_eq_true_eq] at suits
      exact .inr ⟨id, ran, suits.2.1, suits.2.2⟩
    · exact (ran_throw.1 ran).elim

/-- What loading comes to: the address of an array, or the word in the home of any other variable. -/
theorem ran_load {x : Unit} (ran : Ran (load id r) w x w') :
    ∃ v home address, w.allocator.var? id = some v ∧ address? w.allocator home = some address ∧
      ((v.array = some home ∧ w' = push (.addi r address.base address.offset) w) ∨
        (v.array = none ∧ (v.storage = .memory home ∨
            (∃ s, v.storage = .register s) ∧ v.home = some home) ∧
          w' = push (.lw r address.base address.offset) w)) := by
  unfold load at ran
  simp only [ran_bind, ran_known] at ran
  obtain ⟨v, w, ⟨found, rfl⟩, ran⟩ := ran
  have word : ∀ {home}, Ran (loadWord r home) w x w' → ∃ address,
      address? w.allocator home = some address ∧
        w' = push (.lw r address.base address.offset) w := by
    intro home ran
    unfold loadWord at ran
    simp only [ran_bind, ran_addressOf, ran_emit] at ran
    obtain ⟨address, _, ⟨known, rfl⟩, rfl⟩ := ran
    exact ⟨address, known, rfl⟩
  cases array : v.array with
  | some home =>
    simp only [array, ran_bind, ran_addressOf, ran_emit] at ran
    obtain ⟨address, _, ⟨known, rfl⟩, rfl⟩ := ran
    exact ⟨v, home, address, found, known, .inl ⟨array, rfl⟩⟩
  | none =>
    cases there : v.storage with
    | memory home =>
      simp only [array, there] at ran
      obtain ⟨address, known, loaded⟩ := word ran
      exact ⟨v, home, address, found, known, .inr ⟨array, .inl there, loaded⟩⟩
    | register s =>
      cases has : v.home with
      | none =>
        simp only [array, there, has] at ran
        exact (ran_throw.1 ran).elim
      | some home =>
        simp only [array, there, has] at ran
        obtain ⟨address, known, loaded⟩ := word ran
        exact ⟨v, home, address, found, known, .inr ⟨array, .inr ⟨⟨s, there⟩, has⟩, loaded⟩⟩
    | saved slot =>
      simp only [array, there] at ran
      exact (ran_throw.1 ran).elim

theorem allocator_load {x : Unit} (ran : Ran (load id r) w x w') : w'.allocator = w.allocator := by
  obtain ⟨v, home, address, -, -, ⟨-, rfl⟩ | ⟨-, -, rfl⟩⟩ := ran_load ran <;> rfl

end Alloc

end SmallC
