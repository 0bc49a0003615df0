import SmallC.Proofs.Allocation.Operations

/-!
Where paths meet, and levels. Synchronizing parts every named variable from its register and pins every
temporary to one. Closing a level drops exactly the variables that stand in it.
-/
namespace SmallC

namespace Allocator

variable {a a' : Allocator} {id : VarId} {v : Variable} {r : Reg} {hand : List Reg}

theorem levels_push (a : Allocator) (l : Level) :
    ({ a with inner := l :: a.inner } : Allocator).levels = a.levels ++ [l] := by
  simp [levels]

theorem levels_append {l l' : Level} {d : Nat} (found : (a.levels ++ [l])[d]? = some l') :
    a.levels[d]? = some l' ∨ l' = l := by
  rw [List.getElem?_append] at found
  split at found
  · exact .inl found
  · have single := List.mem_of_getElem? found
    exact .inr (List.mem_singleton.1 single)

/-- A level without names comes to the others. -/
theorem Names.pushLevel (names : Names a) {l : Level} (empty : l.names = [])
    (vars : ∀ other, a'.var? other = a.var? other) (temps : a'.temps = a.temps)
    (next : a'.nextTemp = a.nextTemp) (levels : a'.levels = a.levels ++ [l]) : Names a' where
  temp {i w} found isTemp := by
    rw [vars] at found
    rw [temps]
    exact names.temp found isTemp
  tempIs {n i} member := by
    rw [temps] at member
    rw [vars]
    exact names.tempIs member
  tempOnce := by
    rw [temps]
    exact names.tempOnce
  tempNumber member := by
    rw [temps] at member
    rw [next]
    exact names.tempNumber member
  named {i w} found isNamed := by
    rw [vars] at found
    obtain ⟨l', level, member⟩ := names.named found isNamed
    refine ⟨l', ?_, member⟩
    rw [levels, List.getElem?_append_left (List.getElem?_eq_some_iff.1 level).1]
    exact level
  namedIs {d l' n i} level member := by
    rw [levels] at level
    rw [vars]
    rcases levels_append level with old | rfl
    · exact names.namedIs old member
    · rw [empty] at member
      cases member
  levelOnce {d l'} level := by
    rw [levels] at level
    rcases levels_append level with old | rfl
    · exact names.levelOnce old
    · rw [empty]
      exact List.nodup_nil

/-- The innermost level, which is not the root and has no names left, goes. -/
theorem Names.popLevel (names : Names a) (inside : a.inner ≠ []) (empty : a.current.names = [])
    (vars : ∀ other, a'.var? other = a.var? other) (temps : a'.temps = a.temps)
    (next : a'.nextTemp = a.nextTemp) (root : a'.root = a.root)
    (inner : a'.inner = a.inner.drop 1) : Names a' := by
  have levels : a.levels = a'.levels ++ [a.current] := by
    obtain ⟨l, rest, split⟩ := List.exists_cons_of_ne_nil inside
    rw [Allocator.levels, Allocator.levels, Allocator.current, root, inner, split]
    simp
  have level : ∀ {d : Nat} {l : Level}, a'.levels[d]? = some l → a.levels[d]? = some l := by
    intro d l found
    rw [levels, List.getElem?_append_left (List.getElem?_eq_some_iff.1 found).1]
    exact found
  refine ⟨fun {i w} found isTemp => ?_, fun {n i} member => ?_, ?_, fun {n i} member => ?_,
    fun {i w} found isNamed => ?_, fun {d l n i} found member => ?_,
    fun {d l} found => names.levelOnce (level found)⟩
  · rw [vars] at found
    rw [temps]
    exact names.temp found isTemp
  · rw [temps] at member
    rw [vars]
    exact names.tempIs member
  · rw [temps]
    exact names.tempOnce
  · rw [temps] at member
    rw [next]
    exact names.tempNumber member
  · rw [vars] at found
    obtain ⟨l, found', member⟩ := names.named found isNamed
    rw [levels] at found'
    rcases levels_append found' with old | rfl
    · exact ⟨l, old, member⟩
    · rw [empty] at member
      cases member
  · rw [vars]
    exact names.namedIs (level found) member

/-- Whether only the given variables, and temporaries, are left of the innermost level. -/
def OnlyInLevel (a : Allocator) (ids : List VarId) : Prop :=
  ∀ {id v}, a.var? id = some v → v.isTemp = false → v.depth = a.depth → id ∈ ids

theorem onlyInLevel_current (names : Names a) : OnlyInLevel a (a.current.names.map Prod.snd) := by
  intro id v found isNamed deep
  obtain ⟨l, level, member⟩ := names.named found isNamed
  rw [deep, current_level] at level
  cases level
  exact List.mem_map.2 ⟨_, member, rfl⟩

theorem current_names_nil (names : Names a) (none : OnlyInLevel a []) : a.current.names = [] := by
  cases held : a.current.names with
  | nil => rfl
  | cons entry rest =>
    have member : (entry.1, entry.2) ∈ a.current.names := by
      rw [held]
      exact List.mem_cons_self
    obtain ⟨v, found, isNamed, -, deep⟩ := names.namedIs current_level member
    cases none found isNamed deep

end Allocator

namespace Alloc

open Allocator

variable {w w' : Work} {id : VarId} {r : Reg} {hand : List Reg}

/-! ### Levels -/

theorem ran_pushLevel {hides : Bool} {x : Unit} (ran : Ran (pushLevel hides) w x w') :
    w' = on (fun a => { a with inner := Level.empty hides :: a.inner }) w :=
  ran_change.1 ran

theorem pushLevel_sound {hides : Bool} {x : Unit} (sound : Sound hand w.allocator)
    (ran : Ran (pushLevel hides) w x w') :
    Sound hand w'.allocator ∧ w'.allocator.calls = w.allocator.calls := by
  rw [ran_pushLevel ran]
  refine ⟨⟨⟨?_, ?_, ?_, sound.fits⟩, ?_⟩, rfl⟩
  · exact sound.registers.congr rfl rfl (fun _ => Iff.rfl) rfl rfl rfl
  · exact sound.names.pushLevel (l := Level.empty hides) rfl (fun _ => rfl) rfl rfl (levels_push _ _)
  · exact ⟨sound.homes.granted, sound.homes.apart, sound.homes.root⟩
  · exact ⟨sound.body.frame, fun _ => List.cons_ne_nil _ _, sound.body.outside⟩

/-- Nothing is known about some variables any more, and as much as before about the others. -/
structure Drops (ids : List VarId) (a a' : Allocator) : Prop where
  vars : ∀ other, a'.var? other = if other ∈ ids then none else a.var? other
  depth : a'.depth = a.depth
  calls : a'.calls = a.calls
  reserved : a'.reserved = a.reserved
  frame : a'.frame = a.frame
  outside : a'.outside = a.outside

theorem drops_one {x : Unit} (ran : Ran (drop id) w x w') :
    Drops [id] w.allocator w'.allocator := by
  have vars := var?_drop ran
  have rest : w'.allocator.depth = w.allocator.depth ∧ w'.allocator.calls = w.allocator.calls ∧
      w'.allocator.reserved = w.allocator.reserved ∧ w'.allocator.frame = w.allocator.frame ∧
      w'.allocator.outside = w.allocator.outside := by
    obtain ⟨v, -, ⟨-, rfl⟩ | ⟨r, -, rfl⟩⟩ := ran_drop ran <;>
    · refine ⟨depth_forgotten, ?_⟩
      rw [allocator_on, forgotten_eq]
      exact ⟨rfl, rfl, rfl, rfl⟩
  obtain ⟨depth, calls, reserved, frame, outside⟩ := rest
  refine ⟨fun other => ?_, depth, calls, reserved, frame, outside⟩
  rw [vars]
  simp only [List.mem_singleton]

theorem drops {entries : List (String × VarId)} {x : Unit}
    (ran : Ran (entries.forM fun entry => drop entry.2) w x w') :
    Drops (entries.map Prod.snd) w.allocator w'.allocator := by
  induction entries generalizing w with
  | nil =>
    rw [ran_forM_nil.1 ran]
    exact ⟨fun other => rfl, rfl, rfl, rfl, rfl, rfl⟩
  | cons entry rest ih =>
    obtain ⟨mid, first, second⟩ := ran_forM_cons.1 ran
    have one := drops_one first
    have others := ih second
    refine ⟨fun other => ?_, others.depth.trans one.depth, others.calls.trans one.calls,
      others.reserved.trans one.reserved, others.frame.trans one.frame,
      others.outside.trans one.outside⟩
    rw [others.vars, one.vars, List.map_cons]
    by_cases here : other = entry.2
    · simp [here]
    · simp only [List.mem_cons, List.not_mem_nil, here, or_false, false_or, ↓reduceIte]

/-- A level is closed once its variables are dropped. -/
theorem closeLevel_settled {level : Level} {x : Unit} (settled : Settled hand w.allocator)
    (inside : w.allocator.inner ≠ [])
    (all : OnlyInLevel w.allocator (level.names.map Prod.snd)) (ran : Ran (closeLevel level) w x w') :
    Settled hand w'.allocator := by
  simp only [closeLevel, ran_bind, ran_change] at ran
  obtain ⟨_, mid, dropped, rfl⟩ := ran
  have settled' : Settled hand mid.allocator :=
    dropped.forM settled fun entry _ w w' => drop_settled
  have drops := drops dropped
  have inside' : mid.allocator.inner ≠ [] := fun empty => by
    have deep := drops.depth
    rw [Allocator.depth, Allocator.depth, empty] at deep
    exact inside (List.eq_nil_of_length_eq_zero deep.symm)
  have none : OnlyInLevel mid.allocator [] := fun {i v} found isNamed deep => by
    rw [drops.vars] at found
    split at found
    · cases found
    · next kept => exact absurd (all found isNamed (deep.trans drops.depth)) kept
  refine ⟨?_, ?_, ?_, settled'.fits⟩
  · exact settled'.registers.congr rfl rfl (fun _ => Iff.rfl) rfl rfl rfl
  · exact settled'.names.popLevel inside' (current_names_nil settled'.names none) (fun _ => rfl) rfl
      rfl rfl rfl
  · exact ⟨settled'.homes.granted, settled'.homes.apart, settled'.homes.root⟩

/-- What closing a level leaves alone. -/
structure Closes (level : Level) (a a' : Allocator) : Prop where
  vars : ∀ other, a'.var? other = if other ∈ level.names.map Prod.snd then none else a.var? other
  depth : a'.depth = a.depth - 1
  calls : a'.calls = a.calls
  reserved : a'.reserved = a.reserved
  frame : a'.frame = a.frame
  outside : a'.outside = a.outside

theorem closes {level : Level} {x : Unit} (ran : Ran (closeLevel level) w x w') :
    Closes level w.allocator w'.allocator := by
  simp only [closeLevel, ran_bind, ran_change] at ran
  obtain ⟨_, mid, dropped, rfl⟩ := ran
  have drops := drops dropped
  refine ⟨drops.vars, ?_, drops.calls, drops.reserved, drops.frame, drops.outside⟩
  rw [allocator_on, Allocator.depth, List.length_drop]
  exact congrArg (· - 1) drops.depth

theorem code_closeLevel {level : Level} {x : Unit} (ran : Ran (closeLevel level) w x w') :
    w'.code = w.code := by
  simp only [closeLevel, ran_bind, ran_change] at ran
  obtain ⟨_, mid, dropped, rfl⟩ := ran
  have same : mid.code = w.code :=
    dropped.forM (P := fun mid => mid.code = w.code) rfl fun _ _ _ _ same ran => (code_drop ran).trans same
  exact same

theorem ran_popLevel {x : Unit} (ran : Ran popLevel w x w') :
    w.allocator.inner ≠ [] ∧ Ran (closeLevel w.allocator.current) w () w' := by
  simp only [popLevel, ran_bind, ran_look, and_assoc, exists_and_left, exists_eq_left] at ran
  cases inner : w.allocator.inner with
  | nil =>
    rw [inner] at ran
    exact (ran_throw.1 ran).elim
  | cons level outer =>
    rw [inner] at ran
    rw [Allocator.current, inner]
    exact ⟨List.cons_ne_nil level outer, ran⟩

theorem popLevel_sound {x : Unit} (sound : Sound hand w.allocator)
    (deep : w.allocator.frame.isSome → 2 ≤ w.allocator.depth) (ran : Ran popLevel w x w') :
    Sound hand w'.allocator ∧ w'.allocator.calls = w.allocator.calls := by
  obtain ⟨inside, closed⟩ := ran_popLevel ran
  have closes := closes closed
  refine ⟨⟨closeLevel_settled sound.toSettled inside (onlyInLevel_current sound.names) closed, ?_⟩,
    closes.calls⟩
  refine ⟨?_, fun within empty => ?_, fun {o} found => ?_⟩
  · rw [closes.frame, closes.outside, sound.body.frame]
  · have depth := closes.depth
    rw [closes.frame] at within
    rw [Allocator.depth, empty, List.length_nil] at depth
    have := deep within
    omega
  · rw [closes.outside] at found
    exact sound.body.outside found

/-! ### Synchronizing -/

/-- What sending a register home comes to: a named variable in it is written home if the register is
newer, and is parted from it. -/
theorem ran_sendHome {x : Unit} (ran : Ran (sendHome r) w x w') :
    (w.allocator.ownerOf r = none ∧ w' = w) ∨
      ∃ id v, w.allocator.ownerOf r = some id ∧ w.allocator.var? id = some v ∧
        ((v.isTemp = true ∧ w' = w) ∨
          (v.isTemp = false ∧ ∃ mid,
            ((v.isDirty = true ∧ Ran (writeBack id r) w () mid) ∨
              (v.isDirty = false ∧ mid = w)) ∧ Ran (unbind id) mid () w')) := by
  simp only [sendHome, ran_bind, ran_look, and_assoc, exists_and_left, exists_eq_left] at ran
  cases owned : w.allocator.ownerOf r with
  | none =>
    simp only [owned, ran_pure] at ran
    exact .inl ⟨rfl, ran.2⟩
  | some id =>
    simp only [owned, ran_bind, ran_known, ran_ite, ran_pure, and_assoc, exists_and_left,
      exists_eq_left] at ran
    obtain ⟨v, found, ⟨isTemp, -, rfl⟩ | ⟨isNamed, ⟨dirty, _, mid, wrote, parted⟩ |
      ⟨clean, parted⟩⟩⟩ := ran
    · exact .inr ⟨id, v, rfl, found, .inl ⟨isTemp, rfl⟩⟩
    · exact .inr ⟨id, v, rfl, found, .inr ⟨eq_false_of_ne_true isNamed, mid, .inl ⟨dirty, wrote⟩,
        parted⟩⟩
    · exact .inr ⟨id, v, rfl, found, .inr ⟨eq_false_of_ne_true isNamed, w,
        .inr ⟨eq_false_of_ne_true clean, rfl⟩, parted⟩⟩

/-- A named variable that goes home leaves everything in order. -/
theorem goesHome_sound {v : Variable} {mid : Work} (sound : Sound hand w.allocator)
    (found : w.allocator.var? id = some v) (isNamed : v.isTemp = false)
    (there : v.storage = .register r)
    (wrote : (v.isDirty = true ∧ Ran (writeBack id r) w () mid) ∨ (v.isDirty = false ∧ mid = w))
    (parted : Ran (unbind id) mid () w') :
    Sound hand w'.allocator ∧ w'.allocator.calls = w.allocator.calls := by
  have fits := sound.fits found
  have went := wrote.imp (fun dirty => (⟨isNamed, dirty⟩ : v.isTemp = false ∧ _))
    fun clean => (⟨isNamed, clean⟩ : v.isTemp = false ∧ _)
  have sound' := leaving_sound sound found (.inr went)
  obtain ⟨keeps, -, -, -, -, u, home, known, there', unpinned', memory⟩ :=
    leaving fits.home found there (fits.unpinned isNamed) (.inr went)
  obtain ⟨u', known', ⟨away, -⟩ | ⟨s, there'', rfl⟩⟩ := ran_unbind.1 parted
  · cases known.symm.trans known'
    rw [there'] at away
    cases away
  · cases known.symm.trans known'
    cases there'.symm.trans there''
    exact ⟨sound'.unbound known there' memory unpinned', keeps.calls⟩

theorem sendHome_sound {x : Unit} (sound : Sound hand w.allocator) (ran : Ran (sendHome r) w x w') :
    Sound hand w'.allocator ∧ w'.allocator.calls = w.allocator.calls := by
  obtain ⟨-, rfl⟩ | ⟨id, v, owned, found, ⟨-, rfl⟩ | ⟨isNamed, mid, wrote, parted⟩⟩ :=
    ran_sendHome ran
  · exact ⟨sound, rfl⟩
  · exact ⟨sound, rfl⟩
  · obtain ⟨v', found', there⟩ := sound.registers.owner.1 owned
    cases found.symm.trans found'
    exact goesHome_sound sound found isNamed there wrote parted

theorem ran_pin {x : Unit} (ran : Ran (pin id) w x w') :
    ∃ v, w.allocator.var? id = some v ∧ w' = on (fun a => a.setVar id
      { v with isPinned := v.isPinned || v.storage.register?.isSome }) w :=
  ran_update.1 ran

/-- What bringing a temporary back comes to: if it is in memory, it is loaded into a register that is
taken for it. -/
theorem ran_bringBack {x : Unit} (ran : Ran (bringBack id) w x w') :
    ∃ v, w.allocator.var? id = some v ∧ ((v.storage.isMemory = false ∧ w' = w) ∨
      (v.storage.isMemory = true ∧ ∃ r mid loaded u, Ran take w r mid ∧
        Ran (load id r) mid () loaded ∧ loaded.allocator.var? id = some u ∧
        w' = on (fun a => (a.bound id r u).setVar id
          { u with storage := .register r, isPinned := true }) loaded)) := by
  simp only [bringBack, ran_bind, ran_known, ran_ite, ran_pure, ran_bindTo, ran_update, and_assoc,
    exists_and_left, exists_eq_left] at ran
  obtain ⟨v, found, ⟨inMemory, r, mid, took, _, loaded, load, _, _, ⟨u, known, rfl⟩, u', known', rfl⟩ |
    ⟨elsewhere, -, rfl⟩⟩ := ran
  · rw [allocator_on, var?_bound known, if_pos rfl] at known'
    cases known'
    exact ⟨v, found, .inr ⟨inMemory, r, mid, loaded, u, took, load, known, rfl⟩⟩
  · exact ⟨v, found, .inl ⟨eq_false_of_ne_true elsewhere, rfl⟩⟩

/-- Whether all of some variables are temporaries. -/
def AllTemps (ids : List VarId) (a : Allocator) : Prop :=
  ∀ id ∈ ids, ∃ v, a.var? id = some v ∧ v.isTemp = true

theorem AllTemps.keeps {ids : List VarId} {a a' : Allocator} (temps : AllTemps ids a)
    (keeps : Keeps a a') : AllTemps ids a' := by
  intro id member
  obtain ⟨v, found, isTemp⟩ := temps id member
  obtain ⟨v', found', same⟩ := keeps.same found
  exact ⟨v', found', same.isTemp.trans isTemp⟩

theorem pin_sound {v : Variable} {x : Unit} (sound : Sound hand w.allocator)
    (found : w.allocator.var? id = some v) (isTemp : v.isTemp = true) (ran : Ran (pin id) w x w') :
    Sound hand w'.allocator ∧ Keeps w.allocator w'.allocator := by
  obtain ⟨u, known, rfl⟩ := ran_pin ran
  cases known.symm.trans found
  have fits := sound.fits found
  refine ⟨sound.setVar found _ (fun _ => Iff.rfl) rfl rfl rfl rfl
    ⟨fits.memory, fits.home, fun isNamed => ?_, fits.unsaved, fun pinned home there => ?_⟩,
    .setVar found ⟨rfl, rfl, rfl, rfl, rfl, rfl, rfl, rfl, fun has => has⟩ fun there _ => there⟩
  · cases isTemp.symm.trans isNamed
  · have there' : v.storage = .memory home := there
    rw [show _ = (v.isPinned || v.storage.register?.isSome) from rfl, there', Bool.or_eq_true] at pinned
    rcases pinned with before | inRegister
    · exact fits.pinned before home there'
    · cases inRegister

theorem bringBack_sound {v : Variable} {x : Unit} (sound : Sound hand w.allocator)
    (found : w.allocator.var? id = some v) (isTemp : v.isTemp = true)
    (ran : Ran (bringBack id) w x w') :
    Sound hand w'.allocator ∧ Keeps w.allocator w'.allocator := by
  obtain ⟨v', found', ⟨-, rfl⟩ | ⟨inMemory, r, mid, loaded, u, took, load, known, rfl⟩⟩ :=
    ran_bringBack ran
  · exact ⟨sound, .refl _⟩
  · cases found.symm.trans found'
    have away : v.storage.register? = none := by
      cases there : v.storage with
      | register s =>
        rw [there] at inMemory
        cases inMemory
      | memory | saved => rfl
    have taken := takes sound took
    have known' := taken.only found fun there => by
      rw [there] at away
      cases away
    rw [allocator_load load, known'] at known
    cases known
    rw [allocator_on, allocator_load load]
    refine ⟨arrives_sound taken.sound known' away rfl rfl rfl rfl rfl rfl fun isNamed => ?_,
      taken.keeps.trans (arrives_keeps _ known' away rfl ⟨rfl, rfl, rfl, rfl, rfl, rfl, rfl, rfl, fun has => has⟩)⟩
    cases isTemp.symm.trans isNamed

theorem mem_tempIds {ids : List VarId} (names : Names w.allocator) (ran : Ran tempIds w ids w') :
    AllTemps ids w.allocator ∧ w' = w := by
  obtain ⟨rfl, rfl⟩ := ran_look.1 ran
  refine ⟨fun id member => ?_, rfl⟩
  rw [List.mem_mergeSort] at member
  obtain ⟨entry, standing, rfl⟩ := List.mem_map.1 member
  obtain ⟨v, found, isTemp, -⟩ := names.tempIs standing
  exact ⟨v, found, isTemp⟩

theorem ran_sync {x : Unit} (ran : Ran sync w x w') :
    ∃ home ids pinned, Ran (Reg.all.forM sendHome) w () home ∧ Ran tempIds home ids home ∧
      Ran (ids.forM pin) home () pinned ∧ Ran (ids.forM bringBack) pinned () w' := by
  simp only [sync, ran_bind] at ran
  obtain ⟨_, home, sent, ids, same, listed, _, pinned, first, second⟩ := ran
  have unchanged : same = home := (ran_look.1 listed).2
  subst unchanged
  exact ⟨same, ids, pinned, sent, listed, first, second⟩

/-- A loop over temporaries of which every pass keeps what traffic keeps. -/
theorem temps_forM {f : VarId → Alloc Unit} {ids : List VarId} {x : Unit}
    (sound : Sound hand w.allocator) (temps : AllTemps ids w.allocator)
    (pass : ∀ {id v w w'}, Sound hand w.allocator → w.allocator.var? id = some v →
      v.isTemp = true → Ran (f id) w () w' → Sound hand w'.allocator ∧ Keeps w.allocator w'.allocator)
    (ran : Ran (ids.forM f) w x w') :
    Sound hand w'.allocator ∧ Keeps w.allocator w'.allocator := by
  refine Ran.forM ran (P := fun mid => Sound hand mid.allocator ∧ Keeps w.allocator mid.allocator)
    ⟨sound, .refl _⟩ fun id member mid mid' kept ran => ?_
  obtain ⟨v, found, isTemp⟩ := temps.keeps kept.2 id member
  obtain ⟨sound', keeps⟩ := pass kept.1 found isTemp ran
  exact ⟨sound', kept.2.trans keeps⟩

theorem sync_sound {x : Unit} (sound : Sound hand w.allocator) (ran : Ran sync w x w') :
    Sound hand w'.allocator ∧ w'.allocator.calls = w.allocator.calls := by
  obtain ⟨home, ids, pinned, sent, listed, first, second⟩ := ran_sync ran
  have sent' : Sound hand home.allocator ∧ home.allocator.calls = w.allocator.calls := by
    refine Ran.forM sent (P := fun mid => Sound hand mid.allocator ∧
      mid.allocator.calls = w.allocator.calls) ⟨sound, rfl⟩ fun r _ mid mid' kept ran => ?_
    obtain ⟨sound', calls⟩ := sendHome_sound kept.1 ran
    exact ⟨sound', calls.trans kept.2⟩
  obtain ⟨temps, -⟩ := mem_tempIds sent'.1.names listed
  obtain ⟨sound', keeps⟩ := temps_forM sent'.1 temps pin_sound first
  obtain ⟨sound'', keeps'⟩ := temps_forM sound' (temps.keeps keeps) bringBack_sound second
  exact ⟨sound'', (keeps'.calls.trans keeps.calls).trans sent'.2⟩

end Alloc

end SmallC
