import SmallC.Proofs.Generation.Placing
import SmallC.Proofs.Generation.Running

/-!
Straight generation side by side with a machine that executes what is appended. Variables may be arrays and pointers
here, and a pointer may have changed any of them. What is relied on keeps its names and all that is known about it but
where it is; a result is the name of a new temporary, whose value is known behind the code that computes it.
-/
namespace SmallC

open Alloc Allocator Machine

namespace Allocator

/-- A name stands for a variable whatever temporaries come: it is that of a temporary, or one that none can have. -/
def GoesBy (a : Allocator) (name : String) (id : VarId) : Prop :=
  a.temps.lookup name = some id ∨ isTempName name = false ∧ a.find? name = some id

/-- What is known about the variable that goes by a name, and its value. -/
structure Records (last : VarId → Option Word) (a : Allocator) (name : String) (id : VarId) (v : Variable) (x : Word) :
    Prop where
  named : a.GoesBy name id
  found : a.var? id = some v
  valued : last id = some x

/-- Another state that goes by the same names for the variables that are relied on, and knows the same about them,
apart from where they are. -/
structure Recalls (K : VarId → Prop) (a a' : Allocator) : Prop extends Onward a a' where
  root : a'.root = a.root
  inner : a'.inner = a.inner
  same : ∀ {id v}, K id → a.var? id = some v → ∃ v', a'.var? id = some v' ∧ v.Same v'
  gone : ∀ {id}, K id → a.var? id = none → a'.var? id = none

variable {K L : VarId → Prop} {a a' b : Allocator} {name : String} {id : VarId} {v : Variable} {x : Word}
  {last : VarId → Option Word}

theorem GoesBy.find? (named : a.GoesBy name id) : a.find? name = some id := by
  obtain looked | ⟨-, found⟩ := named
  · rw [Allocator.find?, looked]
    rfl
  · exact found

theorem Records.means (records : a.Records last name id v x) : a.Means last name x :=
  ⟨id, records.named.find?, records.valued⟩

namespace Recalls

theorem refl (a : Allocator) : Recalls K a a :=
  ⟨.refl a, rfl, rfl, fun _ found => ⟨_, found, .refl _⟩, fun _ none => none⟩

theorem trans (first : Recalls K a b) (second : Recalls K b a') : Recalls K a a' where
  toOnward := first.toOnward.trans second.toOnward
  root := second.root.trans first.root
  inner := second.inner.trans first.inner
  same counts found := by
    obtain ⟨v', found', same⟩ := first.same counts found
    obtain ⟨v'', found'', same'⟩ := second.same counts found'
    exact ⟨v'', found'', same.trans same'⟩
  gone counts none := second.gone counts (first.gone counts none)

theorem mono (recalls : Recalls K a a') (less : ∀ {id}, L id → K id) : Recalls L a a' :=
  { recalls with
    same := fun counts => recalls.same (less counts)
    gone := fun counts => recalls.gone (less counts) }

theorem of_keeps (keeps : Keeps a a') : Recalls K a a' :=
  ⟨.of_keeps keeps, keeps.root, keeps.inner, fun _ => keeps.same, fun _ => keeps.absent⟩

/-- A variable that is relied on goes by the names that it had. -/
theorem named (recalls : Recalls K a a') (names : Names a) (names' : Names a') (counts : K id)
    (named : a.GoesBy name id) : a'.GoesBy name id := by
  obtain looked | ⟨plain, found⟩ := named
  · obtain ⟨v, found, isTemp, rfl⟩ := names.tempIs ((Level.lookup_eq_some names.tempOnce).1 looked)
    obtain ⟨v', found', same⟩ := recalls.same counts found
    rw [← same.name]
    exact .inl ((Level.lookup_eq_some names'.tempOnce).2 (names'.temp found' (same.isTemp.trans isTemp)))
  · rw [Allocator.find?, Gen.lookup_of_named names plain] at found
    refine .inr ⟨plain, ?_⟩
    rw [Allocator.find?, Gen.lookup_of_named names' plain, recalls.root, recalls.inner]
    exact found

/-- Nothing that is relied on comes to go by the name of a temporary. -/
theorem loose (recalls : Recalls K a a') (names : Names a) (names' : Names a') (loose : Gen.Loose K name a) :
    Gen.Loose K name a' := by
  intro id looked counts
  obtain ⟨v', found', isTemp, rfl⟩ := names'.tempIs ((Level.lookup_eq_some names'.tempOnce).1 looked)
  cases before : a.var? id with
  | none => cases (recalls.gone counts before).symm.trans found'
  | some v =>
    obtain ⟨u, known, same⟩ := recalls.same counts before
    cases found'.symm.trans known
    refine loose id ?_ counts
    rw [same.name]
    exact (Level.lookup_eq_some names.tempOnce).2 (names.temp before (same.isTemp.symm.trans isTemp))

end Recalls

end Allocator

theorem Machine.Leaves.written {m : Machine} {code : List MachineInstr} {rd : Reg} {w : Word}
    (leaves : Leaves m code rd w) : ∀ i ∈ code, i.written?.isSome := fun i member => by
  obtain written | written := leaves.writes i member <;>
  · rw [written]
    rfl

/-- A temporary takes the value that code leaves in its register. -/
theorem AtRest.learn {base : Int} {size : Nat} {last : VarId → Option Word} {a : Allocator} {m : Machine} {id : VarId}
    {v : Variable} {rd : Reg} {w : Word} {code : List MachineInstr} (rest : AtRest base size last a m)
    (found : a.var? id = some v) (isTemp : v.isTemp = true) (there : v.storage = .register rd) (array : v.array = none)
    (reload : v.mustReload = false) (leaves : Leaves m code rd w) :
    ∃ m', m.performs code = .ok m' ∧ AtRest base size (Function.update last id (some w)) a m' := by
  obtain ⟨m', done, holds⟩ := leaves.done
  obtain ⟨memory, zero, others⟩ := performs_writes leaves.written done
  have spared : ∀ {q : Reg}, q ≠ rd → q ≠ Reg.scratch → q ≠ Reg.status → m'.reg q = m.reg q :=
    fun other aside noStatus => others noStatus fun i member written => (leaves.writes i member).elim
      (fun own => other (Option.some.inj (written.symm.trans own))) fun own =>
        aside (Option.some.inj (written.symm.trans own))
  have carries := rest.tidy.carried found there
  have unscratched : ∀ {q : Reg}, q.Carries → q ≠ Reg.scratch := by
    rintro q (inPool | argument) rfl
    · cases inPool
    · revert argument
      decide
  refine ⟨m', done, rest.sound, rest.idle, rest.tidy, ⟨zero.trans rest.bearing.zero, ?_, ?_⟩, fun {i} beyond => ?_,
    fun {i u y} known valued => ?_⟩
  · rw [spared carries.ne.2.1.symm (by decide) (by decide), rest.bearing.stack]
  · rw [memory, rest.bearing.memory]
  · rw [Function.update_of_ne]
    · exact rest.bearing.fresh beyond
    · rintro rfl
      exact Nat.not_lt.2 beyond (var?_lt found)
  · by_cases same : i = id
    · subst same
      cases found.symm.trans known
      cases (Function.update_self ..).symm.trans valued
      refine ⟨fun has => ?_, fun there' _ => ?_, fun _ stands => ?_, fun _ _ _ shared _ => ?_⟩
      · cases array.symm.trans has
      · cases there.symm.trans there'
        exact holds
      · cases there.symm.trans stands
      · obtain isNamed | exposed := shared
        · cases isTemp.symm.trans isNamed
        · cases reload.symm.trans exposed
    · rw [Function.update_of_ne same] at valued
      refine (rest.bearing.bears known valued).still memory fun {q} there' => ?_
      have carries' := rest.tidy.carried known there'
      exact spared (fun own => same (rest.tidy.alone known found there' (own ▸ there))) (unscratched carries')
        carries'.ne.2.2.1

namespace Gen

/-! ### Passages -/

variable {c : Context} {p p' mid : Progress} {base : Int} {size : Nat} {K L : VarId → Prop}
  {last last' last'' : VarId → Option Word} {m m' m'' : Machine} {name temp : String} {id : VarId} {v : Variable}
  {x w : Word} {r rd : Reg} {kind : NumberKind} {refs : Nat}

/-- From one state between operations to another: what is appended executes, what is relied on is known as it was, and
variables keep their values. -/
structure Transit (base : Int) (size : Nat) (K : VarId → Prop) (p : Progress) (last : VarId → Option Word) (m : Machine)
    (p' : Progress) (last' : VarId → Option Word) (m' : Machine) : Prop where
  straight : ∃ code, AppendsPlain p code p' ∧ m.performs code = .ok m'
  before : AtRest base size last p.allocator m
  rest : AtRest base size last' p'.allocator m'
  recalls : Recalls K p.allocator p'.allocator
  values : ∀ {id}, id < p.allocator.vars.size → last' id = last id

namespace Transit

theorem refl (rest : AtRest base size last p.allocator m) : Transit base size K p last m p last m :=
  ⟨⟨[], .nil p, rfl⟩, rest, rest, .refl _, fun _ => rfl⟩

theorem trans (first : Transit base size K p last m mid last' m')
    (second : Transit base size K mid last' m' p' last'' m'') : Transit base size K p last m p' last'' m'' := by
  obtain ⟨code, appends, done⟩ := first.straight
  obtain ⟨code', appends', done'⟩ := second.straight
  exact ⟨⟨code ++ code', appends.trans appends', (performs_append done).trans done'⟩, first.before, second.rest,
    first.recalls.trans second.recalls, fun inside =>
      (second.values (Nat.lt_of_lt_of_le inside first.recalls.size)).trans (first.values inside)⟩

theorem mono (passes : Transit base size K p last m p' last' m') (less : ∀ {id}, L id → K id) :
    Transit base size L p last m p' last' m' :=
  { passes with recalls := passes.recalls.mono less }

/-- What is relied on goes by its names, and has the value that it had. -/
theorem records (passes : Transit base size K p last m p' last' m') (counts : K id)
    (records : p.allocator.Records last name id v x) : ∃ v', p'.allocator.Records last' name id v' x ∧ v.Same v' := by
  obtain ⟨v', found, same⟩ := passes.recalls.same counts records.found
  exact ⟨v', ⟨passes.recalls.named passes.before.sound.names passes.rest.sound.names counts records.named, found,
    (passes.values (var?_lt records.found)).trans records.valued⟩, same⟩

theorem loose (passes : Transit base size K p last m p' last' m') (loose : Loose K name p.allocator) :
    Loose K name p'.allocator :=
  passes.recalls.loose passes.before.sound.names passes.rest.sound.names loose

end Transit

/-- On the way, words that are no variable's hold what they held. -/
structure Passage (base : Int) (size : Nat) (K : VarId → Prop) (p : Progress) (last : VarId → Option Word) (m : Machine)
    (p' : Progress) (last' : VarId → Option Word) (m' : Machine) : Prop
    extends Transit base size K p last m p' last' m' where
  bypasses : Bypasses base p.allocator m p'.allocator m'

namespace Passage

theorem refl (rest : AtRest base size last p.allocator m) : Passage base size K p last m p last m :=
  ⟨.refl rest, .of_memory rfl⟩

theorem trans (first : Passage base size K p last m mid last' m')
    (second : Passage base size K mid last' m' p' last'' m'') : Passage base size K p last m p' last'' m'' :=
  ⟨first.toTransit.trans second.toTransit, first.bypasses.trans second.bypasses⟩

theorem mono (passes : Passage base size K p last m p' last' m') (less : ∀ {id}, L id → K id) :
    Passage base size L p last m p' last' m' :=
  ⟨passes.toTransit.mono less, passes.bypasses⟩

/-- The work of the allocator between two states at rest. -/
theorem of_work {w : Work} {code : List MachineInstr} (before : AtRest base size last p.allocator m)
    (emitted : w.code.toList = code) (done : m.performs code = .ok m') (rest : AtRest base size last w.allocator m')
    (recalls : Recalls K p.allocator w.allocator) (bypasses : Bypasses base p.allocator m w.allocator m') :
    Passage base size K p last m { p with allocator := w.allocator, draft := p.draft.pushAll w.code } last m' :=
  ⟨⟨⟨w.code.toList, appends_pushAll _ _ _, by rw [emitted, done]⟩, before, rest, recalls, fun _ => rfl⟩, bypasses⟩

end Passage

/-- A register that holds a word and is not to be had. -/
structure Occupied (last : VarId → Option Word) (a : Allocator) (m : Machine) (r : Reg) (x : Word) : Prop where
  secures : Secures last a m r x
  shut : ¬ a.Open r
  carries : r.Carries

theorem Occupied.keeping {a a' : Allocator} (occupied : Occupied last a m r x) (keeping : Keeping last a a' m m') :
    Occupied last a' m' r x :=
  ⟨keeping.secures occupied.shut occupied.carries.ne.2.2.1 occupied.secures,
    fun opens => occupied.shut (keeping.closed opens), occupied.carries⟩

/-- The register that a variable is read into holds its value. -/
theorem fetch_passes (rest : AtRest base size last p.allocator m) (room : Room base size p'.allocator)
    (means : p.allocator.Means last name x) (ran : (fetch name).exec c p = .ok (r, p')) :
    ∃ m', Passage base size K p last m p' last m' ∧ Keeping last p.allocator p'.allocator m m' ∧
      Occupied last p'.allocator m' r x := by
  obtain ⟨w, reads, rfl⟩ := exec_fetch ran
  obtain ⟨code, m', emitted, done, rest', keeping, secures, shut, carries, keeps⟩ :=
    AtRest.read (w := ⟨p.allocator, #[]⟩) rest room means reads
  obtain ⟨code', emitted', deeds⟩ := does_getRegister (K := fun _ => False) (T := p.allocator.Open)
    (w := ⟨p.allocator, #[]⟩) rest.sound (fun _ it => it) reads
  cases List.append_cancel_left (emitted.symm.trans emitted')
  have bypasses := deeds.bypasses rest.tidy room (fun _ => Open.carries) False.elim rest.bearing done
  exact ⟨m', .of_work rest emitted done rest' (.of_keeps keeps) bypasses, keeping, secures, shut, carries⟩

/-- Giving up a temporary that is not relied on. -/
theorem removeIfTemp_recalls {w w' : Work} {u : Unit} (sound : Sound [] w.allocator) (loose : Loose K name w.allocator)
    (ran : Ran (removeIfTemp name) w u w') :
    Recalls K w.allocator w'.allocator ∧ w'.allocator.held = w.allocator.held := by
  have onward := (does_removeIfTemp (K := fun _ => False) (T := fun _ => False) ran).onward
  simp only [removeIfTemp, ran_bind, ran_look, and_assoc, exists_and_left, exists_eq_left] at ran
  split at ran
  · next id looked =>
    obtain ⟨v, found, isTemp, -⟩ := sound.names.tempIs ((Level.lookup_eq_some sound.names.tempOnce).1 looked)
    have vars := var?_drop ran
    obtain ⟨root, inner, held⟩ : w'.allocator.root = w.allocator.root ∧ w'.allocator.inner = w.allocator.inner ∧
        w'.allocator.held = w.allocator.held := by
      obtain ⟨v', found', ⟨-, rfl⟩ | ⟨r, -, rfl⟩⟩ := ran_drop ran
      · cases found.symm.trans found'
        simp only [allocator_on, Allocator.forgotten, isTemp, if_true, and_self]
      · cases found.symm.trans found'
        have isTemp' : v.parted.isTemp = true := isTemp
        simp only [allocator_on, Allocator.forgotten, isTemp', if_true]
        exact ⟨rfl, rfl, rfl⟩
    have others : ∀ {i}, K i → w'.allocator.var? i = w.allocator.var? i := fun {i} counts => by
      rw [vars, if_neg]
      rintro rfl
      exact loose _ looked counts
    exact ⟨⟨onward, root, inner, fun counts known => ⟨_, (others counts).trans known, .refl _⟩,
      fun counts none => (others counts).trans none⟩, held⟩
  · obtain ⟨-, rfl⟩ := ran_pure.1 ran
    exact ⟨.refl _, rfl⟩

/-- A temporary that is not relied on is given up. -/
theorem free_passes {u : Unit} (rest : AtRest base size last p.allocator m) (room : Room base size p'.allocator)
    (loose : Loose K name p.allocator) (ran : (free name).exec c p = .ok (u, p')) :
    ∃ m', Passage base size K p last m p' last m' ∧ Keeping last p.allocator p'.allocator m m' := by
  obtain ⟨w, frees, rfl⟩ := exec_free ran
  obtain ⟨recalls, held⟩ := removeIfTemp_recalls (w := ⟨p.allocator, #[]⟩) rest.sound loose frees
  obtain ⟨code, emitted, deeds⟩ := does_removeIfTemp (K := fun _ => False) (T := fun _ => False) frees
  obtain ⟨⟨m', done, bearing, secures⟩, -⟩ :=
    deeds.performs rest.tidy room (fun _ => False.elim) False.elim rest.bearing
  obtain ⟨sound, calls⟩ := removeIfTemp_sound rest.sound frees
  refine ⟨m', .of_work rest emitted done
    ⟨sound, calls.trans rest.idle, deeds.tidy rest.tidy fun _ => False.elim, bearing⟩ recalls
    (deeds.bypasses rest.tidy room (fun _ => False.elim) False.elim rest.bearing done), ?_⟩
  exact ⟨.of_held fun member => held.symm ▸ member, fun _ => deeds.vacant rest.tidy (fun _ => False.elim) fun it => it,
    fun _ => secures fun it => it⟩

/-- Registers are released. -/
theorem release_passes {u : Unit} (rest : AtRest base size last p.allocator m)
    (ran : releaseHolds.exec c p = .ok (u, p')) : Passage base size K p last m p' last m := by
  obtain ⟨w, releases, rfl⟩ := exec_alloc ran
  cases ran_change.1 releases
  have onward : Onward p.allocator { p.allocator with held := [] } := .of_same (Nat.le_refl _) rfl
  exact .of_work rest rfl rfl ⟨rest.sound.congr (fun _ => Iff.rfl) rfl, rest.idle, rest.tidy.congr onward fun _ => rfl,
    rest.bearing.fewer onward fun found => .inl found⟩ ⟨onward, rfl, rfl, fun _ found => ⟨_, found, .refl _⟩,
      fun _ none => none⟩ (.aside onward fun _ => rfl)

/-! ### New temporaries -/

/-- The state with a new temporary in a register that was taken for it and is held. -/
def withNewTemp (kind : NumberKind) (refs : Nat) (r : Reg) (a : Allocator) : Allocator :=
  (((withTemp r a).used a.vars.size r).setVar a.vars.size { introducedTemp a r with kind }).setVar a.vars.size
    { introducedTemp a r with kind, refs }

theorem var?_withNewTemp (kind : NumberKind) (refs : Nat) (r : Reg) (a : Allocator) (other : VarId) :
    (withNewTemp kind refs r a).var? other =
      if other = a.vars.size then some { introducedTemp a r with kind, refs } else a.var? other := by
  have first : ((withTemp r a).used a.vars.size r).var? a.vars.size = some (introducedTemp a r) :=
    (var?_withTemp a _).trans (if_pos rfl)
  rw [withNewTemp, var?_setVar (var?_setVar_self first _)]
  split
  · rfl
  · next different => exact (var?_setVar_of_ne different).trans ((var?_withTemp a other).trans (if_neg different))

theorem onward_withNewTemp (kind : NumberKind) (refs : Nat) (r : Reg) (a : Allocator) :
    Onward a (withNewTemp kind refs r a) :=
  .of_same (by simp [withNewTemp, withTemp, used, Allocator.bound, Allocator.addVar, Allocator.setVar]) rfl

/-- A new temporary comes to deeds: a register is taken, and a variable is added that is there. -/
theorem newTemp_does {mid : Work} (sound : Sound [] p.allocator) (took : Ran take ⟨p.allocator, #[]⟩ rd mid) :
    Does (fun _ => False) p.allocator.Open ⟨p.allocator, #[]⟩ ⟨withNewTemp kind refs rd mid.allocator, mid.code⟩ := by
  have taken := takes (w := ⟨p.allocator, #[]⟩) sound took
  have placing : Placing p.allocator.Open mid.allocator (withNewTemp kind refs rd mid.allocator) none
      { introducedTemp mid.allocator rd with kind, refs } := by
    refine ⟨fun there => ?_, fun stands => ?_, fun waits => ?_, fun has => ?_⟩
    · cases there
      exact .inr ⟨taken.was_open, taken.sound.registers.vacant⟩
    · cases stands
    · cases waits
    · cases has
  exact (does_take (w := ⟨p.allocator, #[]⟩) sound took).trans
    (.quiet (.add (onward_withNewTemp kind refs rd mid.allocator) (var?_withNewTemp kind refs rd mid.allocator) placing) rfl)

/-- What a new temporary comes to. -/
theorem exec_newTemp (sound : Sound [] p.allocator) (ran : (newTemp kind refs).exec c p = .ok ((temp, rd), p')) :
    ∃ mid, Ran take ⟨p.allocator, #[]⟩ rd mid ∧ temp = tempName mid.allocator.nextTemp ∧ Sound [] p'.allocator ∧
      p' = { p with allocator := withNewTemp kind refs rd mid.allocator, draft := p.draft.pushAll mid.code } := by
  obtain ⟨w, did, rfl⟩ := exec_alloc ran
  simp only [ran_bind, ran_pure] at did
  obtain ⟨name, w₁, added, r, w₂, read, _, w₃, noted, _, _, noted', same, rfl⟩ := did
  cases same
  have sound₁ := addTemp_sound sound added
  have sound₂ := getRegister_sound sound₁ read
  have sound₃ : Sound [] w₃.allocator :=
    noteOf_sound (f := fun v => { v with kind }) sound₂ (fun v => ⟨rfl, rfl, rfl, rfl, rfl, rfl, rfl⟩) noted
  have sound₄ : Sound [] w.allocator :=
    noteOf_sound (f := fun v => { v with refs }) sound₃ (fun v => ⟨rfl, rfl, rfl, rfl, rfl, rfl, rfl⟩) noted'
  obtain ⟨r, mid, took, rfl, rfl⟩ := ran_addTemp added
  have found : (withTemp r mid.allocator).var? mid.allocator.vars.size = some (introducedTemp mid.allocator r) :=
    (var?_withTemp _ _).trans (if_pos rfl)
  have looked : (withTemp r mid.allocator).temps.lookup (tempName mid.allocator.nextTemp) =
      some mid.allocator.vars.size :=
    (Level.lookup_eq_some sound₁.names.tempOnce).2 (List.mem_append_right _ (List.mem_singleton_self _))
  have resolved : ∀ {b : Allocator}, b.temps = (withTemp r mid.allocator).temps →
      b.find? (tempName mid.allocator.nextTemp) = some mid.allocator.vars.size := fun {b} same => by
    rw [Allocator.find?, same, looked]
    rfl
  -- the temporary is in its register, so that reading it changes nothing that is known
  obtain ⟨rfl, rfl⟩ : rd = r ∧ w₂ = on (fun a => a.used mid.allocator.vars.size rd) (on (withTemp r) mid) := by
    obtain ⟨id', v', resolved', found', ⟨there', mid', loaded, rfl⟩ | ⟨away, -⟩⟩ := ran_getRegister read
    · cases (resolved rfl).symm.trans resolved'
      cases found.symm.trans found'
      cases there'
      obtain ⟨reloads, -⟩ | ⟨rfl, -⟩ := loaded
      · cases reloads
      · exact ⟨rfl, rfl⟩
    · cases (resolved rfl).symm.trans resolved'
      cases found.symm.trans found'
      cases away
  simp only [setKind, ran_bind, ran_resolve, ran_update, and_assoc, exists_and_left, exists_eq_left] at noted
  obtain ⟨i, resolved', u, found', rfl⟩ := noted
  cases (resolved rfl).symm.trans resolved'
  cases found.symm.trans found'
  simp only [setRefs, ran_bind, ran_resolve, ran_update, and_assoc, exists_and_left, exists_eq_left] at noted'
  obtain ⟨i, resolved', u, found', rfl⟩ := noted'
  cases (resolved rfl).symm.trans resolved'
  cases (var?_setVar_self (a := (withTemp rd mid.allocator).used mid.allocator.vars.size rd) found _).symm.trans found'
  exact ⟨mid, took, rfl, sound₄, rfl⟩

/-- What is known about a temporary that was introduced in a register. -/
structure Introduced (a a' : Allocator) (kind : NumberKind) (refs : Nat) (temp : String) (rd : Reg) (id : VarId)
    (v : Variable) : Prop where
  fresh : a.vars.size ≤ id
  looked : a'.temps.lookup temp = some id
  found : a'.var? id = some v
  isTemp : v.isTemp = true
  there : v.storage = .register rd
  array : v.array = none
  reload : v.mustReload = false
  kind : v.kind = kind
  refs : v.refs = refs

/-- A register is taken for a new temporary. -/
theorem newTemp_passes (rest : AtRest base size last p.allocator m) (room : Room base size p'.allocator)
    (inside : ∀ {id}, K id → id < p.allocator.vars.size) (ran : (newTemp kind refs).exec c p = .ok ((temp, rd), p')) :
    ∃ id v m', Passage base size K p last m p' last m' ∧ Keeping last p.allocator p'.allocator m m' ∧
      Introduced p.allocator p'.allocator kind refs temp rd id v ∧ p.allocator.Open rd := by
  obtain ⟨mid, took, rfl, sound, rfl⟩ := exec_newTemp rest.sound ran
  dsimp only at room sound ⊢
  have taken := takes (w := ⟨p.allocator, #[]⟩) rest.sound took
  have vars := var?_withNewTemp kind refs rd mid.allocator
  have onward := onward_withNewTemp kind refs rd mid.allocator
  obtain ⟨code, emitted, deeds⟩ : Does (fun _ => False) p.allocator.Open ⟨p.allocator, #[]⟩
      ⟨withNewTemp kind refs rd mid.allocator, mid.code⟩ := newTemp_does rest.sound took
  obtain ⟨⟨m', done, bearing, secures⟩, -⟩ :=
    deeds.performs rest.tidy room (fun _ => Open.carries) False.elim rest.bearing
  have rest' : AtRest base size last (withNewTemp kind refs rd mid.allocator) m' :=
    ⟨sound, taken.keeps.calls.trans rest.idle, deeds.tidy rest.tidy fun _ => Open.carries, bearing⟩
  have others : ∀ {i}, K i → (withNewTemp kind refs rd mid.allocator).var? i = mid.allocator.var? i := by
    intro i counts
    rw [vars, if_neg]
    rintro rfl
    exact Nat.lt_irrefl _ (taken.keeps.size ▸ inside counts)
  have recalls : Recalls K mid.allocator (withNewTemp kind refs rd mid.allocator) :=
    ⟨onward, rfl, rfl, fun counts known => ⟨_, (others counts).trans known, .refl _⟩,
      fun counts none => (others counts).trans none⟩
  exact ⟨mid.allocator.vars.size, { introducedTemp mid.allocator rd with kind, refs }, m',
    .of_work rest emitted done rest' ((Recalls.of_keeps taken.keeps).trans recalls)
      (deeds.bypasses rest.tidy room (fun _ => Open.carries) False.elim rest.bearing done),
    ⟨.of_held fun member => held_hold rd _ (held_hold rd _ (taken.keeps.held member)),
      deeds.vacant rest.tidy fun _ => Open.carries, secures⟩,
    ⟨taken.keeps.size.symm.le,
      (Level.lookup_eq_some sound.names.tempOnce).2 (List.mem_append_right _ (List.mem_singleton_self _)),
      (vars _).trans (if_pos rfl), rfl, rfl, rfl, rfl, rfl, rfl⟩, taken.was_open⟩

theorem Introduced.records {a a' : Allocator} (introduced : Introduced a a' kind refs temp rd id v)
    (valued : last id = some x) : a'.Records last temp id v x :=
  ⟨.inl introduced.looked, introduced.found, valued⟩

theorem Introduced.loose {a a' : Allocator} (introduced : Introduced a a' kind refs temp rd id v)
    (inside : ∀ {id}, K id → id < a.vars.size) : Loose K temp a' := by
  intro i looked counts
  cases looked.symm.trans introduced.looked
  exact Nat.not_lt.2 introduced.fresh (inside counts)

/-- How a value is computed into a new temporary: a register is taken for it, and the code executes behind that. What
the code reads is in registers that are not to be had. -/
theorem compute_stages {f : Reg → List MachineInstr} (rest : AtRest base size last p.allocator m)
    (room : Room base size p'.allocator) (inside : ∀ {id}, K id → id < p.allocator.vars.size)
    (leaves : ∀ {m' rd}, rd.isPool = true → p.allocator.Open rd → m'.reg Reg.zero = 0 →
      (∀ {r x}, Occupied last p.allocator m r x → m'.reg r = x) → Leaves m' (f rd) rd w)
    (ran : (do
      let (temp, rd) ← newTemp kind refs
      emitAll (f rd)
      releaseHolds
      return temp : Gen String).exec c p = .ok (temp, p')) :
    ∃ rd id v p₁ m₁ m', (newTemp kind refs).exec c p = .ok ((temp, rd), p₁) ∧ Room base size p₁.allocator ∧
      Passage base size K p last m p₁ last m₁ ∧ p.allocator.Open rd ∧
      (∀ {r x}, Occupied last p.allocator m r x → m₁.reg r = x) ∧ m₁.performs (f rd) = .ok m' ∧
      Passage base size K p last m p' (Function.update last id (some w)) m' ∧
      Introduced p.allocator p'.allocator kind refs temp rd id v := by
  obtain ⟨⟨temp', rd⟩, p₁, made, ran⟩ := exec_bind_ok ran
  obtain ⟨⟨⟩, p₂, emitted, ran⟩ := exec_bind_ok ran
  obtain ⟨⟨⟩, p₃, released, ran⟩ := exec_bind_ok ran
  cases ran
  have room₂ := room.of_grows (enlarges_releaseHolds _ _ _ released)
  have room₁ := room₂.of_grows (enlarges_emitAll _ _ _ _ emitted)
  obtain ⟨id, v, m₁, passes, keeping, introduced, opened⟩ := newTemp_passes rest room₁ inside made
  have holds : ∀ {r x}, Occupied last p.allocator m r x → m₁.reg r = x :=
    fun occupied => (occupied.keeping keeping).secures.holds
  have leaves := leaves opened.1 opened passes.rest.bearing.zero holds
  obtain ⟨m₂, done, learnt⟩ := passes.rest.learn introduced.found introduced.isTemp introduced.there introduced.array
    introduced.reload leaves
  cases exec_emitAll emitted
  obtain ⟨code, appends, done₁⟩ := passes.straight
  have computed : Passage base size K p last m { p₁ with draft := p₁.draft.pushAll (f rd).toArray }
      (Function.update last id (some w)) m₂ := by
    refine ⟨⟨⟨code ++ f rd, appends.trans (appends_pushAll p₁ p₁.allocator (f rd).toArray),
      (performs_append done₁).trans done⟩, rest, learnt, passes.recalls, fun {i} known => ?_⟩,
      passes.bypasses.trans (.of_memory (performs_writes leaves.written done).1)⟩
    rw [Function.update_of_ne, passes.values known]
    rintro rfl
    exact Nat.not_lt.2 introduced.fresh known
  refine ⟨rd, id, v, p₁, m₁, m₂, made, room₁, passes, opened, holds, done,
    computed.trans (release_passes computed.rest released), ?_⟩
  rw [exec_releaseHolds released]
  exact { introduced with }

/-- A value is computed into a new temporary. -/
theorem compute_passes {f : Reg → List MachineInstr} (rest : AtRest base size last p.allocator m)
    (room : Room base size p'.allocator) (inside : ∀ {id}, K id → id < p.allocator.vars.size)
    (leaves : ∀ {m' rd}, rd.isPool = true → p.allocator.Open rd → m'.reg Reg.zero = 0 →
      (∀ {r x}, Occupied last p.allocator m r x → m'.reg r = x) → Leaves m' (f rd) rd w)
    (ran : (do
      let (temp, rd) ← newTemp kind refs
      emitAll (f rd)
      releaseHolds
      return temp : Gen String).exec c p = .ok (temp, p')) :
    ∃ rd id v m', Passage base size K p last m p' (Function.update last id (some w)) m' ∧
      Introduced p.allocator p'.allocator kind refs temp rd id v := by
  obtain ⟨rd, id, v, -, -, m', -, -, -, -, -, -, passes, introduced⟩ := compute_stages rest room inside leaves ran
  exact ⟨rd, id, v, m', passes, introduced⟩

/-! ### Operands -/

variable {l r : String} {a b : Reg} {u : Variable} {i j : VarId} {y : Word} {p₁ p₂ p₃ p₄ : Progress}

/-- Two operands are read into registers. -/
theorem fetch_two (rest : AtRest base size last p.allocator m) (room : Room base size p₂.allocator)
    (left : p.allocator.Records last l i u x) (right : p.allocator.Records last r j v y)
    (fetched : (fetch l).exec c p = .ok (a, p₁)) (fetched' : (fetch r).exec c p₁ = .ok (b, p₂)) :
    ∃ m', Passage base size K p last m p₂ last m' ∧ Occupied last p₂.allocator m' a x ∧
      Occupied last p₂.allocator m' b y := by
  obtain ⟨m₁, passes, -, reads⟩ := fetch_passes (K := fun _ => True) rest
    (room.of_grows (enlarges_fetch _ _ _ _ fetched')) left.means fetched
  obtain ⟨v', right', -⟩ := passes.records trivial right
  obtain ⟨m₂, passes', keeping, reads'⟩ := fetch_passes (K := fun _ => True) passes.rest room right'.means fetched'
  exact ⟨m₂, (passes.trans passes').mono fun _ => trivial, reads.keeping keeping, reads'⟩

/-- Two operands that are not relied on are read into registers and given up. -/
theorem load_two_passes {s t : Unit} (rest : AtRest base size last p.allocator m) (room : Room base size p₄.allocator)
    (left : p.allocator.Records last l i u x) (right : p.allocator.Records last r j v y)
    (loose : Loose K l p.allocator) (loose' : Loose K r p.allocator)
    (fetched : (fetch l).exec c p = .ok (a, p₁)) (fetched' : (fetch r).exec c p₁ = .ok (b, p₂))
    (freed : (free l).exec c p₂ = .ok (s, p₃)) (freed' : (free r).exec c p₃ = .ok (t, p₄)) :
    ∃ m', Passage base size K p last m p₄ last m' ∧ Occupied last p₄.allocator m' a x ∧
      Occupied last p₄.allocator m' b y := by
  have room₃ := room.of_grows (enlarges_free _ _ _ _ freed')
  have room₂ := room₃.of_grows (enlarges_free _ _ _ _ freed)
  obtain ⟨m₂, passes, reads, reads'⟩ := fetch_two (K := K) rest room₂ left right fetched fetched'
  obtain ⟨m₃, passes₃, keeping₃⟩ := free_passes passes.rest room₃ (passes.loose loose) freed
  have first := passes.trans passes₃
  obtain ⟨m₄, passes₄, keeping₄⟩ := free_passes first.rest room (first.loose loose') freed'
  have keeping := keeping₃.trans keeping₄
  exact ⟨m₄, first.trans passes₄, reads.keeping keeping, reads'.keeping keeping⟩

/-- Two operands in registers, and a new temporary for what is computed from them. -/
def prepare (l r : String) (kind : NumberKind) (refs : Nat) : Gen (Reg × Reg × String × Reg) := do
  let a ← fetch l
  let b ← fetch r
  free l
  free r
  let (temp, rd) ← newTemp kind refs
  return (a, b, temp, rd)

/-- How an operation on two operands that are not relied on is computed: they are read into registers, one is taken for
the result, and the code of the operation executes behind that. -/
theorem binary_stages {f : Reg → Reg → Reg → List MachineInstr} (rest : AtRest base size last p.allocator m)
    (room : Room base size p'.allocator) (inside : ∀ {id}, K id → id < p.allocator.vars.size)
    (left : p.allocator.Records last l i u x) (right : p.allocator.Records last r j v y)
    (loose : Loose K l p.allocator) (loose' : Loose K r p.allocator)
    (leaves : ∀ {m' : Machine} {rd a b}, rd.isPool = true → a ≠ rd → b ≠ rd → m'.reg a = x → m'.reg b = y →
      Leaves m' (f rd a b) rd w)
    (ran : (do
      let a ← fetch l
      let b ← fetch r
      free l
      free r
      let (temp, rd) ← newTemp kind refs
      emitAll (f rd a b)
      releaseHolds
      return temp : Gen String).exec c p = .ok (temp, p')) :
    ∃ a b rd id v p₁ m₁ m', (prepare l r kind refs).exec c p = .ok ((a, b, temp, rd), p₁) ∧
      Room base size p₁.allocator ∧ Passage base size K p last m p₁ last m₁ ∧ rd.isPool = true ∧ m₁.reg a = x ∧
      m₁.reg b = y ∧ m₁.performs (f rd a b) = .ok m' ∧ Passage base size K p last m p' (Function.update last id (some w)) m' ∧
      Introduced p.allocator p'.allocator kind refs temp rd id v := by
  obtain ⟨a, p₁, fetched, ran⟩ := exec_bind_ok ran
  obtain ⟨b, p₂, fetched', ran⟩ := exec_bind_ok ran
  obtain ⟨⟨⟩, p₃, freed, ran⟩ := exec_bind_ok ran
  obtain ⟨⟨⟩, p₄, freed', ran⟩ := exec_bind_ok ran
  have room₄ := room.of_grows (enlarges_compute kind refs (fun rd => f rd a b) _ _ _ ran)
  obtain ⟨m₄, passes, here, here'⟩ := load_two_passes rest room₄ left right loose loose' fetched fetched' freed freed'
  obtain ⟨rd, id, v, p₅, m₅, m', made, room₅, passes₅, opened, holds, done, passes', introduced⟩ :=
    compute_stages (K := K) (f := fun rd => f rd a b) (w := w) passes.rest room
      (fun counts => Nat.lt_of_lt_of_le (inside counts) passes.recalls.size) (fun inPool opened _ holds =>
        leaves inPool (fun same => here.shut (same ▸ opened)) (fun same => here'.shut (same ▸ opened)) (holds here)
          (holds here')) ran
  refine ⟨a, b, rd, id, v, p₅, m₅, m', ?_, room₅, passes.trans passes₅, opened.1, holds here, holds here', done,
    passes.trans passes', { introduced with fresh := Nat.le_trans passes.recalls.size introduced.fresh }⟩
  simp only [prepare, Meets.exec_bind, fetched, fetched', freed, freed', made, Except.bind]
  rfl

end Gen

end SmallC
