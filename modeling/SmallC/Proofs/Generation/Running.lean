import SmallC.Proofs.Allocation.Meeting
import SmallC.Proofs.Generation.Laying
import SmallC.Proofs.Generation.Names
import SmallC.Proofs.Meaning.Words
import SmallC.Proofs.Program.Stepping

/-!
Generated code as it runs. Generation appends to a draft; a machine that has come to the end of the draft, and
agrees with the allocator there, runs through what is appended next and comes to the new end. What others rely on
in the meantime stays where it is, and so do the registers that are held.

What is known of an operation without a machine is kept apart from what a machine makes of it, since much of what
is generated is jumped over.
-/
namespace SmallC

open Allocator Machine

/-- Where generated code is going to run: among all entries of a program, with a memory of some size. -/
structure Site where
  entries : List Entry
  linkable : Linkable entries
  base : Int
  size : Nat

/-- What was generated up to some point stands at the site, and there is room for the homes that were handed
out. -/
structure Site.Hosts (site : Site) (p : Progress) : Prop where
  code : p.draft.entries.toList <+: site.entries
  room : Room site.base site.size p.allocator

/-- A state between two operations, in which some variables are relied on and some registers are held. -/
structure Progress.Orderly (K : VarId → Prop) (kept : List Reg) (p : Progress) : Prop where
  sound : Sound [] p.allocator
  calm : Alloc.Calm K kept p.allocator
  pooled : ∀ r ∈ kept, r.isPool = true

/-- What is appended to a draft neither calls nor has to do with the return address. -/
def Appends (p p' : Progress) : Prop :=
  ∃ es, p'.draft.entries.toList = p.draft.entries.toList ++ es ∧ ∀ e ∈ es, MachineInstr.Local e.instr

/-- What generation comes to that leaves some variables where they stand, names of variables as they are, and
registers that are held alone. -/
structure Along (K : VarId → Prop) (kept : List Reg) (p p' : Progress) : Prop where
  stands : Stands K p.allocator p'.allocator
  orderly : p'.Orderly K kept
  root : p'.allocator.root = p.allocator.root
  inner : p'.allocator.inner = p.allocator.inner
  code : Appends p p'

/-- A machine that has come to the end of what was generated and agrees with the allocator. -/
structure Abreast (site : Site) (p : Progress) (last : VarId → Option Word) (m : Machine) : Prop where
  agrees : Agrees site.base site.size last p.allocator m
  here : m.pc = p.draft.size

/-- A run from one machine to another that has come to a new end. -/
structure Comes (site : Site) (K : VarId → Prop) (kept : List Reg) (p' : Progress) (last : VarId → Option Word)
    (m : Machine) (last' : VarId → Option Word) (m' : Machine) : Prop where
  abreast : Abreast site p' last' m'
  reaches : Reaches site.entries m m'
  same : ∀ {id}, K id → last' id = last id
  still : ∀ r ∈ kept, m'.reg r = m.reg r

/-- Generation of code that is run through and changes no values. -/
structure RunsThrough (site : Site) (K : VarId → Prop) (kept : List Reg) (p p' : Progress) : Prop where
  along : Along K kept p p'
  runs : site.Hosts p' → ∀ {last m}, Abreast site p last m → ∃ m', Comes site K kept p' last m last m'

/-- Where control stands is of no concern to values. -/
theorem Agrees.goto {base : Int} {size : Nat} {last : VarId → Option Word} {a : Allocator} {m : Machine}
    (agrees : Agrees base size last a m) (x : Int) : Agrees base size last a (m.goto x) :=
  ⟨agrees.zero, agrees.stack, agrees.memory, agrees.fresh, agrees.ordinary, fun found scalar written =>
    have holds := agrees.holds found scalar written
    ⟨holds.register, holds.memory, holds.home⟩⟩

variable {S : Site} {K L : VarId → Prop} {kept fewer : List Reg} {p p' mid : Progress}
  {last last' last₁ : VarId → Option Word} {m m' m₁ : Machine} {c : Context} {α : Type}

theorem Progress.Orderly.mono (orderly : p.Orderly K kept) (less : ∀ {id}, L id → K id) (within : fewer ⊆ kept) :
    p.Orderly L fewer :=
  ⟨orderly.sound, orderly.calm.mono less within, fun r member => orderly.pooled r (within member)⟩

namespace Appends

theorem refl (p : Progress) : Appends p p := ⟨[], (List.append_nil _).symm, nofun⟩

theorem trans (first : Appends p mid) (second : Appends mid p') : Appends p p' := by
  obtain ⟨es, appended, own⟩ := first
  obtain ⟨es', appended', own'⟩ := second
  refine ⟨es ++ es', ?_, List.forall_mem_append.2 ⟨own, own'⟩⟩
  rw [appended', appended, List.append_assoc]

theorem within (appends : Appends p p') : p.draft.entries.toList <+: p'.draft.entries.toList := by
  obtain ⟨es, appended, -⟩ := appends
  rw [appended]
  exact List.prefix_append _ _

/-- Instructions without a label are appended. -/
theorem of_pushAll {code : Array MachineInstr} (own : ∀ i ∈ code, i.Local)
    (draft : p'.draft = p.draft.pushAll code) : Appends p p' := by
  refine ⟨Alloc.entriesOf code, ?_, fun e member => ?_⟩
  · rw [draft, Gen.toList_pushAll]
  · obtain ⟨i, inside, rfl⟩ := List.mem_map.1 member
    exact own i (Array.mem_toList_iff.1 inside)

end Appends

namespace Along

theorem refl (orderly : p.Orderly K kept) : Along K kept p p :=
  ⟨.refl orderly.calm.inside, orderly, rfl, rfl, .refl p⟩

theorem trans (first : Along K kept p mid) (second : Along K kept mid p') : Along K kept p p' :=
  ⟨first.stands.trans second.stands, second.orderly, second.root.trans first.root,
    second.inner.trans first.inner, first.code.trans second.code⟩

theorem mono (along : Along K kept p p') (less : ∀ {id}, L id → K id) (within : fewer ⊆ kept) :
    Along L fewer p p' :=
  ⟨along.stands.mono less, along.orderly.mono less within, along.root, along.inner, along.code⟩

end Along

/-- What is hosted now was hosted before. -/
theorem Site.Hosts.earlier (hosts : S.Hosts p') (code : Appends p p') (grows : Grows p.allocator p'.allocator) :
    S.Hosts p :=
  ⟨code.within.trans hosts.code, hosts.room.of_grows grows⟩

theorem Site.Hosts.before (hosts : S.Hosts p') (along : Along K kept p p') : S.Hosts p :=
  hosts.earlier along.code along.stands.grows

namespace Comes

theorem refl (abreast : Abreast S p last m) : Comes S K kept p last m last m :=
  ⟨abreast, .refl, fun _ => rfl, fun _ _ => rfl⟩

theorem trans (first : Comes S K kept mid last m last₁ m₁) (second : Comes S K kept p' last₁ m₁ last' m') :
    Comes S K kept p' last m last' m' :=
  ⟨second.abreast, first.reaches.trans second.reaches,
    fun counts => (second.same counts).trans (first.same counts),
    fun r member => (second.still r member).trans (first.still r member)⟩

theorem mono (comes : Comes S K kept p' last m last' m') (less : ∀ {id}, L id → K id) (within : fewer ⊆ kept) :
    Comes S L fewer p' last m last' m' :=
  ⟨comes.abreast, comes.reaches, fun counts => comes.same (less counts), fun r member => comes.still r (within member)⟩

end Comes

namespace RunsThrough

theorem refl (orderly : p.Orderly K kept) : RunsThrough S K kept p p :=
  ⟨.refl orderly, fun _ _ m abreast => ⟨m, .refl abreast⟩⟩

theorem trans (first : RunsThrough S K kept p mid) (second : RunsThrough S K kept mid p') : RunsThrough S K kept p p' :=
  ⟨first.along.trans second.along, fun hosts _ _ abreast => by
    obtain ⟨m₁, comes⟩ := first.runs (hosts.before second.along) abreast
    obtain ⟨m', comes'⟩ := second.runs hosts comes.abreast
    exact ⟨m', comes.trans comes'⟩⟩

theorem mono (flows : RunsThrough S K kept p p') (less : ∀ {id}, L id → K id) (within : fewer ⊆ kept) :
    RunsThrough S L fewer p p' :=
  ⟨flows.along.mono less within, fun hosts _ _ abreast => by
    obtain ⟨m', comes⟩ := flows.runs hosts abreast
    exact ⟨m', comes.mono less within⟩⟩

end RunsThrough

namespace Gen

open Alloc

/-- What an operation of the allocator comes to, apart from its run. -/
theorem alloc_along {w : Work} (orderly : p.Orderly K kept) (steady : Steady K kept ⟨p.allocator, #[]⟩ w)
    (sound : Sound [] w.allocator) :
    Along K kept p { p with allocator := w.allocator, draft := p.draft.pushAll w.code } := by
  obtain ⟨code, emitted, spares⟩ := steady.code
  rw [Array.empty_append] at emitted
  exact ⟨steady.stands, ⟨sound, steady.calm, orderly.pooled⟩, steady.root, steady.inner,
    .of_pushAll (fun i member => (spares i (emitted ▸ member)).2) rfl⟩

/-- The code of an operation of the allocator is run through. -/
theorem alloc_comes {w : Work} (pooled : ∀ r ∈ kept, r.isPool = true)
    (spares : ∀ i ∈ w.code, MachineInstr.Spares kept i)
    (hosts : S.Hosts { p with allocator := w.allocator, draft := p.draft.pushAll w.code }) (here : m.pc = p.draft.size)
    (carried : Carried m S.base S.size last' [] w m') :
    ∃ m', Abreast S { p with allocator := w.allocator, draft := p.draft.pushAll w.code } last' m' ∧
      Reaches S.entries m m' ∧ ∀ r ∈ kept, m'.reg r = m.reg r := by
  have laid : p.draft.entries.toList ++ w.code.toList.map Entry.plain <+: S.entries := by
    have code := hosts.code
    rwa [toList_pushAll] at code
  have spares' : ∀ i ∈ w.code.toList, MachineInstr.Spares kept i := fun i member =>
    spares i (Array.mem_toList_iff.1 member)
  refine ⟨_, ⟨carried.agrees.goto _, ?_⟩, reaches_code laid here spares' carried.performed, fun r member => ?_⟩
  · rw [pc_goto_nat, Draft.size, ← Array.length_toList, toList_pushAll, List.length_append, entriesOf, List.length_map]
  · rw [reg_goto]
    exact reg_of_performs spares' carried.performed member (Reg.ne_of_isPool (pooled r member)).2.2

/-- An operation of the allocator whose code is run through. -/
theorem flows_alloc {w : Work} (orderly : p.Orderly K kept)
    (steady : Steady K kept ⟨p.allocator, #[]⟩ w) (sound : Sound [] w.allocator)
    (carries : ∀ {last m}, Carried m S.base S.size last [] ⟨p.allocator, #[]⟩ m →
      Room S.base S.size w.allocator → ∃ m', Carried m S.base S.size last [] w m') :
    RunsThrough S K kept p { p with allocator := w.allocator, draft := p.draft.pushAll w.code } := by
  refine ⟨alloc_along orderly steady sound, fun hosts last m abreast => ?_⟩
  obtain ⟨m', carried⟩ := carries ⟨orderly.sound, abreast.agrees, rfl⟩ hosts.room
  obtain ⟨m'', abreast', reaches, still⟩ := alloc_comes orderly.pooled steady.spares hosts abreast.here carried
  exact ⟨m'', abreast', reaches, fun _ => rfl, still⟩

/-- A variable is read into a register. -/
structure Reads (name : String) (r : Reg) (p p' : Progress) : Prop where
  temps : p'.allocator.temps = p.allocator.temps
  there : ∃ id v, p.allocator.find? name = some id ∧ p'.allocator.var? id = some v ∧ v.storage = .register r

theorem fetch_flows {name : String} {r : Reg} (orderly : p.Orderly K kept)
    (ran : (fetch name).exec c p = .ok (r, p')) :
    RunsThrough S K kept p p' ∧ Reads name r p p' ∧ p'.Orderly K (r :: kept) := by
  obtain ⟨w, did, rfl⟩ := exec_alloc ran
  have steady := getRegister_steady orderly.sound orderly.calm did
  have sound := getRegister_sound orderly.sound did
  obtain ⟨keeps, held, id, v, resolved, found, there⟩ := getRegister_reads orderly.sound did
  refine ⟨flows_alloc orderly steady sound fun carried room => getRegister_carried carried room did,
    ⟨keeps.temps, id, v, (keeps.find? name).symm.trans resolved, found, there⟩, sound,
    ⟨steady.calm.inside, steady.numeric, List.forall_mem_cons.2 ⟨held, steady.held⟩⟩,
    List.forall_mem_cons.2 ⟨(steady.numeric found).pooled there, orderly.pooled⟩⟩

/-- Nothing that is relied on goes by a name, if that is the name of a temporary. -/
def Loose (K : VarId → Prop) (name : String) (a : Allocator) : Prop :=
  ∀ id, a.temps.lookup name = some id → ¬ K id

theorem free_flows {name : String} (orderly : p.Orderly K kept) (loose : Loose K name p.allocator)
    (ran : (free name).exec c p = .ok ((), p')) : RunsThrough S K kept p p' := by
  obtain ⟨w, did, rfl⟩ := exec_alloc ran
  refine flows_alloc orderly (removeIfTemp_steady orderly.calm loose (fun {id v} looked found => ?_) did)
    (removeIfTemp_sound orderly.sound did).1 fun carried _ => ⟨_, removeIfTemp_carried carried did⟩
  obtain ⟨u, found', isTemp, -⟩ := orderly.sound.names.tempIs
    ((Level.lookup_eq_some orderly.sound.names.tempOnce).1 looked)
  cases found.symm.trans found'
  exact isTemp

theorem exec_releaseHolds (ran : releaseHolds.exec c p = .ok ((), p')) :
    p'.allocator = { p.allocator with held := [] } := by
  obtain ⟨w, did, rfl⟩ := exec_alloc ran
  rw [ran_change.1 did]
  rfl

theorem releaseHolds_flows (orderly : p.Orderly K kept) (ran : releaseHolds.exec c p = .ok ((), p')) :
    RunsThrough S K [] p p' := by
  obtain ⟨w, did, rfl⟩ := exec_alloc ran
  have steady := releaseHolds_steady (orderly.calm.mono (fun counts => counts) (List.nil_subset _)) did
  rw [ran_change.1 did] at steady ⊢
  have sound : Sound [] { p.allocator with held := [] } := orderly.sound.congr (fun _ => Iff.rfl) rfl
  exact flows_alloc (orderly.mono (fun counts => counts) (List.nil_subset _)) steady sound fun carried _ =>
    ⟨_, carried.change sound (.of_same rfl rfl (Nat.le_refl _) rfl) rfl⟩

theorem sync_flows (orderly : p.Orderly K kept) (ran : sync.exec c p = .ok ((), p')) :
    RunsThrough S K kept p p' ∧ Met p'.allocator := by
  obtain ⟨w, did, rfl⟩ := exec_alloc ran
  exact ⟨flows_alloc orderly (sync_steady orderly.sound orderly.calm did) (sync_sound orderly.sound did).1
    fun carried room => sync_carried carried room did, sync_met orderly.sound orderly.calm.numeric did⟩

theorem hint_flows {e : Expr} (orderly : p.Orderly K kept) (ran : (hint e).exec c p = .ok ((), p')) :
    RunsThrough S K kept p p' := by
  unfold hint at ran
  split at ran
  · next name occurrence =>
    change (if c.liveness.getD occurrence .lastUse = .lastUse then Gen.alloc (Alloc.demote name)
      else pure ()).exec c p = _ at ran
    split at ran
    · obtain ⟨w, did, rfl⟩ := exec_alloc ran
      exact flows_alloc orderly (demote_steady orderly.calm did) (demote_sound orderly.sound did).1
        fun carried _ => ⟨_, demote_carried carried did⟩
    · cases ran
      exact .refl orderly
  · cases ran
    exact .refl orderly

/-! ### What is known about a variable -/

/-- What a name stands for, with the word it has: the variable of a name that a source can give, or a
temporary. -/
def Denotes (a : Allocator) (last : VarId → Option Word) (name : String) (x : Number) : Prop :=
  ∃ id v, a.find? name = some id ∧ a.var? id = some v ∧ v.kind = x.kind ∧ last id = some x.word ∧
    ((isTempName name = false ∧ v.isTemp = false) ∨ a.temps.lookup name = some id)

theorem lookup_of_named {a : Allocator} {name : String} (names : Names a) (named : isTempName name = false) :
    a.temps.lookup name = none := by
  cases looked : a.temps.lookup name with
  | none => rfl
  | some i =>
    obtain ⟨k, -, rfl⟩ := names.tempNumber ((Level.lookup_eq_some names.tempOnce).1 looked)
    cases named.symm.trans (isTempName_tempName k)

/-- A temporary that is relied on goes by the name that it had. -/
theorem lookup_along {a a' : Allocator} {name : String} {id : VarId} (names : Names a) (names' : Names a')
    (stands : Stands K a a') (counts : K id) (looked : a.temps.lookup name = some id) :
    a'.temps.lookup name = some id := by
  obtain ⟨v, found, isTemp, rfl⟩ := names.tempIs ((Level.lookup_eq_some names.tempOnce).1 looked)
  obtain ⟨v', found', stays⟩ := stands.stays counts found
  rw [← stays.name]
  exact (Level.lookup_eq_some names'.tempOnce).2 (names'.temp found' (stays.isTemp.trans isTemp))

theorem lookup_back {a a' : Allocator} {name : String} {id : VarId} (names : Names a) (names' : Names a')
    (stands : Stands K a a') (counts : K id) (looked : a'.temps.lookup name = some id) :
    a.temps.lookup name = some id := by
  obtain ⟨v', found', isTemp, rfl⟩ := names'.tempIs ((Level.lookup_eq_some names'.tempOnce).1 looked)
  obtain ⟨v, found, stays⟩ := stands.old counts found'
  rw [stays.name]
  exact (Level.lookup_eq_some names.tempOnce).2 (names.temp found (stays.isTemp.symm.trans isTemp))

/-- What a name stands for that is relied on stays what it was. -/
theorem Denotes.along {a a' : Allocator} {name : String} {x : Number} (denotes : Denotes a last name x)
    (names : Names a) (names' : Names a') (stands : Stands K a a') (root : a'.root = a.root)
    (inner : a'.inner = a.inner) (counts : ∀ id, a.find? name = some id → K id)
    (same : ∀ {id}, K id → last' id = last id) : Denotes a' last' name x := by
  obtain ⟨id, v, resolved, found, kind, value, aside⟩ := denotes
  have counts := counts id resolved
  obtain ⟨v', found', stays⟩ := stands.stays counts found
  refine ⟨id, v', ?_, found', stays.kind.trans kind, (same counts).trans value, ?_⟩
  · rcases aside with ⟨named, -⟩ | looked
    · rw [Allocator.find?, lookup_of_named names named] at resolved
      rw [Allocator.find?, lookup_of_named names' named, root, inner]
      exact resolved
    · rw [Allocator.find?, lookup_along names names' stands counts looked]
      rfl
  · exact aside.imp (fun named => ⟨named.1, stays.isTemp.trans named.2⟩) (lookup_along names names' stands counts)

/-- What goes by no name that counts does not come to do so. -/
theorem Loose.along {name : String} (loose : Loose K name p.allocator) (orderly : p.Orderly K fewer)
    (along : Along K kept p p') : Loose K name p'.allocator := fun id looked counts =>
  loose id (lookup_back orderly.sound.names along.orderly.sound.names along.stands counts looked) counts

/-- A register that a variable was read into holds its value. -/
theorem Reads.value {name : String} {r : Reg} {x : Number} (reads : Reads name r p p')
    (denotes : Denotes p.allocator last name x) (numeric : p'.allocator.Numeric)
    (agrees : Agrees S.base S.size last p'.allocator m) : m.reg r = x.word := by
  obtain ⟨id, v, resolved, found, there⟩ := reads.there
  obtain ⟨id', v', resolved', -, -, value, -⟩ := denotes
  cases resolved.symm.trans resolved'
  exact (agrees.holds found (numeric found).scalar value).register there

/-- What is noted of a variable is read off the state. -/
theorem exec_kind {name : String} {kind : NumberKind}
    (ran : (Gen.alloc (Alloc.kind name)).exec c p = .ok (kind, p')) :
    p = p' ∧ ∃ id v, p.allocator.find? name = some id ∧ p.allocator.var? id = some v ∧ v.kind = kind := by
  obtain ⟨w, did, rfl⟩ := exec_alloc ran
  simp only [Alloc.kind, knownAs, ran_bind, ran_resolve, ran_known, ran_pure] at did
  obtain ⟨v, _, ⟨id, _, ⟨resolved, rfl⟩, found, rfl⟩, rfl, rfl⟩ := did
  exact ⟨by simp [Draft.pushAll], id, v, resolved, found, rfl⟩

theorem exec_refs {name : String} {refs : Nat} (numeric : p.allocator.Numeric)
    (ran : (Gen.alloc (Alloc.refs name)).exec c p = .ok (refs, p')) : p = p' ∧ refs = 0 := by
  obtain ⟨w, did, rfl⟩ := exec_alloc ran
  simp only [Alloc.refs, knownAs, ran_bind, ran_resolve, ran_known, ran_pure] at did
  obtain ⟨v, _, ⟨id, _, ⟨resolved, rfl⟩, found, rfl⟩, rfl, rfl⟩ := did
  exact ⟨by simp [Draft.pushAll], (numeric found).plain⟩

theorem exec_arithmeticKind {name : String} {kind : NumberKind} (numeric : p.allocator.Numeric)
    (ran : (arithmeticKind name).exec c p = .ok (kind, p')) :
    p = p' ∧ ∃ id v, p.allocator.find? name = some id ∧ p.allocator.var? id = some v ∧ v.kind = kind := by
  obtain ⟨refs, mid, first, second⟩ := exec_bind_ok ran
  obtain ⟨rfl, rfl⟩ := exec_refs numeric first
  exact exec_kind second

/-! ### New temporaries -/

/-- A new temporary in a register, for a number that is yet to be computed. -/
structure Taken (kind : NumberKind) (temp : String) (rd : Reg) (p p' : Progress) : Prop where
  fresh : ∃ id v, p.allocator.vars.size ≤ id ∧ p'.allocator.temps.lookup temp = some id ∧
    p'.allocator.var? id = some v ∧ v.isTemp = true ∧ v.storage = .register rd ∧ v.kind = kind

/-- A temporary that was introduced has a number of its own and a register that was not held. -/
theorem addTemp_taken {w w' : Work} {temp : String} {hand : List Reg} (sound : Sound hand w.allocator)
    (added : Ran addTemp w temp w') :
    ∃ r id v, w.allocator.vars.size ≤ id ∧ w'.allocator.temps.lookup temp = some id ∧
      w'.allocator.var? id = some v ∧ v.isTemp = true ∧ v.storage = .register r ∧ r ∉ w.allocator.held ∧
      r.isPool = true := by
  have sound' := addTemp_sound sound added
  obtain ⟨r, mid, took, rfl, rfl⟩ := ran_addTemp added
  have taken := takes sound took
  have named : (tempName mid.allocator.nextTemp, mid.allocator.vars.size) ∈
      (withTemp r mid.allocator).temps := List.mem_append_right _ (List.mem_singleton_self _)
  exact ⟨r, mid.allocator.vars.size, _, (growing_take _ _ _ took).size,
    (Level.lookup_eq_some sound'.names.tempOnce).2 named, (var?_withTemp _ _).trans (if_pos rfl), rfl, rfl,
    taken.loose, taken.inPool⟩

theorem newTemp_flows {kind : NumberKind} {refs : Nat} {temp : String} {rd : Reg} (orderly : p.Orderly K kept)
    (plain : refs = 0) (ran : (newTemp kind refs).exec c p = .ok ((temp, rd), p')) :
    RunsThrough S K kept p p' ∧ Taken kind temp rd p p' ∧ rd ∉ kept ∧ rd.isPool = true := by
  obtain ⟨w, did, rfl⟩ := exec_alloc ran
  simp only [ran_bind, ran_pure] at did
  obtain ⟨name, w₁, added, r, w₂, read, _, w₃, noted, _, _, noted', same, rfl⟩ := did
  cases same
  have addedSteady := addTemp_steady orderly.sound orderly.calm added
  have sound₁ := addTemp_sound orderly.sound added
  have readSteady := getRegister_steady sound₁ addedSteady.calm read
  have sound₂ := getRegister_sound sound₁ read
  obtain ⟨r₀, id, v, above, looked, found, isTemp, there, loose, inPool⟩ := addTemp_taken orderly.sound added
  -- the temporary is in its register, so that reading it changes nothing that is known
  have resolved : w₁.allocator.find? temp = some id := by
    rw [Allocator.find?, looked]
    rfl
  obtain ⟨same, rfl⟩ : rd = r₀ ∧ w₂ = on (fun a => a.used id rd) w₁ := by
    obtain ⟨id', v', resolved', found', ⟨there', mid, loaded, rfl⟩ | ⟨away, -⟩⟩ := ran_getRegister read
    · cases resolved.symm.trans resolved'
      cases found.symm.trans found'
      cases there.symm.trans there'
      rcases loaded with ⟨reloads, -⟩ | ⟨rfl, -⟩
      · cases (addedSteady.numeric found).untouched.symm.trans reloads
      · exact ⟨rfl, rfl⟩
    · cases resolved.symm.trans resolved'
      cases found.symm.trans found'
      rw [there] at away
      cases away
  subst same
  have other : ∀ i, w₁.allocator.find? temp = some i → ¬ K i := fun i resolved' counts => by
    cases resolved.symm.trans resolved'
    exact Nat.not_lt.2 above (orderly.calm.inside counts)
  have kindSteady := note_steady (f := fun v => { v with kind }) readSteady.calm other (fun v => ⟨rfl, rfl, rfl, fun plain => plain⟩) noted
  have sound₃ : Sound [] w₃.allocator :=
    noteOf_sound (f := fun v => { v with kind }) sound₂ (fun v => ⟨rfl, rfl, rfl, rfl, rfl, rfl, rfl⟩) noted
  have kinds : w₃ = on (fun a => a.setVar id { v with kind }) (on (fun a => a.used id rd) w₁) := by
    simp only [setKind, ran_bind, ran_resolve, ran_update, and_assoc, exists_and_left, exists_eq_left] at noted
    obtain ⟨i, resolved', u, found', rfl⟩ := noted
    cases resolved.symm.trans resolved'
    cases found.symm.trans found'
    rfl
  have found₃ : w₃.allocator.var? id = some { v with kind } := by
    rw [kinds]
    exact var?_setVar_self (a := w₁.allocator.used id rd) found _
  have resolved₃ : w₃.allocator.find? temp = some id := by
    rw [kinds]
    exact resolved
  have refsNoted : w = on (fun a => a.setVar id { v with kind, refs }) w₃ := by
    simp only [setRefs, ran_bind, ran_resolve, ran_update, and_assoc, exists_and_left, exists_eq_left] at noted'
    obtain ⟨i, resolved', u, found', rfl⟩ := noted'
    cases resolved₃.symm.trans resolved'
    cases found₃.symm.trans found'
    rfl
  have refsSteady := note_steady (f := fun v => { v with refs }) kindSteady.calm
    (fun i resolved' counts => other i (resolved.trans (resolved₃.symm.trans resolved')) counts)
    (fun v => ⟨rfl, rfl, rfl, fun _ => plain⟩) noted'
  have sound₄ : Sound [] w.allocator :=
    noteOf_sound (f := fun v => { v with refs }) sound₃ (fun v => ⟨rfl, rfl, rfl, rfl, rfl, rfl, rfl⟩) noted'
  have whole := ((addedSteady.trans readSteady).trans kindSteady).trans refsSteady
  refine ⟨flows_alloc orderly whole sound₄ fun carried room => ?_, ⟨id, { v with kind, refs }, above, ?_, ?_, isTemp,
    there, rfl⟩, fun member => loose (orderly.calm.held rd member), inPool⟩
  · have room₃ := room.of_grows refsSteady.stands.grows
    have room₂ := room₃.of_grows kindSteady.stands.grows
    obtain ⟨m₁, carried₁, -⟩ := addTemp_carried carried (room₂.of_grows readSteady.stands.grows) added
    obtain ⟨m₂, carried₂⟩ := getRegister_carried carried₁ room₂ read
    exact ⟨m₂, note_carried (f := fun v => { v with refs }) (note_carried (f := fun v => { v with kind }) carried₂ (fun v => ⟨rfl, rfl, rfl, rfl, rfl, rfl, rfl, rfl, rfl⟩) noted)
      (fun v => ⟨rfl, rfl, rfl, rfl, rfl, rfl, rfl, rfl, rfl⟩) noted'⟩
  · rw [refsNoted, kinds]
    exact looked
  · rw [refsNoted]
    exact var?_setVar_self found₃ _

/-! ### Code that computes -/

/-- Registers are written that hold a variable without a value, or none. -/
theorem agrees_performs {a : Allocator} {base : Int} {size : Nat} {code : List MachineInstr} {rd : Reg} {id : VarId}
    (agrees : Agrees base size last a m) (owners : Owners a) (owned : a.ownerOf rd = some id)
    (idle : last id = none) (inPool : rd.isPool = true)
    (writes : ∀ i ∈ code, i.written? = some rd ∨ i.written? = some Reg.scratch)
    (done : m.performs code = .ok m') : Agrees base size last a m' := by
  induction code generalizing m with
  | nil =>
    cases done
    exact agrees
  | cons i rest ih =>
    rw [performs, List.foldlM_cons] at done
    cases first : m.effect i with
    | error x =>
      rw [first] at done
      cases done
    | ok mid =>
      rw [first] at done
      refine ih ?_ (fun j member => writes j (List.mem_cons_of_mem i member)) done
      rcases writes i List.mem_cons_self with own | aside
      · refine agrees.write owners (Reg.ne_of_isPool inPool).2.1 (effect_writes own first) fun owned' _ _ value => ?_
        cases owned.symm.trans owned'
        cases idle.symm.trans value
      · refine agrees.write owners (by decide) (effect_writes aside first) fun owned' _ _ _ => ?_
        obtain ⟨v, found, there⟩ := owners.owner.1 owned'
        cases (agrees.ordinary found).pooled there

/-- Code leaves the value of a variable in the register that waits for it. -/
theorem emitAll_leaves {code : List MachineInstr} {rd : Reg} {w : Word} {id : VarId} (sound : Sound [] p.allocator)
    (ran : (emitAll code).exec c p = .ok ((), p')) (hosts : S.Hosts p') (abreast : Abreast S p last m)
    (poised : Poised id rd p.allocator) (leaves : Leaves m code rd w) :
    ∃ m', Abreast S p' (Function.update last id (some w)) m' ∧ Reaches S.entries m m' := by
  cases ran
  obtain ⟨v, found, there, dirty⟩ := poised
  have inPool := (abreast.agrees.ordinary found).pooled there
  obtain ⟨after, done, holds⟩ := leaves.done
  have agrees : Agrees S.base S.size (Function.update last id none) p.allocator after :=
    agrees_performs (abreast.agrees.forget id) sound.registers.toOwners
      (sound.registers.owner.2 ⟨v, found, there⟩) (Function.update_self ..) inPool leaves.writes done
  have learnt : Agrees S.base S.size (Function.update last id (some w)) p.allocator after := by
    rw [← Function.update_idem (β := fun _ => Option Word) none]
    refine agrees.learn found ⟨fun there' => ?_, fun there' => ?_, fun isNamed _ clean => ?_⟩
    · cases there.symm.trans there'
      exact holds
    · cases there.symm.trans there'
    · cases (dirty isNamed).symm.trans clean
  have laid : p.draft.entries.toList ++ code.map Entry.plain <+: S.entries := by
    have code := hosts.code
    rwa [toList_pushAll] at code
  have spares : ∀ i ∈ code, MachineInstr.Spares [] i := fun i member =>
    (leaves.writes i member).elim (fun writes => .inl ⟨_, writes, List.not_mem_nil⟩)
      fun writes => .inl ⟨_, writes, List.not_mem_nil⟩
  refine ⟨_, ⟨learnt.goto _, ?_⟩, reaches_code laid abreast.here spares done⟩
  rw [pc_goto_nat, Draft.size, ← Array.length_toList, toList_pushAll, List.length_append, entriesOf, List.length_map]

theorem emit_eq (i : MachineInstr) : Gen.emit i = emitAll [i] := by
  unfold Gen.emit emitAll
  congr 1
  funext d
  simp [Draft.push, Draft.append, Draft.pushAll]

theorem emitAll_along {code : List MachineInstr} (orderly : p.Orderly K kept) (own : ∀ i ∈ code, i.Local)
    (ran : (emitAll code).exec c p = .ok ((), p')) : Along K kept p p' ∧ p'.allocator = p.allocator := by
  cases ran
  refine ⟨⟨.refl orderly.calm.inside, ⟨orderly.sound, orderly.calm, orderly.pooled⟩, rfl, rfl, ?_⟩, rfl⟩
  exact .of_pushAll (fun i member => own i (by simpa using member)) rfl

end Gen

end SmallC
