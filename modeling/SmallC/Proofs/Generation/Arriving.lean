import SmallC.Proofs.Generation.Computing

/-!
Control that leaves the code at hand for a label. It arrives there with values where paths meet, which is all
that the code behind the label relies on, so it makes no difference from where control came: from the code in
front of the label, or from a jump or branch before or behind it.
-/
namespace SmallC

open Allocator Machine

/-- Control has gone to a label, with values where paths meet. -/
structure Arrives (S : Site) (K : VarId → Prop) (a : Allocator) (label : String) (last : VarId → Option Word)
    (m m' : Machine) : Prop where
  reaches : Reaches S.entries m m'
  there : ∃ k : Nat, LabelAt S.entries label k ∧ m'.pc = k
  rests : Rests S.base S.size K last a m'

variable {S : Site} {K L : VarId → Prop} {kept : List Reg} {p p' p₁ : Progress} {a a' : Allocator}
  {last last' : VarId → Option Word} {m m' m₁ : Machine} {c : Context} {label target : String}

/-- Where control stands is of no concern to where values are. -/
theorem Rests.goto {base : Int} {size : Nat} (rests : Rests base size K last a m) (x : Int) :
    Rests base size K last a (m.goto x) :=
  ⟨rests.zero, rests.stack, rests.memory, rests.home, rests.register⟩

namespace Arrives

theorem after (reaches : Reaches S.entries m m₁) (arrives : Arrives S K a label last m₁ m') :
    Arrives S K a label last m m' :=
  ⟨reaches.trans arrives.reaches, arrives.there, arrives.rests⟩

theorem mono (arrives : Arrives S K a label last m m') (less : ∀ {id}, L id → K id) :
    Arrives S L a label last m m' :=
  ⟨arrives.reaches, arrives.there, arrives.rests.mono less⟩

theorem congr (arrives : Arrives S K a label last m m') (same : ∀ {id}, K id → last' id = last id) :
    Arrives S K a label last' m m' :=
  ⟨arrives.reaches, arrives.there, arrives.rests.congr same⟩

/-- The label may stand behind more code. -/
theorem forth (arrives : Arrives S K p.allocator label last m m') (orderly : p.Orderly L kept)
    (stands : Stands K p.allocator a') : Arrives S K a' label last m m' :=
  ⟨arrives.reaches, arrives.there, arrives.rests.forth orderly.sound orderly.calm.numeric stands⟩

/-- The label may stand where paths met before. -/
theorem back (arrives : Arrives S K a' label last m m') (met : Met a) (stands : Stands K a a') :
    Arrives S K a label last m m' :=
  ⟨arrives.reaches, arrives.there, arrives.rests.back met stands⟩

end Arrives

/-- A state that differs in nothing that is known about variables is one in which paths meet, too. -/
theorem Allocator.Met.congr (met : Met a) (vars : ∀ id, a'.var? id = a.var? id) : Met a' :=
  ⟨fun found => met.named ((vars _).symm.trans found), fun found => met.temp ((vars _).symm.trans found)⟩

/-- An entry that was appended stands where the draft ended. -/
theorem Site.Hosts.entry {e : Entry} (hosts : S.Hosts p')
    (appended : p'.draft.entries.toList = p.draft.entries.toList ++ [e]) : S.entries[p.draft.size]? = some e := by
  obtain ⟨behind, whole⟩ := hosts.code
  rw [← whole, appended, Draft.size, ← Array.length_toList]
  simp

namespace Gen

open Alloc

/-! ### Entries of their own -/

theorem append_along {e : Entry} (orderly : p.Orderly K kept) (own : MachineInstr.Local e.instr)
    (ran : (Gen.draft fun d => d.append e).exec c p = .ok ((), p')) :
    Along K kept p p' ∧ p'.allocator = p.allocator ∧
      p'.draft.entries.toList = p.draft.entries.toList ++ [e] := by
  cases ran
  have appended : (p.draft.append e).entries.toList = p.draft.entries.toList ++ [e] := by simp [Draft.append]
  refine ⟨⟨.refl orderly.calm.inside, ⟨orderly.sound, orderly.calm, orderly.pooled⟩, rfl, rfl, [e], appended, ?_⟩,
    rfl, appended⟩
  simpa using own

/-- A label that is handed out changes nothing but what the next one is. -/
theorem freshLabel_along (orderly : p.Orderly K kept) (ran : freshLabel.exec c p = .ok (label, p')) :
    Along K kept p p' ∧ p'.allocator = p.allocator ∧ ∀ {last m}, Abreast S p last m → Abreast S p' last m := by
  cases ran
  exact ⟨⟨.refl orderly.calm.inside, ⟨orderly.sound, orderly.calm, orderly.pooled⟩, rfl, rfl, .refl p⟩, rfl,
    fun abreast => ⟨abreast.agrees, abreast.here⟩⟩

/-- A machine goes on to the next entry. -/
theorem Abreast.next {e : Entry} (abreast : Abreast S p last m) (same : p'.allocator = p.allocator)
    (appended : p'.draft.entries.toList = p.draft.entries.toList ++ [e]) :
    Abreast S p' last (m.goto ↑(p.draft.size + 1)) := by
  refine ⟨?_, ?_⟩
  · rw [same]
    exact abreast.agrees.goto _
  · rw [pc_goto_nat, Draft.size, Draft.size, ← Array.length_toList, ← Array.length_toList, appended,
      List.length_append, List.length_singleton]

/-- A jump where paths meet arrives at its label. -/
theorem jumpTo_leaves (orderly : p.Orderly K kept) (met : Met p.allocator)
    (ran : (Gen.emit (MachineInstr.jumpTo label)).exec c p = .ok ((), p')) :
    Along K kept p p' ∧ p'.allocator = p.allocator ∧ (S.Hosts p' → ∀ {last m}, Abreast S p last m →
      ∃ m', Arrives S K p'.allocator label last m m') := by
  have own : MachineInstr.Local (MachineInstr.jumpTo label) := by
    constructor
    · simp [MachineInstr.SparesReturnAddress, MachineInstr.jumpTo, Instr.operands]
    · rfl
  obtain ⟨along, same, appended⟩ := append_along (e := .plain (MachineInstr.jumpTo label)) orderly own ran
  refine ⟨along, same, fun hosts last m abreast => ?_⟩
  have found := hosts.entry appended
  obtain ⟨k, bound⟩ := S.linkable.bound (List.mem_of_getElem? found) rfl
  refine ⟨m.goto k, .single (advances_jump abreast.here found bound), ⟨k, bound, pc_goto_nat _ k⟩, ?_⟩
  rw [same]
  exact (abreast.agrees.rests orderly.sound orderly.calm.numeric met).goto k

/-- A jump arrives at its label. -/
theorem jump_leaves (orderly : p.Orderly K kept) (ran : (jump label).exec c p = .ok ((), p')) :
    Along K kept p p' ∧ Met p'.allocator ∧ (S.Hosts p' → ∀ {last m}, Abreast S p last m →
      ∃ m', Arrives S K p'.allocator label last m m') := by
  obtain ⟨⟨⟩, p₁, synced, jumped⟩ := exec_bind_ok ran
  obtain ⟨flows, met⟩ := sync_flows (S := S) orderly synced
  obtain ⟨along, same, leaves⟩ := jumpTo_leaves (S := S) flows.along.orderly met jumped
  refine ⟨flows.along.trans along, same ▸ met, fun hosts last m abreast => ?_⟩
  obtain ⟨m₁, comes⟩ := flows.runs (hosts.before along) abreast
  obtain ⟨m', arrives⟩ := leaves hosts comes.abreast
  exact ⟨m', arrives.after comes.reaches⟩

/-- A branch arrives at its label where it is taken, and goes on where it is not. -/
theorem branch_leaves {op : BranchOp} {r s : Reg} (orderly : p.Orderly K kept) (left : Reg.returnAddress ≠ r)
    (right : Reg.returnAddress ≠ s) (met : Met p.allocator)
    (ran : (Gen.emit (MachineInstr.branchTo op r s label)).exec c p = .ok ((), p')) :
    Along K kept p p' ∧ p'.allocator = p.allocator ∧ (S.Hosts p' → ∀ {last m}, Abreast S p last m →
      (branches op (m.reg r) (m.reg s) = true → ∃ m', Arrives S K p'.allocator label last m m') ∧
      (branches op (m.reg r) (m.reg s) = false → ∃ m', Comes S K kept p' last m last m')) := by
  have own : MachineInstr.Local (MachineInstr.branchTo op r s label) := by
    constructor
    · simp [MachineInstr.SparesReturnAddress, MachineInstr.branchTo, Instr.operands, left, right]
    · rfl
  obtain ⟨along, same, appended⟩ := append_along (e := .plain (MachineInstr.branchTo op r s label)) orderly own ran
  refine ⟨along, same, fun hosts last m abreast => ⟨fun taken => ?_, fun passed => ?_⟩⟩
  · have found := hosts.entry appended
    obtain ⟨k, bound⟩ := S.linkable.bound (List.mem_of_getElem? found) rfl
    refine ⟨m.goto k, .single (advances_taken abreast.here found taken bound), ⟨k, bound, pc_goto_nat _ k⟩, ?_⟩
    rw [same]
    exact (abreast.agrees.rests orderly.sound orderly.calm.numeric met).goto k
  · exact ⟨_, Abreast.next abreast same appended, .single (advances_passed abreast.here (hosts.entry appended) passed),
      fun _ => rfl, fun r _ => reg_goto _ _ _⟩

/-- A label that is placed is come to from the code in front of it, and from wherever control arrives at it. -/
theorem placeLabel_flows (orderly : p.Orderly K kept) (ran : (placeLabel label).exec c p = .ok ((), p')) :
    RunsThrough S K kept p p' ∧ Met p'.allocator ∧ (S.Hosts p' → ∀ {last m₀ m},
      Arrives S K p'.allocator label last m₀ m → ∃ m', Comes S K [] p' last m₀ (valuesOf K last) m') := by
  obtain ⟨⟨⟩, p₁, synced, ran⟩ := exec_bind_ok ran
  obtain ⟨flows, met⟩ := sync_flows (S := S) orderly synced
  have orderly₁ := flows.along.orderly
  have own : MachineInstr.Local MachineInstr.noop := by
    constructor
    · decide
    · rfl
  obtain ⟨along, same, appended⟩ := append_along (e := .labeled label MachineInstr.noop) orderly₁ own ran
  refine ⟨flows.trans ⟨along, fun hosts last m abreast => ?_⟩, same ▸ met, fun hosts last m₀ m arrives => ?_⟩
  · exact ⟨_, Abreast.next abreast same appended,
      .single (advances_anchor abreast.here (hosts.entry appended) abreast.agrees.zero), fun _ => rfl,
      fun r _ => reg_goto _ _ _⟩
  · have found := hosts.entry appended
    obtain ⟨k, bound, here⟩ := arrives.there
    rw [S.linkable.unique bound ⟨_, found, rfl⟩] at here
    have rests := same ▸ arrives.rests
    have abreast : Abreast S p₁ (valuesOf K last) m :=
      ⟨rests.agrees orderly₁.sound orderly₁.calm.numeric orderly₁.calm.inside met, here⟩
    refine ⟨_, Abreast.next abreast same appended,
      arrives.reaches.tail (advances_anchor here found rests.zero), fun counts => valuesOf_of counts, nofun⟩

end Gen

/-- Code that decides a condition: control arrives at a label where it holds, and goes on where it does not.
Which of the two depends on the values that variables have. -/
structure Decides (S : Site) (K : VarId → Prop) (p : Progress) (target : String) (p' : Progress)
    (R : (VarId → Option Word) → Bool → Prop) : Prop where
  along : Along K [] p p'
  met : Met p'.allocator
  taken : S.Hosts p' → ∀ {last m}, Abreast S p last m → R last true →
    ∃ m', Arrives S K p'.allocator target last m m'
  passed : S.Hosts p' → ∀ {last m}, Abreast S p last m → R last false →
    ∃ last' m', Comes S K [] p' last m last' m'

namespace Decides

variable {R R' : (VarId → Option Word) → Bool → Prop}

/-- What is decided may be put in other terms. -/
theorem weaken (decides : Decides S K p target p' R) (holds : ∀ {last b}, R' last b → R last b) :
    Decides S K p target p' R' :=
  ⟨decides.along, decides.met, fun hosts _ _ abreast value => decides.taken hosts abreast (holds value),
    fun hosts _ _ abreast value => decides.passed hosts abreast (holds value)⟩

/-- More code is run through first. -/
theorem after (flows : RunsThrough S K [] p p₁) (decides : Decides S K p₁ target p' R) :
    Decides S K p target p' R where
  along := flows.along.trans decides.along
  met := decides.met
  taken hosts _ _ abreast value := by
    obtain ⟨m₁, comes⟩ := flows.runs (hosts.before decides.along) abreast
    obtain ⟨m', arrives⟩ := decides.taken hosts comes.abreast value
    exact ⟨m', arrives.after comes.reaches⟩
  passed hosts _ _ abreast value := by
    obtain ⟨m₁, comes⟩ := flows.runs (hosts.before decides.along) abreast
    obtain ⟨last', m', comes'⟩ := decides.passed hosts comes.abreast value
    exact ⟨last', m', comes.trans comes'⟩

/-- More code is run through where the condition does not hold. -/
theorem extend (decides : Decides S K p target p₁ R) (flows : RunsThrough S K [] p₁ p') (met : Met p'.allocator) :
    Decides S K p target p' R where
  along := decides.along.trans flows.along
  met := met
  taken hosts _ _ abreast value := by
    obtain ⟨m', arrives⟩ := decides.taken (hosts.before flows.along) abreast value
    exact ⟨m', arrives.forth decides.along.orderly flows.along.stands⟩
  passed hosts _ _ abreast value := by
    obtain ⟨last₁, m₁, comes⟩ := decides.passed (hosts.before flows.along) abreast value
    obtain ⟨m', comes'⟩ := flows.runs hosts comes.abreast
    exact ⟨last₁, m', comes.trans comes'⟩

end Decides

end SmallC
