import SmallC.Proofs.Allocation.Overlap
import SmallC.Proofs.Generation.Indexing

/-!
Elements of arrays, and of what pointers point at. Where all indices are literals the element may be at an address that
needs no computing, and otherwise its address is computed. It is the same word either way, and no two elements are the
same word.
-/
namespace SmallC

open Alloc Allocator Machine

namespace Gen

variable {c : Context} {p p' : Progress} {base : Int} {size : Nat} {last : VarId → Option Word} {m : Machine}
  {name z : String} {w : Word} {calls : CallCode}

/-! ### Addresses -/

/-- A number that is formed for an address: it is the same word, and no other number if the address is a word. -/
def Forms (at_ n : Int) : Prop := Word.ofInt n = Word.ofInt at_ ∧ (FitsSigned 32 at_ → n = at_)

theorem Forms.refl (n : Int) : Forms n n := ⟨rfl, fun _ => rfl⟩

theorem Forms.word (n : Int) : Forms n (Word.ofInt n).toInt := ⟨(Word.eq_ofInt_toInt _).symm, toInt_ofInt⟩

/-- Where an element is to be found is at an address. -/
def Leads (base : Int) (size : Nat) (a : Allocator) (last : VarId → Option Word) (at_ : Int) : ElementAddress → Prop
  | .fixed place => ∀ {a' : Allocator} {m : Machine}, Onward a a' → Based base size a' m →
      Forms at_ ((m.reg place.base).toInt + place.offset)
  | .named name offset => ∃ id v x, a.Records last name id v x ∧ Forms at_ (x.toInt + offset)

/-- Folding leaves everything as it is. -/
theorem exec_foldedAddress? {id : VarId} {v : Variable} {offset : Int} {folded : Option ElementAddress}
    (named : p.allocator.find? name = some id) (found : p.allocator.var? id = some v)
    (ran : (foldedAddress? name offset).exec c p = .ok (folded, p')) :
    p = p' ∧ ((v.array = none ∧ folded = some (.named name offset)) ∨
      ∃ home start, v.array = some home ∧ address? p.allocator home = some start ∧
        folded =
          if FitsSigned 16 (start.offset + offset) then some (.fixed { start with offset := start.offset + offset })
          else none) := by
  obtain ⟨is, p₁, looked, ran⟩ := exec_bind_ok ran
  cases looked
  have isArray : p.allocator.isArray name = v.array.isSome := by
    rw [Allocator.isArray, named, Option.bind_some, found, Option.any_some]
  split at ran
  · next is =>
    obtain ⟨home, array⟩ := Option.isSome_iff_exists.1 (isArray.symm.trans is)
    obtain ⟨start, p₂, addressed, ran⟩ := exec_bind_ok ran
    obtain ⟨w, did, rfl⟩ := exec_alloc addressed
    simp only [arrayAddress, knownAs, ran_bind, ran_resolve, ran_known] at did
    obtain ⟨u, _, ⟨i, _, ⟨resolved, rfl⟩, known, rfl⟩, did⟩ := did
    cases named.symm.trans resolved
    cases found.symm.trans known
    rw [array] at did
    obtain ⟨formed, rfl⟩ := ran_addressOf.1 did
    cases ran
    exact ⟨by simp [Draft.pushAll], .inr ⟨home, start, array, formed, rfl⟩⟩
  · next is =>
    cases ran
    exact ⟨rfl, .inl ⟨Option.isNone_iff_eq_none.1 (by simpa [isArray] using is), rfl⟩⟩

/-- What is indexed: the dimensions of an array and the address of its first element, or what a pointer points at, which
is an array of any length. -/
inductive Indexed (base : Int) (a : Allocator) (last : VarId → Option Word) (name : String) :
    List Nat → Int → Prop where
  | array {id : VarId} {v : Variable} {x : Word} {home : Home} (records : a.Records last name id v x)
      (is : v.array = some home) : Indexed base a last name v.dims (home.address base)
  | pointer {id : VarId} {v : Variable} {x : Word} (extent : Nat) (records : a.Records last name id v x)
      (scalar : v.array = none) (flat : v.dims = []) : Indexed base a last name [extent] x.toInt

namespace Indexed

variable {dims : List Nat} {ns : List Int} {first : Int}

/-- What is indexed has the address of its first element for its value. -/
theorem records (indexed : Indexed base p.allocator last name dims first)
    (bearing : Bearing base size last p.allocator m) :
    ∃ id v, p.allocator.Records last name id v (Word.ofInt first) ∧ ∀ {ns : List Int}, ns.length = dims.length →
      stridden ns (indexStrides v.dims ns.length) = linearOffset dims ns := by
  cases indexed with
  | @array id v x home records is =>
    rw [(bearing.bears records.found records.valued).address is]
    exact ⟨id, v, records, stridden_indexStrides⟩
  | @pointer id v x extent records scalar flat =>
    rw [← Word.eq_ofInt_toInt]
    exact ⟨id, v, records, fun {ns} length => by
      rw [flat, ← stridden_indexStrides length]
      rfl⟩

/-- A folded offset leads to the element. -/
theorem folded {offset : Int} {address : ElementAddress} (indexed : Indexed base p.allocator last name dims first)
    (ran : (foldedAddress? name offset).exec c p = .ok (some address, p')) :
    p = p' ∧ Leads base size p.allocator last (first + offset) address := by
  cases indexed with
  | @array id v x home records is =>
    obtain ⟨rfl, ⟨scalar, -⟩ | ⟨home', start, is', formed, chosen⟩⟩ := exec_foldedAddress? records.named.find?
      records.found ran
    · cases is.symm.trans scalar
    · cases is.symm.trans is'
      split at chosen
      · cases chosen
        refine ⟨rfl, fun onward based => ?_⟩
        rw [← Int.add_assoc, based.formed ((onward.address? home).trans formed)]
        exact .refl _
      · cases chosen
  | @pointer id v x extent records scalar flat =>
    obtain ⟨rfl, ⟨-, chosen⟩ | ⟨home, start, is, -⟩⟩ := exec_foldedAddress? records.named.find? records.found ran
    · cases chosen
      exact ⟨rfl, id, v, x, records, .refl _⟩
    · cases scalar.symm.trans is

end Indexed

/-- A name stands for a temporary that is in a register. -/
def TempIn (a : Allocator) (name : String) (r : Reg) : Prop :=
  ∃ id v, a.temps.lookup name = some id ∧ a.var? id = some v ∧ v.storage = .register r

/-- Registers are released without code. -/
theorem releaseHolds_appends (ran : releaseHolds.exec c p = .ok ((), p')) : AppendsPlain p [] p' := by
  obtain ⟨w, did, rfl⟩ := exec_alloc ran
  cases ran_change.1 did
  exact appends_pushAll p _ #[]

/-- Knowing another type of a temporary takes no code, and leaves it where it is. -/
theorem TempIn.note {rd : Reg} {u : Unit} (there : TempIn p.allocator z rd) (f : Variable → Variable)
    (keeps : ∀ v, (f v).storage = v.storage)
    (ran : (Gen.alloc (do update (← resolve z) f)).exec c p = .ok (u, p')) :
    AppendsPlain p [] p' ∧ TempIn p'.allocator z rd := by
  obtain ⟨id, v, looked, found, stored⟩ := there
  obtain ⟨w, did, rfl⟩ := exec_alloc ran
  simp only [ran_bind, ran_resolve, ran_update] at did
  obtain ⟨i, _, ⟨resolved, rfl⟩, v', found', rfl⟩ := did
  rw [Allocator.find?, looked] at resolved
  cases resolved
  cases found.symm.trans found'
  exact ⟨appends_pushAll p _ #[], ⟨id, f v, looked, var?_setVar_self found _, (keeps v).trans stored⟩⟩

/-- Finding an element and storing a value to it. -/
def writeElement (line : Nat) (name : String) (indices : List Code) (value : String) : Gen Unit := do
  let address ← elementAddress line name indices
  storeElement address value

/-- An assignment to an element writes it once the value is there. -/
theorem assignElement_eq (line : Nat) (name : String) (indices : List Code) (value : Code) :
    assignElement line name indices value = (do
      let v ← value.value
      let v ← convert v (← elementKind name)
      writeElement line name indices v
      return v) := by
  simp only [assignElement, writeElement, bind_assoc]

/-- An instruction at an offset from a register accesses what is so many words behind a first word. -/
structure Accesses (m : Machine) (b : Reg) (o first offset : Int) : Prop where
  /-- The address is the same word, -/
  word : Word.ofInt ((m.reg b).toInt + o) = Word.ofInt (first + offset)
  /-- and the same number unless that is too large for a word. -/
  exact : FitsSigned 32 (first + offset) → (m.reg b).toInt + o = first + offset
  /-- The word of memory there, if there is one, is what is accessed, and no other word is, as long as registers can
  hold all addresses of memory. -/
  only : 0 ≤ first → m.memory.size ≤ 2 ^ 31 → ∀ {n : Nat}, n < m.memory.size →
    ((m.reg b).toInt + o = n ↔ first + offset = n)

/-- Other addresses that are formed are of no word of memory. -/
theorem Forms.accesses {b : Reg} {o first offset : Int} (forms : Forms (first + offset) ((m.reg b).toInt + o))
    (high : m.memory.size ≤ 2 ^ 31 → first < 2 ^ 31) (fits : FitsSigned 32 offset) : Accesses m b o first offset := by
  have bound : (signedBound 32 : Int) = 2147483648 := rfl
  obtain ⟨least, most⟩ := fits
  refine ⟨forms.1, forms.2, fun low small {n} inside => ?_⟩
  have high := high small
  by_cases fit : FitsSigned 32 (first + offset)
  · rw [forms.2 fit]
  · -- an address that is too large wraps around to a negative one
    have large : 2147483648 ≤ first + offset := by
      rw [FitsSigned, bound] at fit
      omega
    have wraps : (first + offset).bmod (2 ^ 32) < 0 := by
      rw [Int.bmod_def]
      omega
    refine ⟨fun reached => ?_, fun reached => by omega⟩
    have same : (Word.ofInt n).toInt = (Word.ofInt (first + offset)).toInt := by rw [← reached, forms.1]
    rw [toInt_ofInt ⟨by omega, by rw [bound]; omega⟩, Word.ofInt, BitVec.toInt_ofInt] at same
    omega

/-- The first word of an array is one of memory. -/
theorem Indexed.start {dims : List Nat} {first : Int} (indexed : Indexed base p.allocator last name dims first)
    (reached : Reached p.allocator) (room : Room base size p.allocator) :
    (size ≤ 2 ^ 31 → first < 2 ^ 31) ∧ (p.allocator.isArray name = true → 0 ≤ first) := by
  cases indexed with
  | @array id v x home records is =>
    obtain ⟨size, charted⟩ := reached.charted
    have granted : p.allocator.Grants home := charted.mapped.granted records.found
      (.inl (.inr ⟨home, is, 0, Nat.lt_of_lt_of_le Nat.one_pos (Nat.le_max_right _ _), (Home.shift_zero _).symm⟩))
    obtain ⟨n, at_, inside⟩ := room.inside granted
    omega
  | @pointer id v x extent records scalar flat =>
    have high : x.toInt < 2 ^ 31 := BitVec.toInt_lt
    refine ⟨fun _ => high, fun is => ?_⟩
    rw [Allocator.isArray, records.named.find?, Option.bind_some, records.found, Option.any_some, scalar] at is
    cases is

/-- Generation that was evaluated. -/
theorem exec_of_any {α : Type} (act : Gen α) (c : Context) (p : Progress) (good : Progress → Bool)
    (any : (act.exec c p).toOption.any (fun result => good result.2) = true) :
    ∃ x p', act.exec c p = .ok (x, p') ∧ good p' = true := by
  cases ran : act.exec c p with
  | error =>
    rw [ran] at any
    cases any
  | ok result =>
    rw [ran] at any
    exact ⟨result.1, result.2, rfl, any⟩

end Gen

end SmallC
