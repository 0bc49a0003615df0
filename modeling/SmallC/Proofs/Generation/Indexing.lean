import SmallC.Proofs.Generation.Passages
import SmallC.Proofs.Generation.Storing

/-!
Offsets of elements, and the code that computes them. The words of an array lie row behind row, so that indices within
the dimensions are known by the offset that they amount to. Code multiplies the value of each index, a literal or an
integer variable, by the words between neighbours and adds it to what those before it amount to.
-/
namespace SmallC

open Alloc Allocator Machine

/-! ### Offsets -/

/-- The words between the first element of an array and another one. -/
def linearOffset : List Nat → List Int → Int
  | _ :: dims, n :: indices => n * dims.prod + linearOffset dims indices
  | _, _ => 0

/-- What indices amount to with so many words between neighbours. -/
def stridden : List Int → List Nat → Int
  | n :: indices, stride :: strides => n * stride + stridden indices strides
  | _, _ => 0

variable {dims : List Nat} {indices others : List Int}

theorem wordCount_eq_prod (dims : List Nat) : wordCount dims = dims.prod := by
  induction dims with
  | nil => rfl
  | cons dim dims ih => rw [wordCount, ih, List.prod_cons]

theorem stridden_strides (dims : List Nat) (indices : List Int) :
    stridden indices (strides dims) = linearOffset dims indices := by
  induction dims generalizing indices with
  | nil => cases indices <;> rfl
  | cons dim dims ih =>
    cases indices with
    | nil => rfl
    | cons n indices => rw [strides, stridden, linearOffset, ih, wordCount_eq_prod]

/-- The words between neighbours are such that indices amount to the offset of the element. -/
theorem stridden_indexStrides (length : indices.length = dims.length) :
    stridden indices (indexStrides dims indices.length) = linearOffset dims indices := by
  unfold indexStrides
  split
  · exact stridden_strides dims indices
  · next few =>
    match dims, indices, length with
    | [], [], _ => rfl
    | [dim], [n], _ => rfl
    | _ :: _ :: _, _, _ => simp at few

/-! ### Numbers -/

/-- A name stands for a number of a kind that has a value. -/
def Allocator.Numeral (last : VarId → Option Word) (a : Allocator) (name : String) (kind : NumberKind) (x : Word) :
    Prop := ∃ id v, a.Records last name id v x ∧ v.kind = kind ∧ v.refs = 0

/-- A name stands for an integer that has a value. -/
def Allocator.Integer (last : VarId → Option Word) (a : Allocator) (name : String) (x : Word) : Prop :=
  ∃ id v, a.Records last name id v x ∧ v.kind = .int ∧ v.refs = 0

section

open Gen

variable {c : Context} {p p' : Progress} {last : VarId → Option Word} {name l r z : String} {id : VarId} {v : Variable}
  {x y : Word} {k j : NumberKind}

theorem Gen.exec_known {α : Type} {f : Variable → α} {answer : α} (named : p.allocator.find? name = some id)
    (found : p.allocator.var? id = some v)
    (ran : (Gen.alloc (do return f (← knownAs name))).exec c p = .ok (answer, p')) : p = p' ∧ answer = f v := by
  obtain ⟨w, did, rfl⟩ := exec_alloc ran
  simp only [knownAs, ran_bind, ran_resolve, ran_known, ran_pure] at did
  obtain ⟨u, _, ⟨i, _, ⟨resolved, rfl⟩, known, rfl⟩, rfl, rfl⟩ := did
  cases named.symm.trans resolved
  cases found.symm.trans known
  exact ⟨by simp [Draft.pushAll], rfl⟩

namespace Allocator.Numeral

theorem refs {stars : Nat} (numeral : p.allocator.Numeral last name k x)
    (ran : (Gen.alloc (Alloc.refs name)).exec c p = .ok (stars, p')) : p = p' ∧ stars = 0 := by
  obtain ⟨id, v, records, -, plain⟩ := numeral
  obtain ⟨rfl, rfl⟩ := exec_known records.named.find? records.found ran
  exact ⟨rfl, plain⟩

theorem kind {read : NumberKind} (numeral : p.allocator.Numeral last name k x)
    (ran : (Gen.alloc (Alloc.kind name)).exec c p = .ok (read, p')) : p = p' ∧ read = k := by
  obtain ⟨id, v, records, own, -⟩ := numeral
  obtain ⟨rfl, rfl⟩ := exec_known records.named.find? records.found ran
  exact ⟨rfl, own⟩

theorem arithmeticKind {read : NumberKind} (numeral : p.allocator.Numeral last name k x)
    (ran : (arithmeticKind name).exec c p = .ok (read, p')) : p = p' ∧ read = k := by
  obtain ⟨stars, mid, first, ran⟩ := exec_bind_ok ran
  obtain ⟨rfl, rfl⟩ := numeral.refs first
  exact numeral.kind ran

/-- The result is an integer if both operands are. -/
theorem resultKind {read : NumberKind} (left : p.allocator.Numeral last l k x) (right : p.allocator.Numeral last r j y)
    (ran : (resultKind l r).exec c p = .ok (read, p')) :
    p = p' ∧ read = if k = .fixed ∨ j = .fixed then .fixed else .int := by
  obtain ⟨stars, mid, first, ran⟩ := exec_bind_ok ran
  obtain ⟨rfl, rfl⟩ := left.refs first
  obtain ⟨stars, mid, second, ran⟩ := exec_bind_ok ran
  obtain ⟨rfl, rfl⟩ := right.refs second
  obtain ⟨read₁, mid, third, ran⟩ := exec_bind_ok ran
  obtain ⟨rfl, rfl⟩ := left.arithmeticKind third
  obtain ⟨read₂, mid, fourth, ran⟩ := exec_bind_ok ran
  obtain ⟨rfl, rfl⟩ := right.arithmeticKind fourth
  split at ran
  · next fixed =>
    cases ran
    exact ⟨rfl, (if_pos fixed).symm⟩
  · next ints =>
    cases ran
    exact ⟨rfl, (if_neg ints).symm⟩

/-- What is generated for an operation on two numbers, once they are at the scale that it needs. -/
theorem combine {op : ArithmeticOp} (left : p.allocator.Numeral last l k x) (right : p.allocator.Numeral last r j y)
    (ran : (combine op l r).exec c p = .ok (z, p')) :
    (do
      let (l, r, scaleUp) ← reconcile op l r
      let a ← fetch l
      let b ← fetch r
      Gen.free l
      Gen.free r
      let (temp, rd) ← newTemp (if k = .fixed ∨ j = .fixed then .fixed else .int) 0
      emitAll (op.code rd a b)
      match scaleUp with
      | some amount => Gen.emit (.shift .sll rd rd amount)
      | none => pure ()
      releaseHolds
      return temp : Gen String).exec c p = .ok (z, p') := by
  obtain ⟨read, mid, first, ran⟩ := exec_bind_ok ran
  obtain ⟨rfl, rfl⟩ := left.resultKind right first
  obtain ⟨stars, mid, second, ran⟩ := exec_bind_ok ran
  obtain ⟨rfl, rfl⟩ := left.refs second
  obtain ⟨stars, mid, third, ran⟩ := exec_bind_ok ran
  obtain ⟨rfl, rfl⟩ := right.refs third
  exact ran

end Allocator.Numeral

namespace Allocator.Integer

/-- An integer is converted to an integer by leaving it alone. -/
theorem convert (integer : p.allocator.Integer last name x) (ran : (convert name .int).exec c p = .ok (z, p')) :
    p = p' ∧ name = z := by
  obtain ⟨stars, mid, first, ran⟩ := exec_bind_ok ran
  obtain ⟨rfl, rfl⟩ := Numeral.refs integer first
  obtain ⟨read, mid, second, ran⟩ := exec_bind_ok ran
  obtain ⟨rfl, rfl⟩ := Numeral.kind integer second
  cases ran
  exact ⟨rfl, rfl⟩

/-- Two integers are at the same scale. -/
theorem reconcile {op : ArithmeticOp} {scaled : String × String × Option Nat} (left : p.allocator.Integer last l x)
    (right : p.allocator.Integer last r y) (ran : (reconcile op l r).exec c p = .ok (scaled, p')) :
    p = p' ∧ scaled = (l, r, none) := by
  obtain ⟨read₁, mid, first, ran⟩ := exec_bind_ok ran
  obtain ⟨rfl, rfl⟩ := Numeral.arithmeticKind left first
  obtain ⟨read₂, mid, second, ran⟩ := exec_bind_ok ran
  obtain ⟨rfl, rfl⟩ := Numeral.arithmeticKind right second
  cases ran
  exact ⟨rfl, rfl⟩

/-- What is generated for an operation on two integers. -/
theorem combine {op : ArithmeticOp} (left : p.allocator.Integer last l x) (right : p.allocator.Integer last r y)
    (ran : (combine op l r).exec c p = .ok (z, p')) :
    (do
      let a ← fetch l
      let b ← fetch r
      Gen.free l
      Gen.free r
      let (temp, rd) ← newTemp .int 0
      emitAll (op.code rd a b)
      releaseHolds
      return temp : Gen String).exec c p = .ok (z, p') := by
  obtain ⟨scaled, mid, first, ran⟩ := exec_bind_ok (Numeral.combine left right ran)
  obtain ⟨rfl, rfl⟩ := left.reconcile right first
  simpa only [pure_bind, reduceCtorEq, or_self, if_false] using ran

end Allocator.Integer

end

namespace Gen

variable {c : Context} {p p' p₀ : Progress} {base : Int} {size : Nat} {K : VarId → Prop}
  {last last' last₀ : VarId → Option Word} {m m' m₀ : Machine} {name l r z : String} {x y w : Word} {calls : CallCode}

/-- A passage that ends with the name of an integer, which is not itself relied on. -/
structure Counts (base : Int) (size : Nat) (K : VarId → Prop) (p : Progress) (last : VarId → Option Word) (m : Machine)
    (p' : Progress) (last' : VarId → Option Word) (m' : Machine) (name : String) (x : Word) : Prop
    extends Passage base size K p last m p' last' m' where
  loose : Loose K name p'.allocator
  integer : p'.allocator.Integer last' name x

/-- An integer that is relied on. -/
theorem Passage.integer {id : VarId} {v : Variable} (passes : Passage base size K p last m p' last' m') (counts : K id)
    (records : p.allocator.Records last name id v x) (isInt : v.kind = .int) (plain : v.refs = 0) :
    p'.allocator.Integer last' name x := by
  obtain ⟨v', records', same⟩ := passes.records counts records
  exact ⟨id, v', records', same.kind.trans isInt, same.refs.trans plain⟩

/-- What indices amount to, added to what those before them do. -/
def term (calls : CallCode) (e : Expr) (stride : Nat) : Gen String := do
  let v ← convert (← (code calls e).value) .int
  if stride = 1 then pure v else do combine .mul v (← literal stride .int)

/-- What indices amount to so far: there is none, or its name is known. -/
def Reckons (base : Int) (size : Nat) (p : Progress) (last : VarId → Option Word) (m : Machine) (p' : Progress)
    (last' : VarId → Option Word) (m' : Machine) (n : Int) : Option String → Prop
  | none => Passage base size p.allocator.Known p last m p' last' m' ∧ n = 0
  | some name => Counts base size p.allocator.Known p last m p' last' m' name (Word.ofInt n)

theorem Reckons.passes {n : Int} {before : Option String}
    (reckons : Reckons base size p last m p' last' m' n before) :
    Passage base size p.allocator.Known p last m p' last' m' := by
  cases before with
  | none => exact reckons.1
  | some name => exact reckons.toPassage

end Gen

end SmallC
